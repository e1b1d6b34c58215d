import BurnLens.File.Uri
import BurnLens.Symbol.Builtin
import BurnLens.Symbol.Extract

/-! # The workspace index

One symbol table per file, in the order in which the files came, and for each file the list of files
it imports. Names are looked up from a file: first in its own table, then among the predeclared
names, then in the files it imports, then in every other file in order. -/

namespace BurnLens

/-- How sources are laid out in a workspace. -/
structure Layout where
  /-- Appended to imports that lack it. -/
  extension : String := ".bn"
  /-- Imports that start so belong to the standard library. -/
  libraryMark : String := "std/"
  /-- The folder of the standard library below the workspace root. -/
  libraryFolder : String := "src/lib"
  deriving DecidableEq, Repr

/-- Why a file cannot be indexed. -/
inductive IndexFault where
  | reserved
  | path (fault : PathFault)
  | uri (fault : UriFault)
  | file (fault : FileFault)
  deriving DecidableEq, Repr

def IndexFault.message : IndexFault → String
  | .reserved => Builtin.uri ++ " is reserved for the builtin namespace"
  | .path fault => fault.message
  | .uri fault => fault.message
  | .file fault => fault.message

structure Index where
  root : Option Path := none
  layout : Layout := {}
  tables : OrderedMap SymbolTable := {}
  imports : OrderedMap (List String) := {}
  /-- The files being indexed right now. -/
  active : List String := []
  deriving DecidableEq, Repr

namespace Index

/-- An empty index of the workspace at a root. -/
def create (fs : FileSystem) (root : Option Path) (layout : Layout) : Except FileFault Index := do
  let root ← root.mapM fs.resolve
  return { root := root.map .ofPlace, layout }

/-- The indexed files in the order in which they came. -/
def uris (ix : Index) : List String :=
  ix.tables.keys

/-- The table of a file, or the predeclared one. -/
def table? (ix : Index) (uri : String) : Option SymbolTable :=
  if uri = Builtin.uri then some Builtin.table else ix.tables.get? uri

/-- The files that a file imports. -/
def importsOf (ix : Index) (uri : String) : List String :=
  (ix.imports.get? uri).getD []

/-- Drops the table of a file. -/
def remove (ix : Index) (uri : String) : Index :=
  { ix with tables := ix.tables.erase uri, imports := ix.imports.erase uri }

/-- Drops every table. -/
def clear (ix : Index) : Index :=
  { ix with tables := .empty, imports := .empty, active := [] }

/-! ### Lookup -/

/-- The tables in the order in which a file sees them, each once. -/
def tablesFor (ix : Index) (uri : String) : List SymbolTable :=
  let imported := (ix.importsOf uri).filter (· ≠ uri)
  (ix.tables.get? uri).toList ++ [Builtin.table] ++ imported.filterMap ix.tables.get? ++
    (ix.tables.entries.filter fun e => e.1 ≠ uri ∧ e.1 ∉ imported).map (·.2)

/-- The first answer among the tables that a file sees. -/
def lookup {α : Type} (ix : Index) (uri : String) (ask : SymbolTable → Option α) : Option α :=
  (ix.tablesFor uri).findSome? ask

/-- A function declared outside a file. -/
def externalFunction (ix : Index) (uri : String) : FunctionLookup := fun name =>
  ((ix.tablesFor uri).filter (·.uri ≠ uri)).findSome? (·.functions.get? name)

def variableType (ix : Index) (name uri : String) : Option String :=
  (ix.lookup uri (·.vars.get? name)).map (·.type)

def function (ix : Index) (name uri : String) : Option Signature :=
  ix.lookup uri (·.functions.get? name)

def typeDefinition (ix : Index) (name uri : String) : Option TypeDefinition :=
  ix.lookup uri (·.types.get? name)

def typeFields (ix : Index) (name uri : String) : Option (OrderedMap String) :=
  (ix.typeDefinition name uri).map (·.fields)

def classMethods (ix : Index) (name uri : String) : Option (OrderedMap Signature) :=
  (ix.lookup uri (·.classes.get? name)).map (·.methods)

/-- Every name of a kind that a file sees, with its first declaration. -/
def visible {α : Type} (ix : Index) (uri : String) (kind : SymbolTable → OrderedMap α) :
    OrderedMap α :=
  ((ix.tablesFor uri).flatMap fun t => (kind t).entries).foldl (fun m e => m.putNew e.1 e.2) .empty

def allFunctions (ix : Index) (uri : String) : OrderedMap Signature :=
  ix.visible uri (·.functions)

def allTypes (ix : Index) (uri : String) : OrderedMap TypeDefinition :=
  ix.visible uri (·.types)

/-- Where a name is declared; predeclared names have no place. -/
def definition (ix : Index) (name uri : String) : Option Location :=
  ((ix.tablesFor uri).filter (·.uri ≠ Builtin.uri)).findSome? (·.location? name)

/-- The variables of one file. -/
def variablesOf (ix : Index) (uri : String) : Option (List Variable) :=
  (ix.tables.get? uri).map (·.vars.values)

/-- The constants of one file. -/
def constantsOf (ix : Index) (uri : String) : Option (List Variable) :=
  (ix.variablesOf uri).map (·.filter (·.isConst))

/-- The outline of one file. -/
def outline (ix : Index) (uri : String) : List OutlineEntry :=
  ((ix.tables.get? uri).map (·.outline)).getD []

end Index

end BurnLens
