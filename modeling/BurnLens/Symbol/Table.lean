import BurnLens.Diagnostic
import BurnLens.OrderedMap

/-! # Symbol tables

A table holds every declaration found in one file. It is never patched: indexing a file again gives
a fresh table that takes the place of the old one. -/

namespace BurnLens

/-- A typed parameter. -/
structure Parameter where
  name : String
  type : String
  deriving DecidableEq, Repr

/-- A function or method header. Predeclared functions have no range and no file; only they carry
documentation. -/
structure Signature where
  name : String
  parameters : List Parameter := []
  returnType : String := ""
  range : Option Range := none
  uri : Option String := none
  /-- The class of a method. -/
  owner : Option String := none
  documentation : Option String := none
  deriving DecidableEq, Repr

def Signature.isMethod (s : Signature) : Bool :=
  s.owner.isSome

/-- A `var` or `const`; the type is empty when it is unknown. -/
structure Variable where
  name : String
  type : String
  range : Range
  isConst : Bool
  deriving DecidableEq, Repr

/-- A record type. -/
structure TypeDefinition where
  name : String
  fields : OrderedMap String := {}
  range : Option Range := none
  uri : Option String := none
  deriving DecidableEq, Repr

/-- A class with its methods. -/
structure ClassDefinition where
  name : String
  methods : OrderedMap Signature
  range : Range
  uri : String
  deriving DecidableEq, Repr

/-- All declarations of one file. -/
structure SymbolTable where
  uri : String
  imports : List String := []
  types : OrderedMap TypeDefinition := {}
  functions : OrderedMap Signature := {}
  classes : OrderedMap ClassDefinition := {}
  vars : OrderedMap Variable := {}
  deriving DecidableEq, Repr

/-- Finds the function that a name stands for outside the file at hand. -/
abbrev FunctionLookup := String → Option Signature

/-! ### Outlines -/

/-- What a line of an outline is about. -/
inductive SymbolKind where
  | function
  | method
  | classDefinition
  | typeDefinition
  | mutable
  | constant
  deriving DecidableEq, Repr

def SymbolKind.label : SymbolKind → String
  | .function => "function"
  | .method => "method"
  | .classDefinition => "class"
  | .typeDefinition => "type"
  | .mutable => "variable"
  | .constant => "constant"

/-- One line of the outline of a file. -/
structure OutlineEntry where
  name : String
  kind : SymbolKind
  range : Range
  container : Option String := none
  deriving DecidableEq, Repr

/-- A place in some file. -/
structure Location where
  uri : String
  range : Range
  deriving DecidableEq, Repr

/-- Whether a position comes no later than another. -/
def Position.le (a b : Position) : Bool :=
  a.line < b.line || (a.line == b.line && a.character ≤ b.character)

namespace SymbolTable

/-- Functions, types, classes each followed by their methods, and variables. -/
def declarations (t : SymbolTable) : List OutlineEntry :=
  (t.functions.values.filterMap fun f => f.range.map fun r => ⟨f.name, .function, r, none⟩) ++
  (t.types.values.filterMap fun d => d.range.map fun r => ⟨d.name, .typeDefinition, r, none⟩) ++
  (t.classes.values.flatMap fun c =>
    ⟨c.name, .classDefinition, c.range, none⟩ ::
      c.methods.values.filterMap fun m => m.range.map fun r => ⟨m.name, .method, r, some c.name⟩) ++
  t.vars.values.map fun v =>
    ⟨v.name, if v.isConst then .constant else .mutable, v.range, none⟩

/-- The outline: the declarations by their starts, those at one place in the order above. -/
def outline (t : SymbolTable) : List OutlineEntry :=
  t.declarations.mergeSort fun a b => a.range.start.le b.range.start

/-- Where the table declares a name: a variable first, then a function, a type, a class. -/
def location? (t : SymbolTable) (name : String) : Option Location :=
  let range :=
    (t.vars.get? name).map (·.range) |>.or
    ((t.functions.get? name).bind (·.range)) |>.or
    ((t.types.get? name).bind (·.range)) |>.or
    ((t.classes.get? name).map (·.range))
  range.map fun r => ⟨t.uri, r⟩

end SymbolTable

end BurnLens
