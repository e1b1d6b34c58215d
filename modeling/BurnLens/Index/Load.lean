import BurnLens.Index.Basic

/-! # Indexing files and what they import

Before a file is indexed, the files it imports are; those that have a table already, or are being
indexed further up, are left alone. So every chain of imports ends: each step of it adds a file to
the active ones. A failure while an import is resolved leaves the importing file as it was, with
the imports before it indexed. -/

namespace BurnLens

namespace Index

/-- The path of an import before its extension is completed. -/
def importCandidate (ix : Index) (importPath fromUri : String) :
    Except IndexFault (Option Path) := do
  if ix.layout.libraryMark.toList.isPrefixOf importPath.toList then
    return ix.root.map fun root =>
      (root.join (.ofString ix.layout.libraryFolder)).join (.ofString importPath)
  else if importPath.toList.head? = some '/' then
    match ix.root with
    | none => return some (.ofString importPath)
    | some root =>
      let below := importPath.toList.dropWhile (· == '/')
      return some (root.join (.ofString (String.ofList below)))
  else
    let current ← (Uri.toPath? fromUri).mapError .uri
    return current.map fun path => path.parent.join (.ofString importPath)

/-- Adds the source extension to a path that lacks it. -/
def completeExtension (ix : Index) (path : Path) : Except IndexFault Path :=
  if Text.endsWith path.name.toList ix.layout.extension.toList then .ok path
  else (path.withName (path.name ++ ix.layout.extension)).mapError .path

/-- The path that an import means; the file need not exist. Library imports are found below the
library folder, imports with a leading slash below the workspace root, all others beside the
importing file. -/
def resolveImport (ix : Index) (importPath fromUri : String) :
    Except IndexFault (Option Path) := do
  (← ix.importCandidate importPath fromUri).mapM ix.completeExtension

/-- The existing file that an import means, and its URI. -/
def importFile (ix : Index) (fs : FileSystem) (importPath fromUri : String) :
    Except IndexFault (Option (Path × String)) := do
  match ← ix.resolveImport importPath fromUri with
  | none => return none
  | some path =>
    if ← (fs.isFile path).mapError .file then
      return some (path, ← (fs.uriOf path).mapError .file)
    else return none

/-- Indexes a text under a URI. -/
abbrev Loader := Index → String → String → Index × Except IndexFault Extraction

/-- Follows one import: gives the URI it leads to, and indexes that file unless it has a table or
is active. -/
def loadImport (fs : FileSystem) (load : Loader) (ix : Index) (importPath fromUri : String) :
    Index × Except IndexFault (Option String) :=
  match ix.importFile fs importPath fromUri with
  | .error fault => (ix, .error fault)
  | .ok none => (ix, .ok none)
  | .ok (some (path, target)) =>
    if ix.tables.contains target || ix.active.contains target then (ix, .ok (some target))
    else
      match fs.readText path with
      | .error fault => (ix, .error (.file fault))
      | .ok none => (ix, .ok none)
      | .ok (some text) =>
        match load ix target text with
        | (ix, .error fault) => (ix, .error fault)
        | (ix, .ok _) => (ix, .ok (some target))

/-- Follows imports in order and lists the files they lead to, each once. -/
def loadImports (fs : FileSystem) (load : Loader) (uri : String) (targets : List String) :
    List String → Index → Index × Except IndexFault (List String)
  | [], ix => (ix, .ok targets)
  | importPath :: rest, ix =>
    match loadImport fs load ix importPath uri with
    | (ix, .error fault) => (ix, .error fault)
    | (ix, .ok none) => loadImports fs load uri targets rest ix
    | (ix, .ok (some target)) =>
      loadImports fs load uri (if target ∈ targets then targets else targets ++ [target]) rest ix

/-- Records the imports of a file and its table. -/
def record (ix : Index) (uri text : String) (targets : List String) : Index × Extraction :=
  let ix := { ix with imports := ix.imports.put uri targets }
  let extraction := extract text uri (ix.externalFunction uri)
  ({ ix with tables := ix.tables.put uri extraction.table }, extraction)

def activate (ix : Index) (uri : String) : Index :=
  { ix with active := uri :: ix.active }

def deactivate (ix : Index) (uri : String) : Index :=
  { ix with active := ix.active.erase uri }

/-- Indexes a text after the files it imports, following chains of imports up to a length. -/
def load (fs : FileSystem) : Nat → Loader
  | 0, ix, uri, text =>
    let (ix, extraction) := ix.record uri text []
    (ix, .ok extraction)
  | depth + 1, ix, uri, text =>
    match loadImports fs (load fs depth) uri [] (Symbol.importPaths text.toList)
        (ix.activate uri) with
    | (ix, .error fault) => (ix.deactivate uri, .error fault)
    | (ix, .ok targets) =>
      let (ix, extraction) := ix.record uri text targets
      (ix.deactivate uri, .ok extraction)

/-- No chain of imports is longer: every file on it but the first is a file of its own. -/
def chainBound (fs : FileSystem) : Nat :=
  fs.entries.length + 1

/-- Builds the table of a file from its current text. -/
def indexDocument (ix : Index) (fs : FileSystem) (uri text : String) :
    Index × Except IndexFault Extraction :=
  if uri = Builtin.uri then (ix, .error .reserved) else load fs (chainBound fs) ix uri text

/-- Reads a file and indexes it under its own URI; none when it cannot be read. -/
def indexFile (ix : Index) (fs : FileSystem) (path : Path) :
    Index × Except IndexFault (Option Extraction) :=
  match fs.readText path, fs.uriOf path with
  | .error fault, _ => (ix, .error (.file fault))
  | .ok none, _ => (ix, .ok none)
  | .ok (some _), .error fault => (ix, .error (.file fault))
  | .ok (some text), .ok uri =>
    match load fs (chainBound fs) ix uri text with
    | (ix, .error fault) => (ix, .error fault)
    | (ix, .ok extraction) => (ix, .ok (some extraction))

end Index

end BurnLens
