import BurnLens.Pattern

/-! # Import statements

`import "path"` names one file, `import ("a" "b")` a group. The paths are listed in the order in
which they stand in the text. -/

namespace BurnLens.Symbol

open BurnLens.Text

/-- A path and the offset where it stands. -/
structure ImportPath where
  offset : Nat
  path : List Char
  deriving DecidableEq, Repr

def singlePaths (cs : List Char) : List ImportPath :=
  (hits (anywhere Pattern.singleImport) cs).map fun h => ⟨h.start + h.value.offset, h.value.text⟩

def groupPaths (cs : List Char) : List ImportPath :=
  (hits (anywhere Pattern.groupImport) cs).flatMap fun g =>
    (hits (anywhere Pattern.quotedPath) g.value.text).map fun p =>
      ⟨g.start + g.value.offset + p.start + 1, p.value⟩

/-- All import paths of a text in source order. -/
def importPaths (cs : List Char) : List String :=
  ((singlePaths cs ++ groupPaths cs).mergeSort fun a b => a.offset ≤ b.offset).map fun p =>
    String.ofList p.path

end BurnLens.Symbol
