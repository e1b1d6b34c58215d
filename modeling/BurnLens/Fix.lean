import BurnLens.Diagnostic
import BurnLens.Pattern

/-! # Quick fixes

An undeclared name can be declared on a line of its own above its use; an unused variable can get
an underscore in front of its name. The name is read back from the message of the diagnostic. -/

namespace BurnLens

/-- Replaces a range of a document by a text. -/
structure Edit where
  range : Range
  newText : String
  deriving DecidableEq, Repr

/-- A titled edit that settles one diagnostic. -/
structure Fix where
  title : String
  uri : String
  edits : List Edit
  diagnostic : Diagnostic
  deriving DecidableEq, Repr

namespace Fix

open BurnLens.Text

/-- Reads `Variable 'name'` and the words that follow it. -/
def quotedName (words : String) (cs : List Char) : Option (List Char × List Char) := do
  let r ← literal "Variable '".toList cs
  let (name, r) ← run1 (· != '\'') r
  let rest ← literal words.toList r
  return (name, rest)

/-- The name that a message is about. -/
def nameIn? (words message : String) : Option String :=
  (firstHit? (anywhere (quotedName words)) message.toList).map fun h => String.ofList h.value

/-- Declares the name in a line of its own. -/
def declare? (d : Document) (diagnostic : Diagnostic) : Option Fix := do
  let name ← nameIn? "' is used but not declared" diagnostic.message
  return {
    title := "Declare variable '" ++ name ++ "'"
    uri := d.uri
    edits := [⟨.onLine diagnostic.range.start.line 0 0, "var " ++ name ++ " = \n"⟩]
    diagnostic }

/-- The keyword a declaration starts with; `var` where none stands. -/
def keywordAt (cs : List Char) : String :=
  match oneOf ["var", "const"] cs with
  | some (keyword, r) => if (blanks1 r).isSome then keyword else "var"
  | none => "var"

/-- Puts an underscore in front of the name and keeps the keyword. -/
def underscore? (d : Document) (diagnostic : Diagnostic) : Option Fix := do
  let name ← nameIn? "' is declared but never used" diagnostic.message
  let start := diagnostic.range.start
  let keyword := keywordAt (d.chars.drop (d.offsetAt start.line start.character))
  return {
    title := "Add underscore to '" ++ name ++ "'"
    uri := d.uri
    edits := [⟨diagnostic.range, keyword ++ " _" ++ name⟩]
    diagnostic }

/-- The fix for one diagnostic, chosen by its code. -/
def offer? (d : Document) (diagnostic : Diagnostic) : Option Fix :=
  if diagnostic.code = some Code.undeclaredVariable then declare? d diagnostic
  else if diagnostic.code = some Code.unusedVariable then underscore? d diagnostic
  else none

end Fix

/-- The fixes for a list of diagnostics, in their order. -/
def Document.fixes (d : Document) (diagnostics : List Diagnostic) : List Fix :=
  diagnostics.filterMap (Fix.offer? d)

end BurnLens
