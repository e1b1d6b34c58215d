import BurnLens.Check.Declared
import BurnLens.Diagnostic

/-! # Undeclared names

A plain use of a name that is neither declared in the text nor known to the language is reported
once, where it first occurs. Uses inside string literals and comments do not count, and neither do
property names: what follows a dot, found by looking back over at most twenty characters. -/

namespace BurnLens

namespace Check

open BurnLens.Text

def keywords : List String :=
  ["var", "const", "fun", "def", "class", "if", "else", "while", "for", "return", "import", "true",
    "false", "nil"]

def languageTypes : List String :=
  ["string", "int", "float", "bool", "nil", "Date", "Time", "any"]

/-- Names known in any letter case, here in lower case. -/
def knownNames : List String :=
  ["print", "tostring", "input", "now", "formatdate", "createdate", "currentyear", "currentmonth",
    "currentday", "power", "iseven", "join", "adddays", "subtractdays", "isleapyear",
    "daysinmonth", "dayofweek", "i", "j", "k", "index", "value", "key", "true", "false"]

/-- A stretch of text, end exclusive. -/
structure Region where
  start : Nat
  stop : Nat
  deriving DecidableEq, Repr

def Region.contains (r : Region) (pos : Nat) : Bool :=
  r.start ≤ pos && pos < r.stop

/-- String literals, then the comments that do not start inside one. -/
def nonCode (cs : List Char) : List Region :=
  let strings := (hits (anywhere Pattern.stringLiteral) cs).map fun h => ⟨h.start, h.stop⟩
  let comments := (hits (anywhere Pattern.lineComment) cs).map fun h => (⟨h.start, h.stop⟩ : Region)
  strings ++ comments.filter fun c => !strings.any (·.contains c.start)

/-- Whether the language or the text knows a name. -/
def isKnown (declared : List (List Char)) (name : List Char) : Bool :=
  keywords.contains (String.ofList name) || declared.contains name ||
  knownNames.contains (lowerAscii (String.ofList name)) ||
  languageTypes.contains (String.ofList name)

/-- Whether the twenty characters before an offset end in a dot, white space aside. -/
def afterDot (cs : List Char) (pos : Nat) : Bool :=
  ((slice cs (pos - 20) pos).reverse.dropWhile isBlank).head? == some '.'

/-- The uses that count, in order. -/
def undeclaredUses (cs : List Char) : List (Hit (List Char)) :=
  let declared := declaredNames cs
  let regions := nonCode cs
  (hits Pattern.plainUse cs).filter fun h =>
    !isKnown declared h.value && !regions.any (·.contains h.start) && !afterDot cs h.start

/-- Keeps the first use of each name. -/
def firstUses (seen : List (List Char)) : List (Hit (List Char)) → List (Hit (List Char))
  | [] => []
  | h :: rest =>
    if seen.contains h.value then firstUses seen rest
    else h :: firstUses (h.value :: seen) rest

def undeclaredName (h : Hit (List Char)) : Finding :=
  ⟨h.start, h.start + h.value.length,
    "Variable '" ++ String.ofList h.value ++ "' is used but not declared", Code.undeclaredVariable⟩

/-- One finding per undeclared name, at its first use. -/
def usageFindings (cs : List Char) : List Finding :=
  (firstUses [] (undeclaredUses cs)).map undeclaredName

end Check

/-- The semantics stage. -/
def Document.checkUsage (d : Document) : List Diagnostic :=
  (Check.usageFindings d.chars).map (Finding.report d .warning .semantics)

end BurnLens
