import BurnLens.Text.Scan

/-! # Patterns of burn declarations

Recognisers for the headers and statements that can be told from the text alone. White space
between the parts is free, line ends included. None of them knows about scopes, strings or
comments. -/

namespace BurnLens.Pattern

open BurnLens.Text

def isQuote (c : Char) : Bool :=
  c == '"' || c == '\''

theorem isQuote_iff {c : Char} : isQuote c = true ↔ c = '"' ∨ c = '\'' := by
  simp [isQuote]

/-! ### Imports -/

/-- A path between quotes of either kind, mixed or not, and the offset of its first character. -/
def quotedPath (cs : List Char) : Option (List Char × List Char) := do
  let (_, r) ← charOf isQuote cs
  let (path, r) ← run1 (fun c => !isQuote c) r
  let (_, r) ← charOf isQuote r
  return (path, r)

/-- A text read as part of a pattern, and how far from the start of the match it begins. -/
structure Part where
  text : List Char
  offset : Nat
  deriving DecidableEq, Repr

/-- `import "path"` -/
def singleImport (cs : List Char) : Option (Part × List Char) := do
  let r ← literal "import".toList cs
  let r ← blanks1 r
  let (path, rest) ← quotedPath r
  return (⟨path, cs.length - r.length + 1⟩, rest)

/-- `import ( ... )` -/
def groupImport (cs : List Char) : Option (Part × List Char) := do
  let r ← literal "import".toList cs
  let r ← literal ['('] (blanks r)
  let (body, rest) := run (· != ')') r
  let rest ← literal [')'] rest
  return (⟨body, cs.length - r.length⟩, rest)

/-! ### Types, functions and classes -/

/-- A name with a bracketed body. -/
structure Body where
  name : List Char
  body : Part
  deriving DecidableEq, Repr

/-- `def Name { ... }` -/
def typeDeclaration (cs : List Char) : Option (Body × List Char) := do
  let r ← literal "def".toList cs
  let r ← blanks1 r
  let (name, r) ← identifier r
  let r ← literal ['{'] (blanks r)
  let (body, rest) := run (· != '}') r
  let rest ← literal ['}'] rest
  return (⟨name, ⟨body, cs.length - r.length⟩⟩, rest)

/-- A function header up to its opening brace. -/
structure Header where
  name : List Char
  parameters : Part
  returnType : List Char
  deriving DecidableEq, Repr

/-- `fun name ( ... ) : Type {`, the type being optional. -/
def functionHeader (cs : List Char) : Option (Header × List Char) := do
  let r ← literal "fun".toList cs
  let r ← blanks1 r
  let (name, r) ← identifier r
  let r ← literal ['('] (blanks r)
  let (parameters, rest) := run (· != ')') r
  let rest ← literal [')'] rest
  let part : Part := ⟨parameters, cs.length - r.length⟩
  let (returnType, rest) := (typed rest).getD ([], rest)
  let rest ← literal ['{'] (blanks rest)
  return (⟨name, part, returnType⟩, rest)

/-- `keyword Name {` -/
def blockHead (keyword : String) (cs : List Char) : Option (List Char × List Char) := do
  let r ← literal keyword.toList cs
  let r ← blanks1 r
  let (name, r) ← identifier r
  let rest ← literal ['{'] (blanks r)
  return (name, rest)

/-- `fun name ( ... )` with the text between the parentheses. -/
def parameterList (cs : List Char) : Option (List Char × List Char) := do
  let r ← literal "fun".toList cs
  let r ← blanks1 r
  let (_, r) ← identifier r
  let r ← literal ['('] (blanks r)
  let (parameters, rest) := run (· != ')') r
  let rest ← literal [')'] rest
  return (parameters, rest)

/-! ### Variables -/

/-- `var name` or `const name`. -/
structure Declarator where
  isConst : Bool
  name : List Char
  /-- Length of the declarator, from the keyword through the name. -/
  length : Nat
  deriving DecidableEq, Repr

def declarator (cs : List Char) : Option (Declarator × List Char) := do
  let (keyword, r) ← oneOf ["var", "const"] cs
  let r ← blanks1 r
  let (name, r) ← identifier r
  return (⟨keyword == "const", name, cs.length - r.length⟩, r)

/-- Whether a declarator may end here: an equals sign follows, or the line ends first. -/
def declaratorEnds (cs : List Char) : Bool :=
  match cs.dropWhile isBlank with
  | [] => true
  | c :: _ => c == '=' || (cs.takeWhile isBlank).contains '\n'

/-- A declarator with its optional type. The type belongs to it only when the declarator may end
behind the type. -/
def declaredVariable (cs : List Char) : Option (Declarator × List Char) := do
  let (d, r) ← declarator cs
  match typed r with
  | some (_, r') =>
    if declaratorEnds r' then return (d, r')
    else if declaratorEnds r then return (d, r) else none
  | none => if declaratorEnds r then return (d, r) else none

/-- `for ( var name` -/
def loopVariable (cs : List Char) : Option (List Char × List Char) := do
  let r ← literal "for".toList cs
  let r ← literal ['('] (blanks r)
  let r ← literal "var".toList (blanks r)
  let r ← blanks1 r
  identifier r

/-- A variable with its initialiser. -/
structure Initialised where
  isConst : Bool
  name : List Char
  declaredType : List Char
  value : List Char
  /-- Length from the keyword through the last character of the value. -/
  length : Nat
  deriving DecidableEq, Repr

def endsValue (c : Char) : Bool :=
  c == ';' || c == '\n' || c == ','

/-- The value behind an equals sign and the rest of the text from the value on. The value starts at
the first character that is not white space and is at least one character long; it ends before the
next semicolon, comma or newline. When only white space is left, its last character that is no
newline is the value. -/
def initialiser (cs : List Char) : Option (List Char × List Char) :=
  match blanks cs with
  | c :: r => some (c :: r.takeWhile (fun c => !endsValue c), c :: r)
  | [] =>
    match (cs.reverse.dropWhile (· == '\n')).head? with
    | none => none
    | some c => some ([c], c :: (cs.reverse.takeWhile (· == '\n')).reverse)

/-- `var name : Type = value`, the type being optional. -/
def initialisedVariable (cs : List Char) : Option (Initialised × List Char) := do
  let (d, r) ← declarator cs
  let (declaredType, r) := (typed r).getD ([], r)
  let r ← literal ['='] (blanks r)
  let (value, r) ← initialiser r
  let rest := r.drop value.length
  let consumed := match rest with
    | c :: rest => if endsValue c then rest else c :: rest
    | [] => []
  return (⟨d.isConst, d.name, declaredType, value, cs.length - rest.length⟩, consumed)

/-! ### Uses -/

/-- A call `name (`. -/
def call (cs : List Char) : Option (List Char × List Char) := do
  let (name, r) ← identifier cs
  let rest ← literal ['('] (blanks r)
  return (name, rest)

/-- Characters that make the identifier in front of them something other than a plain use. -/
def marksOther (c : Char) : Bool :=
  ['=', '(', '{', '[', ':'].contains c

/-- A whole identifier that is neither assigned, called, opened, indexed nor given a type. -/
def plainUse : Recogniser (List Char) := fun before cs => do
  if isWordAt before then none
  let (name, r) ← identifier cs
  if isWordAt r.head? then none
  if (blanks r).head?.any marksOther then none
  return (name, r)

/-- The whole word `w`. -/
def wholeWord (w : List Char) : Recogniser Unit := fun before cs => do
  if isWordAt before then none
  let r ← literal w cs
  if isWordAt r.head? then none
  return ((), r)

/-- A control keyword through the next opening brace. -/
def controlBrace : Recogniser Unit := fun before cs => do
  if isWordAt before then none
  let (_, r) ← oneOf ["fun", "if", "while", "for", "else"] cs
  if isWordAt r.head? then none
  let (_, r) := run (· != '{') r
  let rest ← literal ['{'] r
  return ((), rest)

/-! ### String literals and comments -/

/-- The rest behind a string literal whose opening quote has been read. -/
def closeQuote (quote : Char) : List Char → Option (List Char)
  | [] => none
  | '\\' :: c :: cs => if c == '\n' then none else closeQuote quote cs
  | c :: cs =>
    if c == quote then some cs
    else if c == '\\' || c == '\n' then none
    else closeQuote quote cs

/-- A string literal that is closed on its line. -/
def stringLiteral (cs : List Char) : Option (Unit × List Char) := do
  let (quote, r) ← charOf isQuote cs
  let rest ← closeQuote quote r
  return ((), rest)

/-- A comment up to the end of its line. -/
def lineComment (cs : List Char) : Option (Unit × List Char) := do
  let r ← literal ['/', '/'] cs
  return ((), r.dropWhile (· != '\n'))

end BurnLens.Pattern
