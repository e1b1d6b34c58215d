import BurnLens.Diagnostic
import BurnLens.Text.Scan

/-! # Notices of the compiler

Every line of a report is read by the first grammar that fits, the most specific first. Numbers stay
as written here: lines and columns count from one. -/

namespace BurnLens

/-- The parts of a report that carry a level. -/
inductive Level where
  | error
  | warning
  deriving DecidableEq, Repr

/-- What one line of a report says. -/
inductive Notice where
  /-- A name or an expression is missing on a line. -/
  | expected (name : Bool) (line : List Char)
  /-- An error with a column that refers to a second line. -/
  | coupled (kind : ErrorKind) (line column message other : List Char)
  /-- An error without a column that refers to a second line. -/
  | coupledLines (kind : ErrorKind) (line message other : List Char)
  /-- A variable without type and initialiser. -/
  | uninitialised (line column name : List Char)
  /-- An error of a kind. -/
  | kinded (kind : ErrorKind) (line column message : List Char)
  | unexpectedToken (token line column : List Char)
  | undefinedVariable (name line column : List Char)
  | typeMismatch (wanted got line column : List Char)
  /-- A message with a level and a place. -/
  | placed (level : Level) (message line : List Char) (column : Option (List Char))
  deriving DecidableEq, Repr

namespace Notice

open BurnLens.Text

/-- Reads a word and the number behind it. -/
def number (word : String) (cs : List Char) : Option (List Char × List Char) := do
  run1 isDigit (← literal word.toList cs)

/-- ` at line N` -/
def atLine (cs : List Char) : Option (List Char × List Char) :=
  number " at line " cs

/-- ` at line N, column N` -/
def atPlace (cs : List Char) : Option ((List Char × List Char) × List Char) := do
  let (line, r) ← atLine cs
  let (column, r) ← number ", column " r
  return ((line, column), r)

/-- One of the given kinds. -/
def kindOf (kinds : List ErrorKind) (cs : List Char) : Option (ErrorKind × List Char) :=
  kinds.findSome? fun k => (literal k.label.toList cs).map fun r => (k, r)

/-- `kind error at line N` -/
def kindAtLine (kinds : List ErrorKind) (cs : List Char) :
    Option ((ErrorKind × List Char) × List Char) := do
  let (kind, r) ← kindOf kinds cs
  let r ← literal " error".toList r
  let (line, r) ← atLine r
  return ((kind, line), r)

/-- `kind error at line N, column N: ` -/
def kindAtPlace (kinds : List ErrorKind) (cs : List Char) :
    Option ((ErrorKind × List Char × List Char) × List Char) := do
  let ((kind, line), r) ← kindAtLine kinds cs
  let (column, r) ← number ", column " r
  let r ← literal ": ".toList r
  return ((kind, line, column), r)

/-- The kinds of errors that come in pairs of lines. -/
def coupledKinds : List ErrorKind := [.syntactic, .typing, .lexical]

/-- Text between single quotes. -/
def inQuotes (cs : List Char) : Option (List Char × List Char) := do
  let r ← literal ['\''] cs
  let (text, r) := run (· != '\'') r
  let r ← literal ['\''] r
  return (text, r)

/-! ### The grammars -/

def expectedName (cs : List Char) : Option (Notice × List Char) := do
  let r ← literal "expected ".toList cs
  let (what, r) ← oneOf ["variable name", "expression"] r
  let (line, r) ← atLine r
  return (.expected (what == "variable name") line, r)

/-- The message runs to the last ` at line N`. -/
def coupledPlace (cs : List Char) : Option (Notice × List Char) := do
  let ((kind, line, column), r) ← kindAtPlace coupledKinds cs
  let last ← (hits (anywhere atLine) r).getLast?
  if last.start == 0 then none
  return (.coupled kind line column (r.take last.start) last.value, r.drop last.stop)

/-- The message runs to the first ` at line N`. -/
def coupledLine (cs : List Char) : Option (Notice × List Char) := do
  let ((kind, line), r) ← kindAtLine coupledKinds cs
  let (_, r) ← charOf (fun c => c == ':' || c == ',') r
  let first ← firstHit? (anywhere atLine) r
  return (.coupledLines kind line (r.take first.start) first.value, r.drop first.stop)

def missingInitialiser (cs : List Char) : Option (Notice × List Char) := do
  let ((_, line, column), r) ← kindAtPlace [.typing, .syntactic] cs
  let r ← literal "variable ".toList r
  let (name, r) ← run1 isWordChar r
  let r ← literal " must have a type or initializer".toList r
  return (.uninitialised line column name, r)

def kindMessage (cs : List Char) : Option (Notice × List Char) := do
  let ((kind, line, column), r) ← kindAtPlace [.lexical, .syntactic, .typing, .runtime] cs
  if r.isEmpty then none
  return (.kinded kind line column r, [])

def token (cs : List Char) : Option (Notice × List Char) := do
  let (token, r) ← inQuotes (← literal "unexpected token ".toList cs)
  let ((line, column), r) ← atPlace r
  return (.unexpectedToken token line column, r)

def undefinedName (cs : List Char) : Option (Notice × List Char) := do
  let (name, r) ← inQuotes (← literal "undefined variable ".toList cs)
  if name.isEmpty then none
  let ((line, column), r) ← atPlace r
  return (.undefinedVariable name line column, r)

def mismatch (cs : List Char) : Option (Notice × List Char) := do
  let (wanted, r) ← inQuotes (← literal "type mismatch: expected ".toList cs)
  let (got, r) ← inQuotes (← literal ", got ".toList r)
  let ((line, column), r) ← atPlace r
  return (.typeMismatch wanted got line column, r)

/-- `error:` or `warning:` -/
def levelMark (cs : List Char) : Option (Level × List Char) := do
  let (word, r) ← oneOf ["error", "warning"] cs
  let r ← literal [':'] r
  return (if word == "warning" then .warning else .error, r)

/-- `:N:N: level: message`, what follows a file name. -/
def behindFile (cs : List Char) : Option (Notice × List Char) := do
  let (line, r) ← number ":" cs
  let (column, r) ← number ":" r
  let r ← literal [':'] r
  let (level, r) ← levelMark (blanks r)
  if (blanks r).isEmpty then none
  return (.placed level (blanks r) line (some column), [])

/-- `level: message at line N`, with an optional column. The message runs to the last ` at line N`
and holds at least one character; white space in front of it is skipped as far as that allows. -/
def trailingPlace (cs : List Char) : Option (Notice × List Char) := do
  let (level, r) ← levelMark cs
  let last ← (hits (anywhere atLine) r).getLast?
  let skipped := min (r.takeWhile isBlank).length (last.start - 1)
  if skipped == 0 then none
  let column := (number ", column " (r.drop last.stop)).map (·.1)
  return (.placed level (slice r skipped last.start) last.value column, r.drop last.stop)

/-- The grammars that may match anywhere in a line and come before the file grammar. -/
def leading : List (List Char → Option (Notice × List Char)) :=
  [expectedName, coupledPlace, coupledLine, missingInitialiser, kindMessage, token, undefinedName,
    mismatch]

/-- The leftmost match of one grammar. -/
def find? (grammar : List Char → Option (Notice × List Char)) (line : List Char) :
    Option Notice :=
  (firstHit? (anywhere grammar) line).map (·.value)

/-- Reads a line by the first grammar that fits. A file name has at least one character. -/
def read? (line : List Char) : Option Notice :=
  (leading.findSome? fun grammar => find? grammar line)
    |>.or (find? behindFile (line.drop 1))
    |>.or (find? trailingPlace line)

end Notice

end BurnLens
