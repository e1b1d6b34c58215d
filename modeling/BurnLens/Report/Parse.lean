import BurnLens.Report.Notice
import BurnLens.Report.Widen
import BurnLens.Text.Cut

/-! # Reports

A report is read line by line against the snapshot that the compiler checked. Lines about the end of
the input carry no news. When no line of a report is understood, all of it becomes one error at the
start of the document. -/

namespace BurnLens

/-- Why a report cannot be read. -/
inductive ReportFault where
  /-- A number is written with more digits than are read. -/
  | numberTooLong (digits : Nat)
  /-- A column lies beyond what a search in a line can start from. -/
  | columnTooLarge
  deriving DecidableEq, Repr

namespace ReportFault

/-- The most digits a number may have. -/
def digitLimit : Nat := 4300

/-- Columns from here on cannot be searched from. -/
def columnLimit : Nat := Nat.pow 2 63

def message : ReportFault → String
  | .numberTooLong digits =>
    "Exceeds the limit (4300 digits) for integer string conversion: value has " ++
      toString digits ++ " digits; use sys.set_int_max_str_digits() to increase the limit"
  | .columnTooLarge => "Python int too large to convert to C ssize_t"

end ReportFault

namespace Report

open BurnLens.Text

/-- The lines of the text that was checked. -/
abbrev SourceLines := List (List Char)

/-- A line or column of a report, counted from zero. -/
def place (digits : List Char) : Except ReportFault Nat :=
  if digits.length ≤ ReportFault.digitLimit then .ok (numberOf digits - 1)
  else .error (.numberTooLong digits.length)

/-- A compiler diagnostic on one line; it covers at least one column. -/
def onLine (line : Nat) (start stop : Int) (message : List Char)
    (source : Source := .compiler none) (severity : Severity := .error) : Diagnostic where
  severity := severity
  range := .onLine line start (max stop (start + 1))
  message := String.ofList message
  source := source
  code := some Code.compilerError

/-- A diagnostic for a whole line. -/
def wholeLine (lines : SourceLines) (line : Nat) (message : List Char) : Diagnostic :=
  onLine line 0 (lines[line]?.getD []).length message

/-- A diagnostic for what stands at a column. -/
def widened (lines : SourceLines) (line column : Nat) (message : List Char) (source : Source) :
    Diagnostic :=
  match lines[line]? with
  | none => onLine line column (column + 1) message source
  | some text => onLine line (widen text column).1 (widen text column).2 message source

/-- `kind error: message` -/
def kindText (kind : ErrorKind) (message : List Char) : List Char :=
  kind.label.toList ++ " error: ".toList ++ message

def referred (line : Nat) (message : List Char) : List Char :=
  message ++ " (referenced from line ".toList ++ (toString (line + 1)).toList ++ [')']

/-- A declaration keyword that ends a line, white space aside. -/
def danglingKeyword : Recogniser String := fun before cs => do
  if isWordAt before then none
  let (keyword, r) ← oneOf ["var", "const"] cs
  if !(blanks r).isEmpty then none
  return (keyword, [])

/-- The longest run of expression characters from a column on. -/
def isExpressionChar (c : Char) : Bool :=
  isIdentChar c || ".()[]".toList.contains c || c == '{' || c == '}'

/-- Messages about the end of the input are no news. -/
def isSuppressed (message : List Char) : Bool :=
  occursIn "error reading input".toList message || occursIn "EOF".toList message

/-- The widest span of a message with a level. -/
def maxSpan : Int := 10

def expectedDiagnostic (lines : SourceLines) (name : Bool) (line : Nat) : Diagnostic :=
  let text := lines[line]?.getD []
  let keyword := firstHit? danglingKeyword text
  let message := if name then
      "Expected variable name after '".toList ++ ((keyword.map (·.value)).getD "var").toList ++
        ['\'']
    else "Expected expression".toList
  match keyword with
  | some h => onLine line h.start text.length message
  | none =>
    let length := (trimRight text).length
    if length = 0 then onLine line 0 1 message
    else onLine line (length - 1 : Nat) length message

def mismatchEnd (lines : SourceLines) (line column : Nat) : Except ReportFault Nat :=
  match lines[line]? with
  | none => .ok (column + 1)
  | some text =>
    if column < ReportFault.columnLimit then
      .ok (max (column + 1) (column + runFrom isExpressionChar text column))
    else .error .columnTooLarge

def placedDiagnostic (lines : SourceLines) (level : Level) (message : List Char)
    (line column : Nat) : Diagnostic :=
  let span : Int := match lines[line]? with
    | none => 1
    | some text => min maxSpan (text.length - column)
  onLine line column (column + span) message (.compiler none)
    (match level with | .error => .error | .warning => .warning)

end Report

/-- The diagnostics that a notice gives, in order. -/
def Notice.diagnostics (lines : Report.SourceLines) : Notice → Except ReportFault (List Diagnostic)
  | .expected name line => do
    return [Report.expectedDiagnostic lines name (← Report.place line)]
  | .coupled kind line column message other => do
    let first ← Report.place line
    let text := Report.kindText kind message
    let main := Report.widened lines first (← Report.place column) text (.compiler none)
    return [main, Report.wholeLine lines (← Report.place other) (Report.referred first text)]
  | .coupledLines kind line message other => do
    let first ← Report.place line
    let message := Text.trim message
    let text := Report.kindText kind
      (if message.isEmpty then "expected expression".toList else message)
    return [Report.wholeLine lines first text,
      Report.wholeLine lines (← Report.place other) (Report.referred first text)]
  | .uninitialised line column name => do
    let line ← Report.place line
    let column ← Report.place column
    return [Report.onLine line column (column + name.length)
      ("Variable '".toList ++ name ++ "' must have a type or initializer".toList)
      (.compiler (some .typing))]
  | .kinded kind line column message => do
    if Report.isSuppressed message then return []
    let line ← Report.place line
    return [Report.widened lines line (← Report.place column) (Report.kindText kind message)
      (.compiler (some kind))]
  | .unexpectedToken token line column => do
    let start ← Report.place column
    return [Report.onLine (← Report.place line) start (start + token.length)
      ("Unexpected token '".toList ++ token ++ ['\'']) (.compiler (some .syntactic))]
  | .undefinedVariable name line column => do
    let start ← Report.place column
    return [Report.onLine (← Report.place line) start (start + name.length)
      ("Undefined variable '".toList ++ name ++ ['\''])]
  | .typeMismatch wanted got line column => do
    let line ← Report.place line
    let start ← Report.place column
    return [Report.onLine line start (← Report.mismatchEnd lines line start)
      ("Type mismatch: expected '".toList ++ wanted ++ "', got '".toList ++ got ++ ['\''])
      (.compiler (some .typing))]
  | .placed level message line column => do
    if Report.isSuppressed message then return []
    let line ← Report.place line
    let column ← match column with
      | none => pure 0
      | some digits => Report.place digits
    return [Report.placedDiagnostic lines level message line column]

namespace Report

open BurnLens.Text

/-- The notice that the input has ended. -/
def endOfInput : List Char := "error reading input: EOF".toList

/-- The lines of a report that may carry news, trimmed. -/
def newsLines (output : List Char) : List (List Char) :=
  ((reportLines output).map trim).filter fun l => !l.isEmpty && !occursIn endOfInput l

/-- What is said by the lines that some grammar reads. -/
def understood (lines : SourceLines) (news : List (List Char)) :
    Except ReportFault (List Diagnostic) := do
  return ((← (news.filterMap Notice.read?).mapM (Notice.diagnostics lines))).flatten

/-- The diagnostics of a report about `text`. -/
def parse (output text : String) : Except ReportFault (List Diagnostic) :=
  let lines := splitOn '\n' text.toList
  let news := newsLines output.toList
  if news.any fun l => (Notice.read? l).isSome then understood lines news
  else if news.isEmpty then .ok []
  else .ok [onLine 0 0 1 (joinWith '\n' news)]

end Report

end BurnLens
