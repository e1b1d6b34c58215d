import BurnLens.Text.Document
import BurnLens.Text.Quoted

/-! # Diagnostics

What a validation stage reports about a document: how bad it is, where, in which words, and who
says so. An error about an unclosed or an unexpected closing delimiter is critical: it makes every
later analysis of that text unreliable. -/

namespace BurnLens

/-- How bad a finding is. -/
inductive Severity where
  | error
  | warning
  | hint
  deriving DecidableEq, Repr

namespace Severity

def all : List Severity := [.error, .warning, .hint]

/-- The number the editor protocol uses. -/
def code : Severity → Nat
  | .error => 1
  | .warning => 2
  | .hint => 4

def label : Severity → String
  | .error => "error"
  | .warning => "warning"
  | .hint => "hint"

end Severity

/-- The kinds of error that the compiler names in its report. -/
inductive ErrorKind where
  | lexical
  | syntactic
  | typing
  | runtime
  deriving DecidableEq, Repr

namespace ErrorKind

def all : List ErrorKind := [.lexical, .syntactic, .typing, .runtime]

def label : ErrorKind → String
  | .lexical => "lexical"
  | .syntactic => "syntax"
  | .typing => "type"
  | .runtime => "runtime"

end ErrorKind

/-- The stage a diagnostic comes from. A compiler diagnostic carries the kind of error when the
compiler names one. -/
inductive Source where
  | syntactic
  | semantics
  | lint
  | compiler (kind : Option ErrorKind)
  deriving DecidableEq, Repr

namespace Source

def all : List Source :=
  [.syntactic, .semantics, .lint, .compiler none] ++ ErrorKind.all.map fun k => .compiler (some k)

def label : Source → String
  | .syntactic => "syntax"
  | .semantics => "semantics"
  | .lint => "lint"
  | .compiler none => "compiler"
  | .compiler (some kind) => "compiler-" ++ kind.label

/-- The label shown in the editor. -/
def tag (s : Source) : String :=
  "burn-" ++ s.label

/-- The compiler source for a kind of error, in any letter case. -/
def ofErrorKind (kind : String) : Source :=
  .compiler (ErrorKind.all.find? fun k => k.label = Text.lowerAscii kind)

end Source

/-- Why a diagnostic sent by an editor cannot be read. -/
inductive LabelFault where
  | severity (value : String)
  | source (value : String)
  deriving DecidableEq, Repr

def LabelFault.message : LabelFault → String
  | .severity value => Text.quoted value ++ " is not a valid Severity"
  | .source value => Text.quoted value ++ " is not a valid DiagnosticSource"

def Severity.ofLabel (s : String) : Except LabelFault Severity :=
  match Severity.all.find? fun v => v.label = s with
  | some v => .ok v
  | none => .error (.severity s)

def Source.ofLabel (s : String) : Except LabelFault Source :=
  match Source.all.find? fun v => v.label = s with
  | some v => .ok v
  | none => .error (.source s)

/-! ### Codes -/

namespace Code

def unclosedDelimiter : String := "unclosed-delimiter"
def unexpectedClosingDelimiter : String := "unexpected-closing-delimiter"
def unterminatedString : String := "unterminated-string"
def expectedIdentifier : String := "expected-identifier"
def invalidField : String := "invalid-field"
def invalidParameter : String := "invalid-parameter"
def undeclaredVariable : String := "undeclared-variable"
def unusedVariable : String := "unused-variable"
def braceSpacing : String := "brace-spacing"
def compilerError : String := "compiler-error"

/-- The codes of critical failures. -/
def critical : List String := [unclosedDelimiter, unexpectedClosingDelimiter]

end Code

/-- A reported issue in a document. -/
structure Diagnostic where
  severity : Severity
  range : Range
  message : String
  source : Source
  code : Option String := none
  deriving DecidableEq, Repr

namespace Diagnostic

/-- Whether the diagnostic ends the pass it belongs to. -/
def isCritical (d : Diagnostic) : Bool :=
  d.severity = .error && d.code.any Code.critical.contains

/-- Builds a diagnostic from editor labels; the severity is read first. -/
def ofLabels (severity : String) (range : Range) (message source : String)
    (code : Option String) : Except LabelFault Diagnostic := do
  let severity ← Severity.ofLabel severity
  let source ← Source.ofLabel source
  return { severity, range, message, source, code }

end Diagnostic

/-- Whether any diagnostic of a list is critical. -/
def hasCritical (ds : List Diagnostic) : Bool :=
  ds.any Diagnostic.isCritical

/-- A stretch of text with what is wrong about it, before offsets become places. -/
structure Finding where
  start : Nat
  stop : Nat
  message : String
  code : String
  deriving DecidableEq, Repr

/-- The diagnostic of a finding in a document. -/
def Finding.report (d : Document) (severity : Severity) (source : Source) (f : Finding) :
    Diagnostic :=
  { severity, range := d.rangeOf f.start f.stop, message := f.message, source,
    code := some f.code }

end BurnLens
