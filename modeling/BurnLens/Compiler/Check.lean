import BurnLens.Compiler.Snapshot
import BurnLens.Report.Parse

/-! # Checking with the compiler

A check runs the compiler on a snapshot and reads its report. A compiler that is missing, cannot be
started, does not end, is killed or fails without a word gives no diagnostics; only a name that no
file can have and a report with a number that cannot be read are errors. -/

namespace BurnLens

/-- The compiler to run. -/
structure Compiler where
  /-- A path, or a bare name to be searched. -/
  path : String := "burn"
  /-- Extension of the snapshot files. -/
  extension : String := ".bn"
  deriving DecidableEq, Repr

/-- The outcome of compiling a file. -/
structure CompileReport where
  success : Bool
  output : String
  diagnostics : List Diagnostic := []
  deriving DecidableEq, Repr

/-- What is known about the compiler. -/
structure CompilerInfo where
  path : String
  version : String
  resolved : Option String
  deriving DecidableEq, Repr

/-- Why a check or a compiled file gives no report. -/
inductive CompileFault where
  | compiler (fault : CompilerFault)
  | report (fault : ReportFault)
  deriving DecidableEq, Repr

def CompileFault.message : CompileFault → String
  | .compiler fault => fault.message
  | .report fault => fault.message

namespace Compiler

/-- The executable of the compiler. -/
def resolved (c : Compiler) (h : Host) : Option String :=
  h.which c.path

/-- Runs the compiler. -/
def run (c : Compiler) (h : Host) (arguments : List String) :
    Logged (Except CompilerFault RunResult) :=
  match c.resolved h with
  | none => { result := .error (.compilerMissing c.path) }
  | some file => h.run file arguments

/-- The diagnostics of a run over a text. -/
def diagnosticsOf (r : RunResult) (text : String) : Except ReportFault (List Diagnostic) :=
  if r.exitCode = 0 || r.killedBySignal || (Text.trim r.output.toList).isEmpty then .ok []
  else Report.parse r.output text

/-- Runs the compiler on a snapshot of a text. -/
def check (c : Compiler) (h : Host) (text uri : String) :
    Logged (Except CompilerFault RunResult) :=
  match Snapshot.take h text uri c.extension with
  | .error fault => { result := .error fault }
  | .ok snapshot => c.run h ["-c", snapshot.name]

/-- Checks a document. -/
def validate (c : Compiler) (h : Host) (text uri : String) :
    Logged (Except CompileFault (List Diagnostic)) :=
  let check := c.check h text uri
  { result := match check.result with
      | .error .embeddedNull => .error (.compiler .embeddedNull)
      | .error _ => .ok []
      | .ok r => (diagnosticsOf r text).mapError .report
    runs := check.runs }

/-- Whether a check is still running whenever it is given up. -/
def neverEnds (c : Compiler) (h : Host) (text uri : String) : Bool :=
  match (c.check h text uri).result with
  | .error .timeout => true
  | _ => false

/-- Compiles a file with verbose diagnostics. -/
def compileFile (c : Compiler) (h : Host) (path : Path) :
    Logged (Except CompileFault CompileReport) :=
  let run := c.run h ["-d", path.toString]
  match run.result with
  | .error fault => { result := .error (.compiler fault), runs := run.runs }
  | .ok r =>
    if r.exitCode = 0 then { result := .ok ⟨true, r.output, []⟩, runs := run.runs }
    else
      let text := match h.fs.readText path with
        | .ok (some text) => text
        | _ => ""
      { result := match Report.parse r.output text with
          | .error fault => .error (.report fault)
          | .ok ds => .ok ⟨false, r.output, ds⟩
        runs := run.runs }

/-- A version `v1.2.3`, without its letter. -/
def versionNumber (cs : List Char) : Option (List Char × List Char) := do
  let r ← Text.literal ['v'] cs
  let (major, r) ← Text.run1 Text.isDigit r
  let (minor, r) ← Text.run1 Text.isDigit (← Text.literal ['.'] r)
  let (patch, r) ← Text.run1 Text.isDigit (← Text.literal ['.'] r)
  return (major ++ '.' :: minor ++ '.' :: patch, r)

/-- The version that the compiler tells about itself. -/
def version (c : Compiler) (h : Host) : Logged String :=
  let run := c.run h ["-v"]
  let found : Option String := match run.result with
    | .error _ => none
    | .ok r => (Text.firstHit? (Text.anywhere versionNumber) r.output.toList).map fun v =>
        String.ofList v.value
  { result := found.getD "unknown", runs := run.runs }

/-- What is known about the compiler; a missing one is not asked. -/
def info (c : Compiler) (h : Host) : Logged CompilerInfo :=
  match c.resolved h with
  | none => { result := ⟨c.path, "unknown", none⟩ }
  | some file =>
    let version := c.version h
    { result := ⟨c.path, version.result, some file⟩, runs := version.runs }

end Compiler

end BurnLens
