import BurnLens.File.System
import BurnLens.Text.Quoted

/-! # Running programs

What the host offers to a compiler check: its files, the folders searched for bare command names,
and a place for temporary files. A run that ends is logged by its arguments. -/

namespace BurnLens

structure Host where
  fs : FileSystem
  searchFolders : List String
  /-- Whether temporary files can be made. -/
  hasTemporary : Bool := true
  /-- What the host puts into a temporary name to make it new. -/
  salt : String
  deriving DecidableEq, Repr

/-- Why a compiler run gives no result. -/
inductive CompilerFault where
  /-- No executable for the configured compiler. -/
  | compilerMissing (path : String)
  /-- The command cannot be found or is not executable. -/
  | commandMissing (command : String)
  /-- The file is executable, but nothing that can be run. -/
  | badFormat (command : String)
  | nameTooLong (command : String)
  /-- A name or an argument holds the character that ends texts for the host. -/
  | embeddedNull
  | timeout
  | snapshot
  deriving DecidableEq, Repr

def CompilerFault.message : CompilerFault → String
  | .compilerMissing path => "Compiler not found: " ++ path
  | .commandMissing command => "Command not found: " ++ command
  | .badFormat command =>
    "Cannot execute " ++ command ++ ": [Errno 8] Exec format error: " ++ Text.quoted command
  | .nameTooLong command =>
    "Cannot execute " ++ command ++ ": " ++ (FileFault.nameTooLong command).message
  | .embeddedNull => FileFault.embeddedNull.message
  | .timeout => "timed out"
  | .snapshot => "cannot create snapshot"

/-- What a program that ended has written and how it ended. A negative code tells the signal that
killed it. -/
structure RunResult where
  exitCode : Int
  stdout : String
  stderr : String
  deriving DecidableEq, Repr

namespace RunResult

/-- Both outputs, the errors first, an empty one left out. -/
def output (r : RunResult) : String :=
  "\n".intercalate ([r.stderr, r.stdout].filter (· ≠ ""))

def killedBySignal (r : RunResult) : Bool :=
  r.exitCode < 0

end RunResult

/-- The result of running programs, with the arguments of every run that ended. -/
structure Logged (α : Type) where
  result : α
  runs : List (List String) := []

namespace Host

/-- Whether a command is a path and not a bare name. -/
def isPathCommand (command : String) : Bool :=
  command.toList.contains '/'

/-- The files that a command may mean. -/
def commandFiles (h : Host) (command : String) : List String :=
  if isPathCommand command then [command] else h.searchFolders.map (· ++ "/" ++ command)

def isExecutable (h : Host) (file : String) : Bool :=
  match h.fs.locate file with
  | .ok (_, .program _) => true
  | .ok (_, .broken) => true
  | _ => false

/-- The executable file of a command. -/
def which (h : Host) (command : String) : Option String :=
  (h.commandFiles command).find? h.isExecutable

/-- What is run for a command. -/
def executable (h : Host) (command : String) : Except CompilerFault Program :=
  let found := (h.commandFiles command).findSome? fun file =>
    match h.fs.locate file with
    | .ok (_, .program p) => some (.ok p)
    | .ok (_, .broken) => some (.error (.badFormat command))
    | .error .nameTooLong => some (.error (.nameTooLong command))
    | _ => none
  found.getD (.error (.commandMissing command))

def decodeOutput (octets : List UInt8) : String :=
  String.ofList (Text.Utf8.decodeLossy octets)

/-- Whether a text holds the character that ends texts for the host. -/
def hasNull (text : String) : Bool :=
  text.toList.contains (Char.ofNat 0)

/-- Runs a command to its end. A program that hangs is stopped at the time limit. -/
def run (h : Host) (command : String) (arguments : List String) :
    Logged (Except CompilerFault RunResult) :=
  if (command :: arguments).any hasNull then { result := .error .embeddedNull }
  else match h.executable command with
  | .error fault => { result := .error fault }
  | .ok p =>
    let ended (code : Int) : Logged (Except CompilerFault RunResult) :=
      { result := .ok ⟨code, decodeOutput p.stdout, decodeOutput p.stderr⟩, runs := [arguments] }
    match p.outcome with
    | .hangs => { result := .error .timeout }
    | .exit code => ended code
    | .killed signal => ended (-signal)

end Host

end BurnLens
