import BurnLens.Cache
import BurnLens.Check.Delimiters
import BurnLens.Check.Lint
import BurnLens.Check.Usage
import BurnLens.Compiler.Check
import BurnLens.Index.Load

/-! # The validation pipeline

A pass over a document runs its stages in a fixed order: structure, usage, style, compiler. A
critical failure ends the pass after the first stage. The compiler stage takes time, so a pass may
wait there while others run; what the pass found so far is kept in a `Pass`. The merged findings of
a pass are cached for the version it was about. -/

namespace BurnLens

/-- The stages in the order in which they run. -/
inductive Stage where
  | structural
  | usage
  | style
  | compiler
  deriving DecidableEq, Repr

def Stage.label : Stage → String
  | .structural => "syntax"
  | .usage => "semantics"
  | .style => "lint"
  | .compiler => "compiler"

/-- What the stages of one pass found. -/
structure PassResult where
  version : Int
  /-- Whether the pass ended after its first stage. -/
  critical : Bool
  /-- The stages that were run, in order. -/
  stages : List (Stage × List Diagnostic)
  deriving DecidableEq, Repr

namespace PassResult

/-- The findings of all stages, in the order of the stages. -/
def diagnostics (r : PassResult) : List Diagnostic :=
  r.stages.flatMap (·.2)

/-- Adds the findings of the compiler. -/
def withCompiler (r : PassResult) (ds : List Diagnostic) : PassResult :=
  { r with stages := r.stages ++ [(.compiler, ds)] }

end PassResult

/-- The stages that need nothing but the document and what indexing it reported. -/
def Document.localStages (d : Document) (indexed : List Diagnostic) : PassResult :=
  let found := indexed ++ d.checkStructure
  if hasCritical found then ⟨d.version, true, [(.structural, found)]⟩
  else ⟨d.version, false, [(.structural, found), (.usage, d.checkUsage), (.style, d.lint)]⟩

/-! ### Checkers -/

/-- Answers that stand in for a compiler. -/
structure StandIn where
  usual : List Diagnostic := []
  /-- The documents with answers of their own. -/
  special : OrderedMap (List Diagnostic) := {}
  /-- Answers worked out from a text and its URI; where there is one, it goes before the others. -/
  computed : String → String → Option (List Diagnostic) := fun _ _ => none
  /-- How often an answer was asked for. -/
  calls : Nat := 0

namespace StandIn

def answer (s : StandIn) (text uri : String) : List Diagnostic :=
  (s.computed text uri).getD ((s.special.get? uri).getD s.usual)

/-- Prepares the answer for one document. -/
def prepare (s : StandIn) (uri : String) (ds : List Diagnostic) : StandIn :=
  { s with special := s.special.put uri ds }

end StandIn

/-- Who does the last stage. -/
inductive Checker where
  | standIn
  | compiler (c : Compiler)
  deriving DecidableEq, Repr

/-- Why a pass ends without a result. -/
inductive PassFault where
  | index (fault : IndexFault)
  | check (fault : CompileFault)
  | cache (fault : CacheFault)
  deriving DecidableEq, Repr

def PassFault.message : PassFault → String
  | .index fault => fault.message
  | .check fault => fault.message
  | .cache fault => fault.message

structure Pipeline where
  index : Index
  cache : Cache
  /-- Without a checker there is no compiler stage. -/
  checker : Option Checker := none
  standIn : StandIn := {}
  /-- The arguments of every compiler run that ended. -/
  runs : List (List String) := []

/-- A pass that waits for its checker. -/
structure Pass where
  document : Document
  found : PassResult
  /-- The checker that was in charge when the pass came to its last stage. -/
  checker : Checker
  deriving DecidableEq, Repr

/-- How far a pass has come. -/
inductive Progress where
  | settled (diagnostics : List Diagnostic)
  | waiting (pass : Pass)
  deriving DecidableEq, Repr

namespace Pipeline

/-- Indexes a document and runs the stages before the compiler. -/
def localPass (p : Pipeline) (h : Host) (d : Document) : Pipeline × Except PassFault PassResult :=
  match p.index.indexDocument h.fs d.uri d.text with
  | (index, .error fault) => ({ p with index }, .error (.index fault))
  | (index, .ok extraction) => ({ p with index }, .ok (d.localStages extraction.diagnostics))

/-- The checker that a pass still has to ask. -/
def pending (p : Pipeline) (r : PassResult) : Option Checker :=
  if r.critical then none else p.checker

/-- Asks a checker about a document. The stand-in gives the answer prepared by then. -/
def consult (p : Pipeline) (h : Host) (checker : Checker) (d : Document) :
    Pipeline × Except PassFault (List Diagnostic) :=
  match checker with
  | .standIn =>
    ({ p with standIn := { p.standIn with calls := p.standIn.calls + 1 } },
      .ok (p.standIn.answer d.text d.uri))
  | .compiler c =>
    let check := c.validate h d.text d.uri
    ({ p with runs := p.runs ++ check.runs }, check.result.mapError .check)

/-- Runs every stage without looking at the cache. -/
def run (p : Pipeline) (h : Host) (d : Document) : Pipeline × Except PassFault PassResult :=
  match p.localPass h d with
  | (p, .error fault) => (p, .error fault)
  | (p, .ok r) =>
    match p.pending r with
    | none => (p, .ok r)
    | some checker =>
      match p.consult h checker d with
      | (p, .error fault) => (p, .error fault)
      | (p, .ok ds) => (p, .ok (r.withCompiler ds))

/-- Caches the findings of a pass. -/
def keep (p : Pipeline) (d : Document) (r : PassResult) :
    Pipeline × Except PassFault (List Diagnostic) :=
  let (cache, written) := p.cache.tryPut d.uri d.version r.diagnostics
  ({ p with cache }, (written.mapError .cache).map fun _ => r.diagnostics)

/-- Starts a pass. It settles at once when the version is cached, when the document has a critical
failure or when there is no checker. -/
def start (p : Pipeline) (h : Host) (d : Document) : Pipeline × Except PassFault Progress :=
  match p.cache.get d.uri d.version with
  | (cache, some ds) => ({ p with cache }, .ok (.settled ds))
  | (cache, none) =>
    match { p with cache }.localPass h d with
    | (p, .error fault) => (p, .error fault)
    | (p, .ok r) =>
      match p.pending r with
      | some checker => (p, .ok (.waiting ⟨d, r, checker⟩))
      | none =>
        let (p, kept) := p.keep d r
        (p, kept.map .settled)

/-- Ends a pass that waits. -/
def finish (p : Pipeline) (h : Host) (pass : Pass) :
    Pipeline × Except PassFault (List Diagnostic) :=
  match p.consult h pass.checker pass.document with
  | (p, .error fault) => (p, .error fault)
  | (p, .ok ds) => p.keep pass.document (pass.found.withCompiler ds)

/-- The diagnostics of a document, from the cache where possible. -/
def validate (p : Pipeline) (h : Host) (d : Document) :
    Pipeline × Except PassFault (List Diagnostic) :=
  match p.start h d with
  | (p, .error fault) => (p, .error fault)
  | (p, .ok (.settled ds)) => (p, .ok ds)
  | (p, .ok (.waiting pass)) => p.finish h pass

end Pipeline

end BurnLens
