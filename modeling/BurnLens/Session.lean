import BurnLens.File.Discovery
import BurnLens.Fix
import BurnLens.Pipeline
import BurnLens.Settings.Load

/-! # Editing sessions

A session belongs to one workspace from its opening to its closing. It holds the documents that are
open in the editor, validates them when they are opened or changed, and publishes what was found. A
pass may be overtaken while it waits for the compiler: its findings are published only if the
document still has the version the pass was about. -/

namespace BurnLens

/-- What the editor is told about a document; without a version the document is closed. -/
structure Publication where
  uri : String
  version : Option Int
  diagnostics : List Diagnostic
  deriving DecidableEq, Repr

structure Session where
  settings : Settings
  /-- The workspace folder; none for loose files. -/
  root : Option Path
  /-- Whether anyone is told about diagnostics. -/
  hasListener : Bool := true
  documents : OrderedMap Document := {}
  pipeline : Pipeline
  published : List Publication := []

/-- The compiler named by settings; a path that is not empty overrides theirs. -/
def Settings.compiler (s : Settings) (path : String) : Compiler :=
  { path := if path = "" then s.compilerPath else path, extension := s.sourceExtension }

/-- The layout of sources that settings ask for. -/
def Settings.layout (s : Settings) : Layout :=
  { extension := s.sourceExtension, libraryMark := s.libraryMark, libraryFolder := s.libraryFolder }

namespace Session

/-- A session without documents. A stand-in, where given, takes the place of the compiler. -/
def create (h : Host) (settings : Settings) (root : Option Path) (standIn : Option StandIn)
    (hasListener : Bool) : Except FileFault Session := do
  let index ← Index.create h.fs root settings.layout
  let checker := if standIn.isSome then Checker.standIn else .compiler (settings.compiler "")
  return {
    settings, hasListener
    root := index.root
    pipeline := {
      index
      cache := { capacity := settings.cacheSize }
      checker := some checker
      standIn := standIn.getD {} } }

/-! ### The workspace -/

/-- Indexes files one after another and counts those that could be read. -/
def indexFiles (h : Host) : List Path → Index → Nat → Index × Except IndexFault Nat
  | [], ix, count => (ix, .ok count)
  | path :: rest, ix, count =>
    match ix.indexFile h.fs path with
    | (ix, .error fault) => (ix, .error fault)
    | (ix, .ok none) => indexFiles h rest ix count
    | (ix, .ok (some _)) => indexFiles h rest ix (count + 1)

def withIndex (s : Session) (index : Index) : Session :=
  { s with pipeline := { s.pipeline with index } }

def withCache (s : Session) (cache : Cache) : Session :=
  { s with pipeline := { s.pipeline with cache } }

/-- Indexes every source file below the root and counts them. -/
def scan (s : Session) (h : Host) : Session × Except IndexFault Nat :=
  match s.root with
  | none => (s, .ok 0)
  | some root =>
    match h.fs.discover root s.settings.sourceExtension with
    | .error fault => (s, .error (.file fault))
    | .ok paths =>
      let (index, count) := indexFiles h paths s.pipeline.index 0
      (s.withIndex index, count)

/-- Drops all documents, tables and cached diagnostics. -/
def shutDown (s : Session) : Session :=
  let s := { s with documents := .empty }
  (s.withCache s.pipeline.cache.clear).withIndex s.pipeline.index.clear

/-! ### Document events -/

def publish (s : Session) (p : Publication) : Session :=
  if s.hasListener then { s with published := s.published ++ [p] } else s

/-- Takes the findings of a pass that has ended: those about a closed document leave the cache,
those about a version that was overtaken are dropped, all others are published up to the limit. -/
def settle (s : Session) (d : Document) (ds : List Diagnostic) : Session :=
  match s.documents.get? d.uri with
  | none => s.withCache (s.pipeline.cache.invalidate d.uri)
  | some latest =>
    if latest.version = d.version then
      s.publish ⟨d.uri, some d.version, ds.take s.settings.maxProblems⟩
    else s

/-- Takes a document as the current one of its URI and starts a pass over it. -/
def start (s : Session) (h : Host) (d : Document) : Session × Except PassFault Progress :=
  let s := { s with documents := s.documents.put d.uri d }
  match s.pipeline.start h d with
  | (pipeline, .error fault) => ({ s with pipeline }, .error fault)
  | (pipeline, .ok (.settled ds)) => ({ s with pipeline }.settle d ds, .ok (.settled ds))
  | (pipeline, .ok (.waiting pass)) => ({ s with pipeline }, .ok (.waiting pass))

/-- Ends a pass that waits. -/
def finish (s : Session) (h : Host) (pass : Pass) :
    Session × Except PassFault (List Diagnostic) :=
  match s.pipeline.finish h pass with
  | (pipeline, .error fault) => ({ s with pipeline }, .error fault)
  | (pipeline, .ok ds) => ({ s with pipeline }.settle pass.document ds, .ok ds)

/-- Takes a document that was opened or changed and validates it to the end. -/
def update (s : Session) (h : Host) (d : Document) :
    Session × Except PassFault (List Diagnostic) :=
  match s.start h d with
  | (s, .error fault) => (s, .error fault)
  | (s, .ok (.settled ds)) => (s, .ok ds)
  | (s, .ok (.waiting pass)) => s.finish h pass

/-- Forgets a document and takes back what was published about it. -/
def closeDocument (s : Session) (uri : String) : Session :=
  let s := { s with documents := s.documents.erase uri }
  let s := s.withCache (s.pipeline.cache.invalidate uri)
  let s := s.withIndex (s.pipeline.index.remove uri)
  s.publish ⟨uri, none, []⟩

/-- Validates documents one after another, up to the first failure. -/
def updateAll (h : Host) : List Document → Session → Session × Except PassFault Unit
  | [], s => (s, .ok ())
  | d :: rest, s =>
    match s.update h d with
    | (s, .error fault) => (s, .error fault)
    | (s, .ok _) => updateAll h rest s

/-- Switches the compiler where a path is given, and validates every open document anew. -/
def reconfigure (s : Session) (h : Host) (path : Option String) : Session × Except PassFault Unit :=
  let checker := match path with
    | none => s.pipeline.checker
    | some path => some (.compiler (s.settings.compiler path))
  let s := { s with pipeline := { s.pipeline with checker, cache := s.pipeline.cache.clear } }
  updateAll h s.documents.values s

/-! ### Editor queries -/

/-- Where the name under a cursor is declared. -/
def definitionAt (s : Session) (uri : String) (line character : Int) : Option Location := do
  let d ← s.documents.get? uri
  let name := d.wordAt (d.offsetAt line character)
  if name = "" then none else s.pipeline.index.definition name uri

def outline (s : Session) (uri : String) : List OutlineEntry :=
  s.pipeline.index.outline uri

/-- The fixes for diagnostics of an open document. -/
def fixes (s : Session) (uri : String) (ds : List Diagnostic) : List Fix :=
  ((s.documents.get? uri).map fun d => d.fixes ds).getD []

end Session

end BurnLens
