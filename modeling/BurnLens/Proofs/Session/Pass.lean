import BurnLens.Proofs.Findings
import BurnLens.Session

/-!
# How a pass changes a session

`Session.start_case` and `Session.finish_case` list what starting and ending a pass can do to a
session, with the session that comes out written down: the document recorded, the index and the
cache as the pass leaves them, and the publication if there is one. A pass that ends is published
only if the document it was about is open under its version; if the document was closed, its
findings leave the cache again.
-/

namespace BurnLens.Session
variable {s : Session} {h : Host} {d : Document}

/-! ### Parts of a step -/

def withPipeline (s : Session) (pipeline : Pipeline) : Session :=
  { s with pipeline }

def recorded (s : Session) (d : Document) : Session :=
  { s with documents := s.documents.put d.uri d }

def announce (s : Session) (d : Document) (ds : List Diagnostic) : Session :=
  s.publish ⟨d.uri, some d.version, ds.take s.settings.maxProblems⟩

def forgotten (s : Session) (uri : String) : Session :=
  s.withCache (s.pipeline.cache.invalidate uri)

section
variable (s : Session) (d : Document) (ds : List Diagnostic) (p : Pipeline) (q : Publication)
  (uri : String)

@[simp] theorem documents_withPipeline : (s.withPipeline p).documents = s.documents := rfl

@[simp] theorem pipeline_withPipeline : (s.withPipeline p).pipeline = p := rfl

@[simp] theorem published_withPipeline : (s.withPipeline p).published = s.published := rfl

@[simp] theorem settings_withPipeline : (s.withPipeline p).settings = s.settings := rfl

@[simp] theorem hasListener_withPipeline : (s.withPipeline p).hasListener = s.hasListener := rfl

@[simp] theorem documents_recorded : (s.recorded d).documents = s.documents.put d.uri d := rfl

@[simp] theorem pipeline_recorded : (s.recorded d).pipeline = s.pipeline := rfl

@[simp] theorem published_recorded : (s.recorded d).published = s.published := rfl

@[simp] theorem settings_recorded : (s.recorded d).settings = s.settings := rfl

@[simp] theorem hasListener_recorded : (s.recorded d).hasListener = s.hasListener := rfl

@[simp] theorem documents_publish : (s.publish q).documents = s.documents := by
  unfold publish; split <;> rfl

@[simp] theorem pipeline_publish : (s.publish q).pipeline = s.pipeline := by
  unfold publish; split <;> rfl

@[simp] theorem settings_publish : (s.publish q).settings = s.settings := by
  unfold publish; split <;> rfl

@[simp] theorem hasListener_publish : (s.publish q).hasListener = s.hasListener := by
  unfold publish; split <;> simp [*]

theorem published_publish (hl : s.hasListener = true) :
    (s.publish q).published = s.published ++ [q] := by
  simp [publish, hl]

@[simp] theorem documents_announce : (s.announce d ds).documents = s.documents :=
  documents_publish ..

@[simp] theorem pipeline_announce : (s.announce d ds).pipeline = s.pipeline :=
  pipeline_publish ..

@[simp] theorem settings_announce : (s.announce d ds).settings = s.settings :=
  settings_publish ..

@[simp] theorem hasListener_announce : (s.announce d ds).hasListener = s.hasListener :=
  hasListener_publish ..

@[simp] theorem documents_forgotten : (s.forgotten uri).documents = s.documents := rfl

@[simp] theorem cache_forgotten :
    (s.forgotten uri).pipeline.cache = s.pipeline.cache.invalidate uri := rfl

@[simp] theorem index_forgotten : (s.forgotten uri).pipeline.index = s.pipeline.index := rfl

@[simp] theorem checker_forgotten : (s.forgotten uri).pipeline.checker = s.pipeline.checker := rfl

@[simp] theorem standIn_forgotten : (s.forgotten uri).pipeline.standIn = s.pipeline.standIn := rfl

@[simp] theorem published_forgotten : (s.forgotten uri).published = s.published := rfl

@[simp] theorem settings_forgotten : (s.forgotten uri).settings = s.settings := rfl

@[simp] theorem hasListener_forgotten : (s.forgotten uri).hasListener = s.hasListener := rfl

end

theorem published_announce (hl : s.hasListener = true) (ds : List Diagnostic) :
    (s.announce d ds).published =
      s.published ++ [⟨d.uri, some d.version, ds.take s.settings.maxProblems⟩] :=
  s.published_publish _ hl

section
variable (s : Session) (uri : String)

@[simp] theorem documents_closeDocument :
    (s.closeDocument uri).documents = s.documents.erase uri := by
  simp [closeDocument, withCache, withIndex]

@[simp] theorem cache_closeDocument :
    (s.closeDocument uri).pipeline.cache = s.pipeline.cache.invalidate uri := by
  simp [closeDocument, withCache, withIndex]

@[simp] theorem index_closeDocument :
    (s.closeDocument uri).pipeline.index = s.pipeline.index.remove uri := by
  simp [closeDocument, withCache, withIndex]

@[simp] theorem checker_closeDocument :
    (s.closeDocument uri).pipeline.checker = s.pipeline.checker := by
  simp [closeDocument, withCache, withIndex]

end

theorem published_closeDocument (hl : s.hasListener = true) (uri : String) :
    (s.closeDocument uri).published = s.published ++ [⟨uri, none, []⟩] :=
  published_publish _ _ hl

theorem settle_current {latest : Document} {ds : List Diagnostic}
    (hdoc : s.documents.get? d.uri = some latest) (hv : latest.version = d.version) :
    s.settle d ds = s.announce d ds := by
  simp [settle, hdoc, hv, announce]

theorem settle_overtaken {latest : Document} {ds : List Diagnostic}
    (hdoc : s.documents.get? d.uri = some latest) (hv : latest.version ≠ d.version) :
    s.settle d ds = s := by
  simp [settle, hdoc, hv]

theorem settle_closed {ds : List Diagnostic} (hdoc : s.documents.get? d.uri = none) :
    s.settle d ds = s.forgotten d.uri := by
  simp [settle, hdoc, forgotten]

theorem get?_recorded (s : Session) (d : Document) :
    (s.recorded d).documents.get? d.uri = some d := by
  rw [documents_recorded, OrderedMap.get?_put, if_pos rfl]

/-! ### The cases -/

/-- Everything that starting a pass can do to a session. -/
inductive StartCase (s : Session) (h : Host) (d : Document) : Prop where
  | hit (e : CacheEntry) (hentry : s.pipeline.cache.find? d.uri = some e)
      (hversion : e.version = d.version)
      (heq : s.start h d =
        (((s.recorded d).withPipeline
            { s.pipeline with cache := s.pipeline.cache.touch e }).announce d e.diagnostics,
          .ok (.settled e.diagnostics)))
  | fault (fault : IndexFault) (hmiss : s.pipeline.Misses d)
      (hindex : (s.pipeline.index.indexDocument h.fs d.uri d.text).2 = .error fault)
      (heq : s.start h d =
        ((s.recorded d).withPipeline (s.pipeline.indexed h d), .error (.index fault)))
  | settled (extraction : Extraction) (hmiss : s.pipeline.Misses d)
      (hindex : (s.pipeline.index.indexDocument h.fs d.uri d.text).2 = .ok extraction)
      (hpending : s.pipeline.pending d.report = none)
      (heq : s.start h d =
        (((s.recorded d).withPipeline
            ((s.pipeline.indexed h d).cached d d.report.diagnostics)).announce d
            d.report.diagnostics,
          .ok (.settled d.report.diagnostics)))
  | waiting (extraction : Extraction) (checker : Checker) (hmiss : s.pipeline.Misses d)
      (hindex : (s.pipeline.index.indexDocument h.fs d.uri d.text).2 = .ok extraction)
      (hpending : s.pipeline.pending d.report = some checker)
      (heq : s.start h d =
        ((s.recorded d).withPipeline (s.pipeline.indexed h d),
          .ok (.waiting ⟨d, d.report, checker⟩)))

theorem start_case (hu : 0 ≤ s.pipeline.cache.capacity) (h : Host) (d : Document) :
    StartCase s h d := by
  have hset : ∀ (p : Pipeline) (ds : List Diagnostic),
      ((s.recorded d).withPipeline p).settle d ds = ((s.recorded d).withPipeline p).announce d ds :=
    fun p ds => settle_current (s.get?_recorded d) rfl
  cases s.pipeline.start_case hu h d with
  | hit e hentry hversion heq =>
    refine .hit e hentry hversion ?_
    rw [← hset]
    simp only [start, heq]
    rfl
  | fault fault hmiss hindex heq =>
    refine .fault fault hmiss hindex ?_
    simp only [start, heq]
    rfl
  | settled extraction hmiss hindex hpending heq =>
    refine .settled extraction hmiss hindex hpending ?_
    rw [← hset]
    simp only [start, heq]
    rfl
  | waiting extraction checker hmiss hindex hpending heq =>
    refine .waiting extraction checker hmiss hindex hpending ?_
    simp only [start, heq]
    rfl

@[simp] def consulted (s : Session) (h : Host) (pass : Pass) : Session :=
  s.withPipeline (s.pipeline.consult h pass.checker pass.document).1

@[simp] def kept (s : Session) (d : Document) (ds : List Diagnostic) : Session :=
  s.withPipeline (s.pipeline.cached d ds)

/-- Everything that ending a pass can do to a session. -/
inductive FinishCase (s : Session) (h : Host) (pass : Pass) : Prop where
  | fault (fault : CompileFault)
      (hreply : s.pipeline.reply h pass.checker pass.document.text pass.document.uri = .error fault)
      (heq : s.finish h pass = (s.consulted h pass, .error (.check fault)))
  | closed (ds : List Diagnostic)
      (hreply : s.pipeline.reply h pass.checker pass.document.text pass.document.uri = .ok ds)
      (hdoc : s.documents.get? pass.document.uri = none)
      (heq : s.finish h pass =
        (((s.consulted h pass).kept pass.document
            (pass.found.withCompiler ds).diagnostics).forgotten pass.document.uri,
          .ok (pass.found.withCompiler ds).diagnostics))
  | overtaken (ds : List Diagnostic) (latest : Document)
      (hreply : s.pipeline.reply h pass.checker pass.document.text pass.document.uri = .ok ds)
      (hdoc : s.documents.get? pass.document.uri = some latest)
      (hversion : latest.version ≠ pass.document.version)
      (heq : s.finish h pass =
        ((s.consulted h pass).kept pass.document (pass.found.withCompiler ds).diagnostics,
          .ok (pass.found.withCompiler ds).diagnostics))
  | current (ds : List Diagnostic) (latest : Document)
      (hreply : s.pipeline.reply h pass.checker pass.document.text pass.document.uri = .ok ds)
      (hdoc : s.documents.get? pass.document.uri = some latest)
      (hversion : latest.version = pass.document.version)
      (heq : s.finish h pass =
        (((s.consulted h pass).kept pass.document
            (pass.found.withCompiler ds).diagnostics).announce pass.document
            (pass.found.withCompiler ds).diagnostics,
          .ok (pass.found.withCompiler ds).diagnostics))

theorem finish_case (hu : 0 ≤ s.pipeline.cache.capacity) (h : Host) (pass : Pass) :
    FinishCase s h pass := by
  cases s.pipeline.finish_case hu h pass with
  | fault fault hreply heq =>
    refine .fault fault hreply ?_
    simp only [finish, heq]
    rfl
  | done ds hreply heq =>
    have hfin : s.finish h pass =
        (((s.consulted h pass).kept pass.document
            (pass.found.withCompiler ds).diagnostics).settle pass.document
            (pass.found.withCompiler ds).diagnostics,
          .ok (pass.found.withCompiler ds).diagnostics) := by
      simp only [finish, heq]
      rfl
    cases hdoc : s.documents.get? pass.document.uri with
    | none =>
      refine .closed ds hreply hdoc (hfin.trans ?_)
      rw [settle_closed]
      exact hdoc
    | some latest =>
      by_cases hv : latest.version = pass.document.version
      · refine .current ds latest hreply hdoc hv (hfin.trans ?_)
        rw [settle_current _ hv]
        exact hdoc
      · refine .overtaken ds latest hreply hdoc hv (hfin.trans ?_)
        rw [settle_overtaken _ hv]
        exact hdoc

/-! ### What no event changes -/

/-- Settings, listener, the answers of the stand-in and the room of the cache are as they were. -/
structure SameSetup (s s' : Session) : Prop where
  settings : s'.settings = s.settings
  listener : s'.hasListener = s.hasListener
  answer : s'.pipeline.standIn.answer = s.pipeline.standIn.answer
  capacity : s'.pipeline.cache.capacity = s.pipeline.cache.capacity

namespace SameSetup
variable {s' s'' : Session}

theorem refl (s : Session) : SameSetup s s := ⟨rfl, rfl, rfl, rfl⟩

theorem trans (h : SameSetup s s') (h' : SameSetup s' s'') : SameSetup s s'' :=
  ⟨h'.settings.trans h.settings, h'.listener.trans h.listener, h'.answer.trans h.answer,
    h'.capacity.trans h.capacity⟩

theorem start (hu : 0 ≤ s.pipeline.cache.capacity) (h : Host) (d : Document) :
    SameSetup s (s.start h d).1 := by
  cases start_case hu h d <;> rename_i heq <;> rw [heq] <;> constructor <;> simp

theorem finish (hu : 0 ≤ s.pipeline.cache.capacity) (h : Host) (pass : Pass) :
    SameSetup s (s.finish h pass).1 := by
  cases finish_case hu h pass <;> rename_i heq <;> rw [heq] <;>
    constructor <;> simp

theorem closeDocument (s : Session) (uri : String) : SameSetup s (s.closeDocument uri) := by
  constructor <;> simp [Session.closeDocument, withCache, withIndex]

theorem shutDown (s : Session) : SameSetup s s.shutDown := ⟨rfl, rfl, rfl, rfl⟩

end SameSetup

/-- On these hosts the checker in charge, whenever it answers, gives the answer of `g`. -/
def RepliesBy (s : Session) (hosts : List Host) (g : Checker → Answers) : Prop :=
  ∀ h ∈ hosts, ∀ checker, s.pipeline.checker = some checker → ∀ text uri ds,
    s.pipeline.reply h checker text uri = .ok ds → ds = g checker text uri

theorem RepliesBy.congr {s' : Session} {hosts : List Host} {g : Checker → Answers}
    (hsame : SameSetup s s') (hc : s'.pipeline.checker = s.pipeline.checker)
    (hg : s.RepliesBy hosts g) : s'.RepliesBy hosts g := by
  intro h hh checker hchecker text uri ds hreply
  rw [hc] at hchecker
  rw [Pipeline.reply_congr hsame.answer] at hreply
  exact hg h hh checker hchecker text uri ds hreply

/-- What there is to publish about a document if checkers answer by `g`. -/
def notice (s : Session) (g : Checker → Answers) (d : Document) : Publication :=
  ⟨d.uri, some d.version, (d.findings (s.pipeline.answers g)).take s.settings.maxProblems⟩

theorem notice_congr {s' : Session} (hsame : SameSetup s s')
    (hc : s'.pipeline.checker = s.pipeline.checker) (g : Checker → Answers) (d : Document) :
    s'.notice g d = s.notice g d := by
  simp only [notice, Pipeline.answers_congr hc, hsame.settings]

end BurnLens.Session
