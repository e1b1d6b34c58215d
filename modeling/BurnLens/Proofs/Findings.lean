import BurnLens.Pipeline
import BurnLens.Proofs.Index.Frame
import BurnLens.Proofs.Symbol.Lookup

/-!
# What a pass finds, and how a pass can go

`Document.findings` says what a full pass over a document finds, given what the compiler stage
answers: a function of the document alone. The stages of a pass add up to it
(`findings_of_critical`, `findings_withCompiler`, `findings_of_local`), because indexing reports
nothing that depends on other files.

`start_case` and `finish_case` list everything that starting and ending a pass can do to a pipeline
whose cache can be written. All later statements about passes go through these two.
-/

namespace BurnLens

/-- What a compiler stage answers for a text and its URI. -/
abbrev Answers := String → String → List Diagnostic

namespace Document

/-- What the stages before the compiler find. -/
def report (d : Document) : PassResult :=
  d.localStages (extract d.text d.uri fun _ => none).diagnostics

/-- What a full pass finds when the compiler stage answers with `g`. -/
def findings (d : Document) (g : Answers) : List Diagnostic :=
  let found := (extract d.text d.uri fun _ => none).diagnostics ++ d.checkStructure
  if hasCritical found then found else found ++ d.checkUsage ++ d.lint ++ g d.text d.uri

theorem findings_of_critical {d : Document} {g : Answers} (h : d.report.critical = true) :
    d.report.diagnostics = d.findings g := by
  unfold report localStages at h ⊢
  unfold findings
  by_cases hc : hasCritical ((extract d.text d.uri fun _ => none).diagnostics ++ d.checkStructure)
  · simp [hc, PassResult.diagnostics]
  · simp [hc] at h

theorem findings_withCompiler {d : Document} {g : Answers} (h : d.report.critical = false) :
    (d.report.withCompiler (g d.text d.uri)).diagnostics = d.findings g := by
  unfold report localStages at h ⊢
  unfold findings
  by_cases hc : hasCritical ((extract d.text d.uri fun _ => none).diagnostics ++ d.checkStructure)
  · simp [hc] at h
  · simp [hc, PassResult.diagnostics, PassResult.withCompiler]

theorem findings_of_local {d : Document} {g : Answers} (h : d.report.critical = false)
    (hg : g d.text d.uri = []) : d.report.diagnostics = d.findings g := by
  rw [← findings_withCompiler h, hg]
  simp [PassResult.diagnostics, PassResult.withCompiler]

end Document

namespace Pipeline
variable {p : Pipeline} {h : Host} {d : Document}

/-! ### Checkers -/

/-- What a checker answers, the counting aside. -/
def reply (p : Pipeline) (h : Host) (checker : Checker) (text uri : String) :
    Except CompileFault (List Diagnostic) :=
  match checker with
  | .standIn => .ok (p.standIn.answer text uri)
  | .compiler c => (c.validate h text uri).result

/-- Answers change only with those of the stand-in. -/
theorem reply_congr {p p' : Pipeline} (hs : p'.standIn.answer = p.standIn.answer) (h : Host)
    (checker : Checker) (text uri : String) :
    p'.reply h checker text uri = p.reply h checker text uri := by
  cases checker with
  | standIn => simp [reply, hs]
  | compiler c => rfl

theorem consult_snd (p : Pipeline) (h : Host) (checker : Checker) (d : Document) :
    (p.consult h checker d).2 = (p.reply h checker d.text d.uri).mapError .check := by
  cases checker <;> rfl

section
variable (p : Pipeline) (h : Host) (checker : Checker) (d : Document)

@[simp] theorem index_consult : (p.consult h checker d).1.index = p.index := by
  cases checker <;> rfl

@[simp] theorem cache_consult : (p.consult h checker d).1.cache = p.cache := by
  cases checker <;> rfl

@[simp] theorem checker_consult : (p.consult h checker d).1.checker = p.checker := by
  cases checker <;> rfl

@[simp] theorem answer_consult :
    (p.consult h checker d).1.standIn.answer = p.standIn.answer := by
  cases checker <;> rfl

end

/-- What the compiler stage adds if each checker answers by `g`; without a checker, nothing. -/
def answers (p : Pipeline) (g : Checker → Answers) : Answers :=
  match p.checker with
  | none => fun _ _ => []
  | some checker => g checker

theorem answers_congr {p p' : Pipeline} (hc : p'.checker = p.checker) (g : Checker → Answers) :
    p'.answers g = p.answers g := by
  unfold answers
  rw [hc]

theorem pending_eq_some {checker : Checker} {r : PassResult}
    (hp : p.pending r = some checker) : r.critical = false ∧ p.checker = some checker := by
  unfold pending at hp
  cases hc : r.critical with
  | true => simp [hc] at hp
  | false => exact ⟨rfl, by simpa [hc] using hp⟩

/-- A pass that need not wait has found everything. -/
theorem findings_of_settled (g : Checker → Answers) (hp : p.pending d.report = none) :
    d.report.diagnostics = d.findings (p.answers g) := by
  unfold pending at hp
  cases hc : d.report.critical with
  | true => exact Document.findings_of_critical hc
  | false =>
    have hnone : p.checker = none := by simpa [hc] using hp
    exact Document.findings_of_local hc (by simp [answers, hnone])

/-- A pass that has to wait finds the rest when it ends. -/
theorem findings_of_waited {g : Checker → Answers} {checker : Checker}
    (hp : p.pending d.report = some checker) :
    (d.report.withCompiler (g checker d.text d.uri)).diagnostics = d.findings (p.answers g) := by
  obtain ⟨hc, hsome⟩ := pending_eq_some hp
  rw [← Document.findings_withCompiler hc]
  simp [answers, hsome]

/-! ### The cases of a pass -/

/-- The pipeline after a document was indexed. -/
def indexed (p : Pipeline) (h : Host) (d : Document) : Pipeline :=
  { p with index := (p.index.indexDocument h.fs d.uri d.text).1 }

@[simp] theorem cache_indexed : (p.indexed h d).cache = p.cache := rfl

@[simp] theorem checker_indexed : (p.indexed h d).checker = p.checker := rfl

@[simp] theorem standIn_indexed : (p.indexed h d).standIn = p.standIn := rfl

@[simp] theorem reply_indexed (h' : Host) (checker : Checker) (text uri : String) :
    (p.indexed h d).reply h' checker text uri = p.reply h' checker text uri :=
  reply_congr rfl h' checker text uri

/-- The pipeline with findings offered to its cache. -/
def cached (p : Pipeline) (d : Document) (ds : List Diagnostic) : Pipeline :=
  { p with cache := p.cache.put d.uri d.version ds }

section
variable (p : Pipeline) (d : Document) (ds : List Diagnostic)

@[simp] theorem cache_cached : (p.cached d ds).cache = p.cache.put d.uri d.version ds := rfl

@[simp] theorem index_cached : (p.cached d ds).index = p.index := rfl

@[simp] theorem checker_cached : (p.cached d ds).checker = p.checker := rfl

@[simp] theorem standIn_cached : (p.cached d ds).standIn = p.standIn := rfl

end

/-- The cache has no entry for exactly this version. -/
def Misses (p : Pipeline) (d : Document) : Prop :=
  ∀ e, p.cache.find? d.uri = some e → e.version ≠ d.version

theorem localPass_case (p : Pipeline) (h : Host) (d : Document) :
    (∃ fault, (p.index.indexDocument h.fs d.uri d.text).2 = .error fault ∧
      p.localPass h d = (p.indexed h d, .error (.index fault))) ∨
    (∃ extraction, (p.index.indexDocument h.fs d.uri d.text).2 = .ok extraction ∧
      p.localPass h d = (p.indexed h d, .ok d.report)) := by
  unfold localPass indexed
  split
  · rename_i fault heq
    exact .inl ⟨fault, by rw [heq], by rw [heq]⟩
  · rename_i extraction heq
    refine .inr ⟨extraction, by rw [heq], ?_⟩
    obtain ⟨-, lookup, rfl⟩ := Index.indexDocument_ok (congrArg Prod.snd heq)
    rw [heq, Document.report, extract_diagnostics lookup fun _ => none]

/-- Everything that starting a pass can come to. -/
inductive StartCase (p : Pipeline) (h : Host) (d : Document) : Prop where
  | hit (e : CacheEntry) (hentry : p.cache.find? d.uri = some e) (hversion : e.version = d.version)
      (heq : p.start h d = ({ p with cache := p.cache.touch e }, .ok (.settled e.diagnostics)))
  | fault (fault : IndexFault) (hmiss : p.Misses d)
      (hindex : (p.index.indexDocument h.fs d.uri d.text).2 = .error fault)
      (heq : p.start h d = (p.indexed h d, .error (.index fault)))
  | settled (extraction : Extraction) (hmiss : p.Misses d)
      (hindex : (p.index.indexDocument h.fs d.uri d.text).2 = .ok extraction)
      (hpending : p.pending d.report = none)
      (heq : p.start h d =
        ((p.indexed h d).cached d d.report.diagnostics, .ok (.settled d.report.diagnostics)))
  | waiting (extraction : Extraction) (checker : Checker) (hmiss : p.Misses d)
      (hindex : (p.index.indexDocument h.fs d.uri d.text).2 = .ok extraction)
      (hpending : p.pending d.report = some checker)
      (heq : p.start h d = (p.indexed h d, .ok (.waiting ⟨d, d.report, checker⟩)))

theorem keep_eq (hu : 0 ≤ p.cache.capacity) (d : Document) (r : PassResult) :
    p.keep d r = (p.cached d r.diagnostics, .ok r.diagnostics) := by
  have husable : p.cache.isUsable = true := by simpa [Cache.isUsable] using hu
  simp only [keep, Cache.tryPut, husable, if_true]
  rfl

theorem start_case (hu : 0 ≤ p.cache.capacity) (h : Host) (d : Document) : StartCase p h d := by
  rcases p.cache.get_cases d.uri d.version with ⟨e, he, hv, hget⟩ | ⟨hmiss, hget⟩
  · exact .hit e he hv (by simp [start, hget])
  · rcases p.localPass_case h d with ⟨fault, hix, hlocal⟩ | ⟨extraction, hix, hlocal⟩
    · exact .fault fault hmiss hix (by simp [start, hget, hlocal])
    · have hpend : (p.indexed h d).pending d.report = p.pending d.report := rfl
      cases hc : p.pending d.report with
      | none =>
        refine .settled extraction hmiss hix hc ?_
        simp only [start, hget, hlocal, hpend, hc]
        rw [keep_eq (p := p.indexed h d) hu]
        rfl
      | some checker =>
        exact .waiting extraction checker hmiss hix hc (by simp [start, hget, hlocal, hpend, hc])

/-- Everything that ending a pass can come to. -/
inductive FinishCase (p : Pipeline) (h : Host) (pass : Pass) : Prop where
  | fault (fault : CompileFault)
      (hreply : p.reply h pass.checker pass.document.text pass.document.uri = .error fault)
      (heq : p.finish h pass =
        ((p.consult h pass.checker pass.document).1, .error (.check fault)))
  | done (ds : List Diagnostic)
      (hreply : p.reply h pass.checker pass.document.text pass.document.uri = .ok ds)
      (heq : p.finish h pass =
        ((p.consult h pass.checker pass.document).1.cached pass.document
            (pass.found.withCompiler ds).diagnostics,
          .ok (pass.found.withCompiler ds).diagnostics))

theorem finish_case (hu : 0 ≤ p.cache.capacity) (h : Host) (pass : Pass) :
    FinishCase p h pass := by
  have hsnd := p.consult_snd h pass.checker pass.document
  have hcache := p.cache_consult h pass.checker pass.document
  rcases hcon : p.consult h pass.checker pass.document with ⟨p', r⟩
  rw [hcon] at hsnd hcache
  simp only at hsnd hcache
  cases hr : p.reply h pass.checker pass.document.text pass.document.uri with
  | error fault =>
    rw [hr] at hsnd
    obtain rfl : r = .error (.check fault) := hsnd
    refine .fault fault hr ?_
    simp only [finish, hcon]
  | ok ds =>
    rw [hr] at hsnd
    obtain rfl : r = .ok ds := hsnd
    refine .done ds hr ?_
    simp only [finish, hcon]
    exact keep_eq (by rw [hcache]; exact hu) _ _

end Pipeline

end BurnLens
