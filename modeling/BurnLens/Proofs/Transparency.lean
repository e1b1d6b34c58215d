import BurnLens.Proofs.Findings

/-!
# The cache is transparent

`validate_transparent`: in any run of calls on a pipeline, a call that returns gives the findings of
its document, as if there were no cache and no other file. What carries it is `Cache.Holds`: every
entry is the findings of a document that was validated, under that document's version. A hit is then
right as long as a version stands for one text; a write, also one that is ignored or evicts, brings
in nothing else.
-/

namespace BurnLens

/-- No two documents have one URI and one version but different texts. -/
def OneTextPerVersion (docs : List Document) : Prop :=
  ∀ d ∈ docs, ∀ d' ∈ docs, d.uri = d'.uri → d.version = d'.version → d.text = d'.text

theorem OneTextPerVersion.eq {docs : List Document} {d d' : Document} (h : OneTextPerVersion docs)
    (hd : d ∈ docs) (hd' : d' ∈ docs) (huri : d.uri = d'.uri) (hversion : d.version = d'.version) :
    d = d' := by
  have htext := h d hd d' hd' huri hversion
  cases d
  cases d'
  simp_all

/-! ### Entries that are findings -/

/-- Every entry is what a pass over one of `docs` finds, under that document's version. -/
def Cache.Holds (docs : List Document) (g : Answers) (c : Cache) : Prop :=
  ∀ e ∈ c.entries, ∃ d ∈ docs, d.uri = e.uri ∧ d.version = e.version ∧ e.diagnostics = d.findings g

namespace Cache.Holds
variable {c : Cache} {docs docs' : List Document} {g : Answers}

theorem of_nil (h : c.entries = []) : c.Holds docs g := by
  intro e he
  rw [h] at he
  cases he

theorem mono (hsub : ∀ d ∈ docs, d ∈ docs') (h : c.Holds docs g) : c.Holds docs' g := by
  intro e he
  obtain ⟨d, hd, hde⟩ := h e he
  exact ⟨d, hsub d hd, hde⟩

theorem touch {e : CacheEntry} (he : e ∈ c.entries) (h : c.Holds docs g) :
    (c.touch e).Holds docs g :=
  fun e' he' => h e' (mem_of_mem_touch he he')

theorem invalidate (uri : String) (h : c.Holds docs g) : (c.invalidate uri).Holds docs g :=
  fun e he => h e (mem_invalidate.1 he).1

theorem put {d : Document} (hd : d ∈ docs) (h : c.Holds docs g) :
    (c.put d.uri d.version (d.findings g)).Holds docs g := by
  intro e he
  rcases mem_put he with he | rfl
  · exact h e he
  · exact ⟨d, hd, rfl, rfl, rfl⟩

end Cache.Holds

namespace Pipeline
variable {p p₀ : Pipeline} {h : Host} {d : Document} {g : Answers} {docs : List Document}

/-! ### One call -/

/-- The checker, if there is one, answers with `g` and never fails. -/
def AnswersBy (p : Pipeline) (h : Host) (g : Answers) : Prop :=
  ∀ checker, p.checker = some checker →
    ∀ text uri, p.reply h checker text uri = .ok (g text uri)

/-- What every call leaves as it was, and that the entries are still findings. -/
structure Intact (docs : List Document) (g : Answers) (p₀ p : Pipeline) : Prop where
  checker : p.checker = p₀.checker
  answer : p.standIn.answer = p₀.standIn.answer
  capacity : p.cache.capacity = p₀.cache.capacity
  holds : p.cache.Holds docs (p₀.answers fun _ => g)

/-- A call of `validate` returns the findings or stops at indexing. -/
theorem Intact.validate (hi : Intact docs g p₀ p) (hu : 0 ≤ p₀.cache.capacity)
    (hg : p₀.AnswersBy h g) (hd : d ∈ docs)
    (htext : OneTextPerVersion docs) :
    Intact docs g p₀ (p.validate h d).1 ∧
      ((p.validate h d).2 = .ok (d.findings (p₀.answers fun _ => g)) ∨
        ∃ fault, (p.index.indexDocument h.fs d.uri d.text).2 = .error fault ∧
          (p.validate h d).2 = .error (.index fault)) := by
  have hup : 0 ≤ p.cache.capacity := hi.capacity ▸ hu
  cases p.start_case hup h d with
  | hit e hentry hversion heq =>
    have he := Cache.find?_mem hentry
    obtain ⟨d', hd', huri, hver, hfound⟩ := hi.holds e he
    -- one version stands for one text, so the entry is about this very document
    have hdd : d' = d :=
      htext.eq hd' hd (huri.trans (Cache.find?_uri hentry)) (hver.trans hversion)
    rw [hdd] at hfound
    simp only [Pipeline.validate, heq, hfound, true_or, and_true]
    exact ⟨hi.checker, hi.answer, hi.capacity, hi.holds.touch he⟩
  | fault fault _ hindex heq =>
    simp only [Pipeline.validate, heq]
    exact ⟨⟨hi.checker, hi.answer, hi.capacity, hi.holds⟩, .inr ⟨fault, hindex, rfl⟩⟩
  | settled _ _ _ hpending heq =>
    have hfound := findings_of_settled (fun _ => g) hpending
    rw [answers_congr hi.checker] at hfound
    simp only [Pipeline.validate, heq, hfound, true_or, and_true]
    exact ⟨hi.checker, hi.answer, Cache.capacity_put.trans hi.capacity, hi.holds.put hd⟩
  | waiting _ checker _ _ hpending heq =>
    have hreply : p.reply h checker d.text d.uri = .ok (g d.text d.uri) := by
      rw [reply_congr hi.answer]
      exact hg checker (hi.checker ▸ (pending_eq_some hpending).2) ..
    have hfound := findings_of_waited (g := fun _ => g) hpending
    rw [answers_congr hi.checker] at hfound
    simp only [Pipeline.validate, heq]
    cases (p.indexed h d).finish_case hup h ⟨d, d.report, checker⟩ with
    | fault fault hfail _ =>
      simp [hreply] at hfail
    | done ds hok heq' =>
      simp only [reply_indexed, hreply, Except.ok.injEq] at hok
      subst hok
      simp only [heq', hfound, true_or, and_true]
      refine ⟨?_, ?_, ?_, ?_⟩
      · simpa using hi.checker
      · simpa using hi.answer
      · simpa using hi.capacity
      · simpa using hi.holds.put hd

/-! ### Runs of calls -/

/-- What can happen to a pipeline between and at calls of `validate`. The index may become anything:
files may be indexed, removed, or all of them dropped. -/
inductive Call where
  | validate (h : Host) (d : Document)
  | invalidate (uri : String)
  | clear
  | reindex (change : Index → Index)

def Call.host? : Call → Option Host
  | .validate h _ => some h
  | _ => none

def Call.document? : Call → Option Document
  | .validate _ d => some d
  | _ => none

def apply (p : Pipeline) : Call → Pipeline
  | .validate h d => (p.validate h d).1
  | .invalidate uri => { p with cache := p.cache.invalidate uri }
  | .clear => { p with cache := p.cache.clear }
  | .reindex change => { p with index := change p.index }

/-- The documents that are validated in a run. -/
def validated (calls : List Call) : List Document :=
  calls.filterMap Call.document?

theorem Intact.apply {call : Call} (hi : Intact docs g p₀ p) (hu : 0 ≤ p₀.cache.capacity)
    (hg : ∀ h, call.host? = some h → p₀.AnswersBy h g)
    (hd : ∀ d, call.document? = some d → d ∈ docs) (htext : OneTextPerVersion docs) :
    Intact docs g p₀ (p.apply call) := by
  cases call with
  | validate h d =>
    have hmem := hd d rfl
    exact (hi.validate hu (hg h rfl) hmem htext).1
  | invalidate uri => exact ⟨hi.checker, hi.answer, hi.capacity, hi.holds.invalidate uri⟩
  | clear => exact ⟨hi.checker, hi.answer, hi.capacity, .of_nil rfl⟩
  | reindex change => exact ⟨hi.checker, hi.answer, hi.capacity, hi.holds⟩

theorem Intact.foldl {calls : List Call} (hi : Intact docs g p₀ p) (hu : 0 ≤ p₀.cache.capacity)
    (hg : ∀ h ∈ calls.filterMap Call.host?, p₀.AnswersBy h g)
    (hd : ∀ d ∈ validated calls, d ∈ docs) (htext : OneTextPerVersion docs) :
    Intact docs g p₀ (calls.foldl Pipeline.apply p) := by
  induction calls generalizing p with
  | nil => exact hi
  | cons call rest ih =>
    have hcall : Intact docs g p₀ (p.apply call) := by
      refine hi.apply hu (fun h hh => hg h ?_) (fun d hd' => hd d ?_) htext
      · exact List.mem_filterMap.2 ⟨call, by simp, hh⟩
      · exact List.mem_filterMap.2 ⟨call, by simp, hd'⟩
    refine ih hcall (fun h hh => hg h ?_) (fun d hd' => hd d ?_)
    · obtain ⟨c, hc, hch⟩ := List.mem_filterMap.1 hh
      exact List.mem_filterMap.2 ⟨c, List.mem_cons_of_mem _ hc, hch⟩
    · obtain ⟨c, hc, hcd⟩ := List.mem_filterMap.1 hd'
      exact List.mem_filterMap.2 ⟨c, List.mem_cons_of_mem _ hc, hcd⟩

/-- In any run of calls from an empty cache, with a checker that answers by `g` (or none) and with
one text per version, every call of `validate` gives the findings of its document, or stops where
the document cannot be indexed. -/
theorem validate_transparent (p : Pipeline) (g : Answers) (calls : List Call)
    (hempty : p.cache.entries = []) (hsize : 1 ≤ p.cache.capacity)
    (hg : ∀ h ∈ calls.filterMap Call.host?, p.AnswersBy h g)
    (htext : OneTextPerVersion (validated calls)) :
    ∀ before h d after, calls = before ++ .validate h d :: after →
      ((before.foldl apply p).validate h d).2 = .ok (d.findings (p.answers fun _ => g)) ∨
        ∃ fault, ((before.foldl apply p).index.indexDocument h.fs d.uri d.text).2 = .error fault ∧
          ((before.foldl apply p).validate h d).2 = .error (.index fault) := by
  intro before h d after hcalls
  have hu : 0 ≤ p.cache.capacity := by omega
  have hsub : ∀ call ∈ before, call ∈ calls := fun call hc => by simp [hcalls, hc]
  have hmem : d ∈ validated calls :=
    List.mem_filterMap.2 ⟨.validate h d, by simp [hcalls], rfl⟩
  have hbefore : Intact (validated calls) g p (before.foldl apply p) := by
    refine Intact.foldl ⟨rfl, rfl, rfl, .of_nil hempty⟩ hu (fun h' hh => hg h' ?_)
      (fun d' hd' => ?_) htext
    · obtain ⟨c, hc, hch⟩ := List.mem_filterMap.1 hh
      exact List.mem_filterMap.2 ⟨c, hsub c hc, hch⟩
    · obtain ⟨c, hc, hcd⟩ := List.mem_filterMap.1 hd'
      exact List.mem_filterMap.2 ⟨c, hsub c hc, hcd⟩
  refine (hbefore.validate hu (hg h ?_) hmem htext).2
  exact List.mem_filterMap.2 ⟨.validate h d, by simp [hcalls], rfl⟩

/-- Two documents in a cache with room for one: the second call evicts what the third asks for
again, after the index was emptied. -/
theorem validate_transparent_evicted :
    let g : Answers := fun text uri => [⟨.error, .onLine 0 0 1, uri ++ text, .compiler none, none⟩]
    let p : Pipeline :=
      { index := {}, cache := { capacity := 1 }, checker := some .standIn,
        standIn := { computed := fun text uri => some (g text uri) } }
    let h : Host := { fs := {}, searchFolders := [], salt := "" }
    let a : Document := ⟨"file:///a.bn", 1, "var x = 1"⟩
    let b : Document := ⟨"file:///b.bn", 1, "import \"a\""⟩
    let before : List Call := [.validate h a, .validate h b, .reindex fun _ => {}]
    ((before.foldl apply p).validate h a).2 = .ok (a.findings g) := by
  intro g p h a b before
  have hg : ∀ h', p.AnswersBy h' g := by
    rintro h' checker ⟨⟩ text uri
    rfl
  have hcall := validate_transparent p g (before ++ [.validate h a]) rfl (by decide)
    (fun h' _ => hg h') (by unfold OneTextPerVersion; decide) before h a [] rfl
  rcases hcall with hok | ⟨fault, hindex, -⟩
  · exact hok
  · have hindexed : (({} : Index).indexDocument h.fs a.uri a.text).2.toOption.isSome = true := by
      decide +kernel
    rw [show (({} : Index).indexDocument h.fs a.uri a.text).2 = .error fault from hindex]
      at hindexed
    cases hindexed

end Pipeline

end BurnLens
