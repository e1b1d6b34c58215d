import BurnLens.Proofs.Session.Sequential

/-!
# Events that fail

A document may be one that cannot be indexed, and a compiler may fail. The document is recorded
before its pass starts, so an event that fails is half applied: cache and log are as they were, but
the document that failed is the current one of its URI. That is harmless only if it was so already
(`update_error`). Otherwise it stands in the way later: a session that validates its documents anew
stops at the first that fails and leaves out those that come after it, however well they are.
-/

namespace BurnLens.Session
variable {s s' : Session} {h : Host} {d : Document} {fault : PassFault}

/-- The event recorded its document and did nothing else that shows. -/
structure OnlyRecords (d : Document) (s s' : Session) : Prop where
  documents : s'.documents = s.documents.put d.uri d
  cache : s'.pipeline.cache = s.pipeline.cache
  published : s'.published = s.published

theorem update_onlyRecords (hu : 0 ≤ s.pipeline.cache.capacity)
    (hfail : (s.update h d).2 = .error fault) : OnlyRecords d s (s.update h d).1 := by
  cases start_case hu h d with
  | hit _ _ _ heq => simp [update, heq] at hfail
  | settled _ _ _ _ heq => simp [update, heq] at hfail
  | fault _ _ _ heq =>
    simp only [update, heq]
    exact ⟨rfl, rfl, rfl⟩
  | waiting _ checker _ _ _ heq =>
    have hupd : s.update h d = ((s.recorded d).withPipeline (s.pipeline.indexed h d)).finish h
        ⟨d, d.report, checker⟩ := by simp only [update, heq]
    rw [hupd] at hfail ⊢
    -- the pass came to its compiler, so it is the compiler that failed
    cases finish_case (s := (s.recorded d).withPipeline (s.pipeline.indexed h d)) hu h
        ⟨d, d.report, checker⟩ with
    | fault _ _ heq' =>
      rw [heq']
      constructor <;> simp
    | closed _ _ _ heq' => rw [heq'] at hfail; cases hfail
    | overtaken _ _ _ _ _ heq' => rw [heq'] at hfail; cases hfail
    | current _ _ _ _ _ heq' => rw [heq'] at hfail; cases hfail

/-! ### Validating anew -/

theorem updateAll_same (hu : 0 ≤ s.pipeline.cache.capacity) (h : Host) (docs : List Document) :
    SameSetup s (updateAll h docs s).1 := by
  induction docs generalizing s with
  | nil => exact .refl s
  | cons d rest ih =>
    have hsame := update_same hu h d
    unfold updateAll
    split <;> rename_i heq <;> rw [heq] at hsame
    · exact hsame
    · exact hsame.trans (ih (hsame.capacity ▸ hu))

theorem updateAll_stops {before after : List Document}
    (hbefore : updateAll h before s = (s', .ok ())) (hfail : (s'.update h d).2 = .error fault) :
    updateAll h (before ++ d :: after) s = ((s'.update h d).1, .error fault) := by
  induction before generalizing s with
  | nil =>
    cases hbefore
    rw [List.nil_append, updateAll]
    split <;> rename_i heq <;> rw [heq] at hfail <;> cases hfail
    rw [heq]
  | cons first rest ih =>
    rw [updateAll] at hbefore
    rw [List.cons_append, updateAll]
    split at hbefore
    · cases hbefore
    · exact ih hbefore

/-- An event that fails leaves cache and log as they were. It leaves the documents as they were
exactly if its document was the current one already; from then on, when the documents are validated
anew and this one fails again, nothing is validated or published that comes after it. -/
theorem update_error (hu : 0 ≤ s.pipeline.cache.capacity)
    (hfail : (s.update h d).2 = .error fault) :
    OnlyRecords d s (s.update h d).1 ∧
      ((s.update h d).1.documents = s.documents ↔ s.documents.get? d.uri = some d) ∧
      ∀ h' path before after s' fault',
        (s.update h d).1.documents.values = before ++ d :: after →
        updateAll h' before ((s.update h d).1.switched path) = (s', .ok ()) →
        (s'.update h' d).2 = .error fault' →
          ((s.update h d).1.reconfigure h' path).2 = .error fault' ∧
            ((s.update h d).1.reconfigure h' path).1.published = s'.published := by
  have honly := update_onlyRecords hu hfail
  refine ⟨honly, ?_, fun h' path before after s' fault' hdocs hbefore hagain => ?_⟩
  · rw [honly.documents]
    exact OrderedMap.put_eq_self_iff
  · have hsame := (update_same hu h d).trans (.switched _ path)
    have hsame' := hsame.trans (updateAll_same (hsame.capacity ▸ hu) h' before)
    rw [hbefore] at hsame'
    rw [reconfigure_eq, hdocs, updateAll_stops hbefore hagain]
    exact ⟨rfl, (update_onlyRecords (hsame'.capacity ▸ hu) hagain).published⟩

/-- A document that cannot be indexed comes a second time: that event changes nothing. -/
theorem update_error_again :
    let h : Host := { fs := {}, searchFolders := [], salt := "" }
    let d : Document := ⟨"file:///ws/a.bn", 1, "import \"/\""⟩
    ∃ s₀, create h {} none (some {}) true = .ok s₀ ∧
      let s := (s₀.update h d).1
      0 ≤ s.pipeline.cache.capacity ∧ (s.update h d).2.toOption = none ∧
        OnlyRecords d s (s.update h d).1 ∧ (s.update h d).1.documents = s.documents := by
  intro h d
  obtain ⟨s₀, hs⟩ : ∃ s₀, create h {} none (some {}) true = .ok s₀ := ⟨_, rfl⟩
  refine ⟨s₀, hs, ?_⟩
  intro s
  have hu : 0 ≤ s.pipeline.cache.capacity := by
    cases hs
    decide +kernel
  have hfail : (s.update h d).2.toOption = none := by
    cases hs
    decide +kernel
  have hopen : s.documents.get? d.uri = some d := by
    cases hs
    decide +kernel
  cases hresult : (s.update h d).2 with
  | ok ds =>
    rw [hresult] at hfail
    cases hfail
  | error fault =>
    obtain ⟨honly, hiff, -⟩ := update_error hu hresult
    exact ⟨hu, rfl, honly, hiff.2 hopen⟩

/-- Two documents are open. The first changes to a text that cannot be indexed: the event fails, but
the text is recorded. Until then the documents could be validated anew; now the first one fails and
nothing is published about the second. -/
theorem update_error_recorded :
    let h : Host := { fs := {}, searchFolders := [], salt := "" }
    let first := "file:///ws/a.bn"
    let second := "file:///ws/b.bn"
    ∃ s₀, create h {} none (some {}) true = .ok s₀ ∧
      let s := ((s₀.update h ⟨first, 1, ""⟩).1.update h ⟨second, 1, "x"⟩).1
      let failed := s.update h ⟨first, 2, "import \"/\""⟩
      failed.2.toOption = none ∧ failed.1.documents ≠ s.documents ∧
        (s.reconfigure h none).2.toOption = some () ∧
        (failed.1.reconfigure h none).2.toOption = none ∧
        (failed.1.reconfigure h none).1.published = failed.1.published := by
  intro h first second
  refine ⟨_, rfl, ?_⟩
  decide +kernel

end BurnLens.Session
