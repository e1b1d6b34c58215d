import BurnLens.Proofs.Session.Announce

/-!
# Documents that are closed and opened again

A pass can outlive its document. When a document is opened again its versions may start anew, and a
version is all that tells the passes and the cached findings of the one time from those of the
other. `run_upToDate_iff` says when that is enough: what is published is up to date if and only if
no step announces, in the place of the open document, another one that came before the last close
with the same version and has other things to report. It always is where no version comes with two
texts. `reopened_outdated` is the shortest run where it is not.
-/

namespace BurnLens

/-- The document came before the last close of its URI. -/
def Bygone (p : Document) (events : List Event) : Prop :=
  p ∈ received events ∧ p ∉ since p.uri events

namespace Workbench
variable {s₀ : Session} {g : Checker → Answers} {steps : List Step}

/-- In a run of edits, with versions that increase while a document is open: every publication with
a version is the notice of the document that is open if and only if every bygone document that is
announced in the place of an open one has the same notice. One text for each version is enough. -/
theorem run_upToDate_iff {h₀ : Host} {settings : Settings} {root : Option Path}
    {standIn : Option StandIn} (hs : Session.create h₀ settings root standIn true = .ok s₀)
    (hg : s₀.RepliesBy (stepHosts steps) g) (hedit : ∀ e ∈ told steps, e.IsEdit)
    (hv : VersionsIncrease (told steps)) :
    (UpToDate s₀ g steps ↔ ∀ before st after, steps = before ++ st :: after →
      ∀ d p, ((new s₀).run before).Announces g st d p → Bygone p (told before) →
        s₀.notice g p = s₀.notice g d) ∧
      (OneTextPerVersion (received (told steps)) → UpToDate s₀ g steps) := by
  have hf := Session.create_fresh hs
  refine ⟨⟨fun hup => ?_, fun hby => ?_⟩, fun hone => ?_⟩
  · intro before st after heq d p ha _
    have hi := run_sound hf hg hedit before _ heq
    obtain ⟨log, hpublished, hlog⟩ := hup before st after heq
    rw [(run_moves hf hg hedit heq).published_of_announces hi ha] at hpublished
    obtain rfl := List.append_cancel_left hpublished
    obtain ⟨d', hd', hnotice⟩ := hlog _ (List.mem_singleton.2 rfl) (by simp [Session.notice])
    have hd := ha.held hi
    rw [← (ha.same hi).1, ← told_concat] at hd
    cases hd.symm.trans hd'
    exact hnotice
  · refine upToDate_of_announces hf hg hedit fun before st after heq d p ha hp => ?_
    by_cases hsince : p ∈ since p.uri (told before)
    · have hi := run_sound hf hg hedit before _ heq
      rw [heq, told_append_cons] at hv
      rw [ha.eq_of_since hi hv.take hsince]
    · exact hby before st after heq d p ha ⟨hp, hsince⟩
  · refine upToDate_of_announces hf hg hedit fun before st after heq d p ha hp => ?_
    have hi := run_sound hf hg hedit before _ heq
    obtain ⟨huri, hversion⟩ := ha.same hi
    have hd := (held_mem (ha.held hi)).2
    have hsub : ∀ p' ∈ received (told before ++ st.event?.toList),
        p' ∈ received (told steps) := by
      intro p' hp'
      rw [heq, told_append_cons, received, List.filterMap_append]
      exact List.mem_append_left _ hp'
    have hp' : p ∈ received (told before ++ st.event?.toList) := by
      rw [received, List.filterMap_append]
      exact List.mem_append_left _ hp
    rw [hone.eq (hsub p hp') (hsub d hd) huri hversion]

/-- A document that is closed while its pass waits and comes back with the same version and text. -/
theorem run_upToDate_iff_same_text :
    let h : Host := { fs := {}, searchFolders := [], salt := "" }
    let d : Document := ⟨"file:///ws/main.bn", 1, "x"⟩
    let steps : List Step := [.tell (.update h d), .tell (.close d.uri), .tell (.update h d),
      .finish h 0, .tell (.update h ⟨d.uri, 2, ""⟩), .finish h 1]
    ∃ s₀ g, Session.create h {} (some (.ofString "/ws")) (some {}) true = .ok s₀ ∧
      s₀.RepliesBy (stepHosts steps) g ∧ (∀ e ∈ told steps, e.IsEdit) ∧
      VersionsIncrease (told steps) ∧ UpToDate s₀ g steps := by
  intro h d steps
  obtain ⟨s₀, hs⟩ : ∃ s₀, Session.create h {} (some (.ofString "/ws")) (some {}) true = .ok s₀ :=
    ⟨_, rfl⟩
  have hg : s₀.RepliesBy (stepHosts steps) fun _ _ _ => [] := by
    cases hs
    rintro h' - checker ⟨⟩ text uri ds ⟨⟩
    rfl
  have hedit : ∀ e ∈ told steps, e.IsEdit := by simp [told, steps, Step.event?, Event.IsEdit]
  have hv : VersionsIncrease (told steps) := by decide
  have hone : OneTextPerVersion (received (told steps)) := by
    unfold OneTextPerVersion
    decide
  exact ⟨s₀, _, hs, hg, hedit, hv, (run_upToDate_iff hs hg hedit hv).2 hone⟩

/-- A document that is closed while its pass waits and comes back with the same version but another
text: the old pass ends and what it found is published about the new text. -/
theorem reopened_outdated :
    let h : Host := { fs := {}, searchFolders := [], salt := "" }
    let uri := "file:///ws/main.bn"
    let steps : List Step := [.tell (.update h ⟨uri, 1, "x"⟩), .tell (.close uri),
      .tell (.update h ⟨uri, 1, ""⟩), .finish h 0]
    ∃ s₀ g, Session.create h {} (some (.ofString "/ws")) (some {}) true = .ok s₀ ∧
      s₀.RepliesBy (stepHosts steps) g ∧ (∀ e ∈ told steps, e.IsEdit) ∧
      VersionsIncrease (told steps) ∧ ¬ UpToDate s₀ g steps := by
  intro h uri steps
  obtain ⟨s₀, hs⟩ : ∃ s₀, Session.create h {} (some (.ofString "/ws")) (some {}) true = .ok s₀ :=
    ⟨_, rfl⟩
  have hg : s₀.RepliesBy (stepHosts steps) fun _ _ _ => [] := by
    cases hs
    rintro h' - checker ⟨⟩ text uri ds ⟨⟩
    rfl
  have hedit : ∀ e ∈ told steps, e.IsEdit := by simp [told, steps, Step.event?, Event.IsEdit]
  refine ⟨s₀, _, hs, hg, hedit, by decide, fun hup => ?_⟩
  obtain ⟨log, hlog, hnew⟩ := hup (steps.take 3) (.finish h 0) [] rfl
  have hbefore : ((new s₀).run (steps.take 3)).session.published = [⟨uri, none, []⟩] := by
    cases hs
    decide +kernel
  have hafter : ((new s₀).run steps).session.published = [⟨uri, none, []⟩, ⟨uri, some 1,
      [⟨.warning, .onLine 0 0 1, "Variable 'x' is used but not declared", .semantics,
        some Code.undeclaredVariable⟩]⟩] := by
    cases hs
    decide +kernel
  -- the new text is blameless
  have hopen : s₀.notice (fun _ _ _ => []) ⟨uri, 1, ""⟩ = ⟨uri, some 1, []⟩ := by
    cases hs
    decide +kernel
  rw [hbefore, show steps.take 3 ++ [.finish h 0] = steps from rfl, hafter] at hlog
  obtain rfl := (List.cons.inj hlog).2
  obtain ⟨d, hd, hnotice⟩ := hnew _ (List.mem_singleton.2 rfl) (by simp)
  cases hd
  rw [hopen] at hnotice
  cases hnotice

end Workbench

end BurnLens
