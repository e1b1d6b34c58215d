import BurnLens.Proofs.Session.Workbench

/-!
# What overlapping passes publish

A publication with a version is the notice of a document that has the URI and the version of the one
that is open. Mostly it is the open document itself, but a pass that ends and a cache that is asked
know documents by their version only: they may announce another document in the place of the open
one (`Announces`). A run is `UpToDate` if what it publishes is at each time the notice of the open
document. `upToDate_of_announces`: what can go wrong goes wrong where a step announces.
-/

namespace BurnLens.Workbench
variable {s₀ : Session} {g : Checker → Answers} {events : List Event} {w w' : Workbench}

/-- The step publishes about the open document `d` what was found in `p`, a document that came with
the same URI and version. -/
def Announces (w : Workbench) (g : Checker → Answers) : Step → Document → Document → Prop
  | .tell (.update _ new), d, p => new = d ∧ w.Recalls g d p
  | .finish h place, d, p => ∃ task, w.waiting[place]? = some task ∧ task.pass.document = p ∧
      w.Replies h task.pass ∧ w.session.documents.get? p.uri = some d ∧ d.version = p.version
  | _, _, _ => False

namespace Announces
variable {st : Step} {d p : Document}

theorem same (ha : w.Announces g st d p) (hi : Sound s₀ g events w) :
    p.uri = d.uri ∧ p.version = d.version := by
  cases st with
  | tell e =>
    cases e with
    | update h new =>
      obtain ⟨-, e, -, -, huri, hversion, -⟩ := ha
      exact ⟨huri, hversion⟩
    | _ => exact ha.elim
  | finish h place =>
    obtain ⟨task, -, -, -, hd, hversion⟩ := ha
    rw [hi.documents] at hd
    exact ⟨(held_mem hd).1.symm, hversion.symm⟩

theorem held (ha : w.Announces g st d p) (hi : Sound s₀ g events w) :
    held d.uri (events ++ st.event?.toList) = some d := by
  cases st with
  | tell e =>
    cases e with
    | update h new =>
      obtain ⟨rfl, -⟩ := ha
      simp [Step.event?, held_concat, Event.after]
    | _ => exact ha.elim
  | finish h place =>
    obtain ⟨task, -, -, -, hd, -⟩ := ha
    rw [hi.documents] at hd
    simpa [Step.event?, (held_mem hd).1] using hd

/-- Within the time a document is open, no version of it stands in for another. -/
theorem eq_of_since (ha : w.Announces g st d p) (hi : Sound s₀ g events w)
    (hv : VersionsIncrease (events ++ st.event?.toList)) (hp : p ∈ since p.uri events) :
    p = d := by
  obtain ⟨huri, hversion⟩ := ha.same hi
  cases st with
  | tell e =>
    cases e with
    | update h new =>
      obtain ⟨rfl, -⟩ := ha
      obtain ⟨d', hd', hle⟩ := VersionsIncrease.since hv.init hp
      have hlt : d'.version < new.version := hv.last (huri ▸ hd')
      rcases hle with rfl | hlt'
      · omega
      · omega
    | _ => exact ha.elim
  | finish h place =>
    obtain ⟨task, -, -, -, hd, -⟩ := ha
    rw [hi.documents] at hd
    obtain ⟨d', hd', hle⟩ :=
      VersionsIncrease.since (by simpa [Step.event?] using hv : VersionsIncrease events) hp
    cases hd.symm.trans hd'
    rcases hle with heq | hlt
    · exact heq
    · omega

end Announces

/-- A step publishes nothing with a version but the notice of the document that is open, or one that
it announces in its place. -/
theorem Moves.log {st : Step} (hm : Moves (s₀.notice g) g events w w' st)
    (hi : Sound s₀ g events w) :
    ∃ new, w'.session.published = w.session.published ++ new ∧
      ∀ q ∈ new, q.version ≠ none → ∃ d p, q = s₀.notice g p ∧
        BurnLens.held d.uri (events ++ st.event?.toList) = some d ∧
        (p = d ∨ p ∈ received events ∧ w.Announces g st d p) := by
  cases hm with
  | rejects h d fault hmiss hw => exact ⟨[], by simp [hw.published], by simp⟩
  | waits h task hmiss hw => exact ⟨[], by simp [hw.published], by simp⟩
  | settles h d hmiss hw =>
    refine ⟨_, hw.published, fun q hq _ => ⟨d, d, List.mem_singleton.1 hq, ?_, .inl rfl⟩⟩
    simp [Step.event?, held_concat, Event.after]
  | recalls h d p hp hrecalls hw =>
    have ha : w.Announces g (.tell (.update h d)) d p := ⟨rfl, hrecalls⟩
    exact ⟨_, hw.published, fun q hq _ =>
      ⟨d, p, List.mem_singleton.1 hq, ha.held hi, .inr ⟨hp, ha⟩⟩⟩
  | closes uri hw =>
    refine ⟨_, hw.published, fun q hq hversion => absurd ?_ hversion⟩
    rw [List.mem_singleton.1 hq]
  | idles h place hnone hw => exact ⟨[], by simp [hw.published], by simp⟩
  | fails h place task fault htask hreply hw => exact ⟨[], by simp [hw.published], by simp⟩
  | drops h place task htask hreply hold hw => exact ⟨[], by simp [hw.published], by simp⟩
  | lands h place task d htask hreply hd hversion hw =>
    have ha : w.Announces g (.finish h place) d task.pass.document :=
      ⟨task, htask, rfl, hreply, by rw [hi.documents]; exact hd, hversion⟩
    exact ⟨_, hw.published, fun q hq _ => ⟨d, _, List.mem_singleton.1 hq, ha.held hi,
      .inr ⟨(hi.waiting task (List.mem_of_getElem? htask)).document, ha⟩⟩⟩

theorem Moves.published_of_announces {st : Step} {d p : Document}
    (hm : Moves (s₀.notice g) g events w w' st) (hi : Sound s₀ g events w)
    (ha : w.Announces g st d p) :
    w'.session.published = w.session.published ++ [s₀.notice g p] := by
  cases hm with
  | rejects h d' fault hmiss hw =>
    obtain ⟨rfl, e, hentry, hversion, -⟩ := ha
    exact absurd hversion (hmiss e hentry)
  | waits h task hmiss hw =>
    obtain ⟨rfl, e, hentry, hversion, -⟩ := ha
    exact absurd hversion (hmiss e hentry)
  | settles h d' hmiss hw =>
    obtain ⟨rfl, e, hentry, hversion, -⟩ := ha
    exact absurd hversion (hmiss e hentry)
  | recalls h d' p' hp hrecalls hw =>
    obtain ⟨rfl, e, hentry, -, huri, hversion, hfound⟩ := ha
    obtain ⟨e', hentry', -, huri', hversion', hfound'⟩ := hrecalls
    cases hentry.symm.trans hentry'
    rw [hi.answers] at hfound hfound'
    rw [hw.published, Session.notice, Session.notice, huri, huri', hversion, hversion', ← hfound,
      ← hfound']
  | closes uri hw => exact ha.elim
  | idles h place hnone hw =>
    obtain ⟨task, htask, -⟩ := ha
    cases hnone.symm.trans htask
  | fails h place task fault htask hreply hw =>
    obtain ⟨task', htask', -, hok, -⟩ := ha
    cases htask.symm.trans htask'
    exact absurd hok hreply
  | drops h place task htask hreply hold hw =>
    obtain ⟨task', htask', rfl, -, hd, hversion⟩ := ha
    cases htask.symm.trans htask'
    rw [hi.documents] at hd
    exact absurd hversion (hold d hd)
  | lands h place task d' htask hreply hd hversion hw =>
    obtain ⟨task', htask', rfl, -⟩ := ha
    cases htask.symm.trans htask'
    exact hw.published

/-- The publications of a run with a version are, each at its time, the notices of the documents
that are open. -/
def UpToDate (s₀ : Session) (g : Checker → Answers) (steps : List Step) : Prop :=
  ∀ before st after, steps = before ++ st :: after →
    ∃ new, ((Workbench.new s₀).run (before ++ [st])).session.published =
        ((Workbench.new s₀).run before).session.published ++ new ∧
      ∀ q ∈ new, q.version ≠ none →
        ∃ d, held q.uri (told (before ++ [st])) = some d ∧ q = s₀.notice g d

/-- A run is up to date if no notice announced in the place of another differs from it. -/
theorem upToDate_of_announces {settings : Settings} {steps : List Step}
    (hf : Session.Fresh settings s₀) (hg : s₀.RepliesBy (stepHosts steps) g)
    (hedit : ∀ e ∈ told steps, e.IsEdit)
    (hsame : ∀ before st after, steps = before ++ st :: after → ∀ d p,
      ((new s₀).run before).Announces g st d p → p ∈ received (told before) →
      s₀.notice g p = s₀.notice g d) : UpToDate s₀ g steps := by
  intro before st after heq
  have hi := run_sound hf hg hedit before _ heq
  obtain ⟨new, hpublished, hnew⟩ := (run_moves hf hg hedit heq).log hi
  refine ⟨new, hpublished, fun q hq hversion => ?_⟩
  obtain ⟨d, p, hqp, hd, hpd⟩ := hnew q hq hversion
  have hqd : q = s₀.notice g d := by
    rcases hpd with rfl | ⟨hp, ha⟩
    · exact hqp
    · exact hqp.trans (hsame before st after heq d p ha hp)
  refine ⟨d, ?_, hqd⟩
  rw [told_concat, hqd]
  exact hd

end BurnLens.Workbench
