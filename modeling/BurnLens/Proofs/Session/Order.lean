import Mathlib.Data.List.Perm.Basic
import BurnLens.Proofs.Session.Announce

/-!
# Overlapping passes publish in the order of versions

As long as nothing is closed and the checker stays, `run_ordered`: whatever the order in which
passes end, the versions published of a document only increase, each was the newest when it was
published, and in the end the newest one has been published exactly once.

The invariant counts. `Workbench.tally` says how many passes over a version wait, have failed or
were published. Only a pass that was overtaken leaves the tally, so it stays at one for the newest
version, and a pass over the newest version that still waits has not been published before.
-/

namespace BurnLens

/-- The versions of a document that were published, in this order. -/
def versionsOf (uri : String) (log : List Publication) : List Int :=
  log.filterMap fun q => if q.uri = uri then q.version else none

theorem versionsOf_concat (uri : String) (log : List Publication) (q : Publication) :
    versionsOf uri (log ++ [q]) =
      versionsOf uri log ++ (if q.uri = uri then q.version else none).toList := by
  cases h : (if q.uri = uri then q.version else none) <;> simp [versionsOf, h]

namespace Workbench
variable {s₀ : Session} {g : Checker → Answers} {events : List Event} {w w' : Workbench}
  {d : Document} {u : String} {v : Int}

/-- The passes over a version that wait, that failed and that were published. -/
def tally (w : Workbench) (uri : String) (version : Int) : Nat :=
  w.waiting.countP (fun t => t.pass.document.uri = uri ∧ t.pass.document.version = version) +
    w.failed.countP (fun f => f.1.uri = uri ∧ f.1.version = version) +
    (versionsOf uri w.session.published).count version

def mark (d : Document) (uri : String) (version : Int) : Nat :=
  if d.uri = uri ∧ d.version = version then 1 else 0

theorem countP_eraseIdx {task : Task} {place : Nat} (htask : w.waiting[place]? = some task)
    (u : String) (v : Int) :
    (w.waiting.eraseIdx place).countP (fun t => t.pass.document.uri = u ∧
        t.pass.document.version = v) + mark task.pass.document u v =
      w.waiting.countP fun t => t.pass.document.uri = u ∧ t.pass.document.version = v := by
  obtain ⟨hplace, rfl⟩ := List.getElem?_eq_some_iff.1 htask
  have hperm := (List.getElem_cons_eraseIdx_perm hplace).countP_eq
    fun t => decide (t.pass.document.uri = u ∧ t.pass.document.version = v)
  rw [List.countP_cons] at hperm
  simpa [mark] using hperm

theorem count_versionsOf_notice (log : List Publication) (d : Document) (u : String) (v : Int) :
    (versionsOf u (log ++ [s₀.notice g d])).count v = (versionsOf u log).count v + mark d u v := by
  rw [versionsOf_concat, List.count_append, mark]
  by_cases hu : d.uri = u <;> by_cases hv : d.version = v <;> simp [Session.notice, hu, hv]

/-- Published versions increase, none is above the newest version, and the newest one is accounted
for once. -/
structure Ordered (events : List Event) (w : Workbench) : Prop where
  bounded : ∀ u v, 0 < w.tally u v → ∃ d, held u events = some d ∧ v ≤ d.version
  once : ∀ u d, held u events = some d → w.tally u d.version = 1
  increasing : ∀ u, (versionsOf u w.session.published).Pairwise (· < ·)

namespace Ordered

theorem lt_of_mem (ho : Ordered events w) (hv : v ∈ versionsOf u w.session.published)
    (hnew : ∀ d', held u events = some d' → d'.version < d.version) : v < d.version := by
  have hpos : 0 < (versionsOf u w.session.published).count v := List.count_pos_iff.2 hv
  obtain ⟨d', hd', hle⟩ := ho.bounded u v (by unfold tally; omega)
  exact Int.lt_of_le_of_lt hle (hnew d' hd')

/-- What was published is below a newest version whose pass still waits: the pass itself is the one
that is accounted for. -/
theorem lt_of_waiting {task : Task} {place : Nat} (ho : Ordered events w)
    (htask : w.waiting[place]? = some task) (hd : held task.pass.document.uri events = some d)
    (hversion : d.version = task.pass.document.version)
    (hv : v ∈ versionsOf task.pass.document.uri w.session.published) : v < d.version := by
  have hpos : 0 < (versionsOf task.pass.document.uri w.session.published).count v :=
    List.count_pos_iff.2 hv
  obtain ⟨d', hd', hle⟩ := ho.bounded task.pass.document.uri v (by unfold tally; omega)
  cases hd.symm.trans hd'
  have hne : v ≠ d.version := by
    rintro rfl
    have hone := ho.once _ d hd
    have hcount := countP_eraseIdx htask task.pass.document.uri d.version
    have hmark : mark task.pass.document task.pass.document.uri d.version = 1 :=
      if_pos ⟨rfl, hversion.symm⟩
    unfold tally at hone
    omega
  omega

theorem increasing_concat (ho : Ordered events w) (d : Document)
    (hlt : ∀ v ∈ versionsOf d.uri w.session.published, v < d.version) (u : String) :
    (versionsOf u (w.session.published ++ [s₀.notice g d])).Pairwise (· < ·) := by
  rw [versionsOf_concat]
  by_cases hu : d.uri = u
  · subst hu
    refine List.pairwise_append.2 ⟨ho.increasing d.uri, ?_, ?_⟩
    · simp [Session.notice]
    · simpa [Session.notice] using hlt
  · simpa [Session.notice, hu] using ho.increasing u

theorem arrive {h : Host} (ho : Ordered events w)
    (hnew : ∀ d', held d.uri events = some d' → d'.version < d.version)
    (htally : ∀ u v, w'.tally u v = w.tally u v + mark d u v)
    (hincreasing : ∀ u, (versionsOf u w'.session.published).Pairwise (· < ·)) :
    Ordered (events ++ [.update h d]) w' := by
  have hheld : ∀ u, held u (events ++ [.update h d]) =
      if d.uri = u then some d else held u events := fun u => held_concat u events _
  refine ⟨fun u v hpos => ?_, fun u d' hd' => ?_, hincreasing⟩
  · rw [hheld]
    rw [htally] at hpos
    by_cases hu : d.uri = u
    · rw [if_pos hu]
      refine ⟨d, rfl, ?_⟩
      by_cases hv : d.version = v
      · omega
      · have hold : 0 < w.tally u v := by simpa [mark, hv] using hpos
        obtain ⟨d', hd', hle⟩ := ho.bounded u v hold
        have hlt := hnew d' (hu ▸ hd')
        omega
    · rw [if_neg hu]
      exact ho.bounded u v (by simpa [mark, hu] using hpos)
  · rw [hheld] at hd'
    rw [htally]
    by_cases hu : d.uri = u
    · rw [if_pos hu] at hd'
      cases hd'
      -- the version is above all that came, so nothing was accounted for
      have hzero : w.tally u d.version = 0 := by
        rcases Nat.eq_zero_or_pos (w.tally u d.version) with h0 | hpos
        · exact h0
        · obtain ⟨d', hd', hle⟩ := ho.bounded u d.version hpos
          have hlt := hnew d' (hu ▸ hd')
          omega
      simp [hzero, mark, hu]
    · rw [if_neg hu] at hd'
      simpa [mark, hu] using ho.once u d' hd'

theorem keep (ho : Ordered events w) (htally : ∀ u v, w'.tally u v = w.tally u v)
    (hincreasing : ∀ u, (versionsOf u w'.session.published).Pairwise (· < ·)) :
    Ordered events w' where
  bounded u v hpos := ho.bounded u v (htally u v ▸ hpos)
  once u d hd := (htally u d.version).trans (ho.once u d hd)
  increasing := hincreasing

theorem drop (ho : Ordered events w) (htally : ∀ u v, w'.tally u v + mark d u v = w.tally u v)
    (hold : ∀ d', held d.uri events = some d' → d'.version ≠ d.version)
    (hpublished : w'.session.published = w.session.published) : Ordered events w' := by
  refine ⟨fun u v hpos => ho.bounded u v ?_, fun u d' hd' => ?_, ?_⟩
  · have := htally u v
    omega
  · have hmark : mark d u d'.version = 0 := by
      refine if_neg ?_
      rintro ⟨rfl, hversion⟩
      exact hold d' hd' hversion.symm
    have := htally u d'.version
    have := ho.once u d' hd'
    omega
  · rw [hpublished]
    exact ho.increasing

theorem step {st : Step} (ho : Ordered events w)
    (hm : Moves (s₀.notice g) g events w w' st)
    (hup : ∀ e ∈ events ++ st.event?.toList, e.IsUpdate)
    (hv : VersionsIncrease (events ++ st.event?.toList)) :
    Ordered (events ++ st.event?.toList) w' := by
  have hnew : ∀ h d, st = .tell (.update h d) →
      ∀ d', held d.uri events = some d' → d'.version < d.version := by
    rintro h d rfl d' hd'
    exact VersionsIncrease.last hv hd'
  cases hm with
  | rejects h d fault hmiss hw =>
    refine ho.arrive (hnew h d rfl) (fun u v => ?_) (hw.published ▸ ho.increasing)
    simp only [tally, hw.waiting, hw.failed, hw.published, List.countP_append,
      List.countP_singleton, mark, decide_eq_true_eq]
    omega
  | waits h task hmiss hw =>
    refine ho.arrive (hnew h _ rfl) (fun u v => ?_) (hw.published ▸ ho.increasing)
    simp only [tally, hw.waiting, hw.failed, hw.published, List.countP_append,
      List.countP_singleton, mark, decide_eq_true_eq]
    omega
  | settles h d hmiss hw =>
    refine ho.arrive (hnew h d rfl) (fun u v => ?_) (fun u => ?_)
    · simp only [tally, hw.waiting, hw.failed, hw.published, count_versionsOf_notice]
      omega
    · rw [hw.published]
      exact ho.increasing_concat d (fun v hv' => ho.lt_of_mem hv' (hnew h d rfl)) u
  | recalls h d p hp hrecalls hw =>
    -- whatever is cached is of an older version
    obtain ⟨e, -, -, huri, hversion, -⟩ := hrecalls
    have hsince := mem_since (fun e he => hup e (List.mem_append_left _ he)) hp
    obtain ⟨d', hd', hle⟩ := VersionsIncrease.since hv.init hsince
    have hlt := hnew h d rfl d' (huri ▸ hd')
    rcases hle with rfl | hlt'
    · omega
    · omega
  | closes uri hw => exact (hup (.close uri) (by simp [Step.event?])).elim
  | idles h place hnone hw =>
    simp only [Step.event?, Option.toList_none, List.append_nil]
    refine ho.keep (fun u v => ?_) (hw.published ▸ ho.increasing)
    simp only [tally, hw.waiting, hw.failed, hw.published]
  | fails h place task fault htask hreply hw =>
    simp only [Step.event?, Option.toList_none, List.append_nil]
    refine ho.keep (fun u v => ?_) (hw.published ▸ ho.increasing)
    have hcount := countP_eraseIdx htask u v
    simp only [tally, hw.waiting, hw.failed, hw.published, List.countP_append,
      List.countP_singleton, decide_eq_true_eq]
    simp only [mark] at hcount
    omega
  | drops h place task htask hreply hold hw =>
    simp only [Step.event?, Option.toList_none, List.append_nil]
    refine ho.drop (fun u v => ?_) hold hw.published
    have hcount := countP_eraseIdx htask u v
    simp only [tally, hw.waiting, hw.failed, hw.published]
    omega
  | lands h place task d htask hreply hd hversion hw =>
    simp only [Step.event?, Option.toList_none, List.append_nil]
    refine ho.keep (fun u v => ?_) (fun u => ?_)
    · have hcount := countP_eraseIdx htask u v
      simp only [tally, hw.waiting, hw.failed, hw.published, count_versionsOf_notice]
      omega
    · rw [hw.published]
      exact ho.increasing_concat _
        (fun v hmem => hversion ▸ ho.lt_of_waiting htask hd hversion hmem) u

end Ordered

/-- Whatever the order in which passes end, on a new session without closes: the versions published
of a document increase; each publication is the notice of the newest version that came; and when no
pass waits any more, the newest version has been published exactly once, unless its pass failed. -/
theorem run_ordered {h₀ : Host} {settings : Settings} {root : Option Path}
    {standIn : Option StandIn} {steps : List Step}
    (hs : Session.create h₀ settings root standIn true = .ok s₀)
    (hg : s₀.RepliesBy (stepHosts steps) g) (hup : ∀ e ∈ told steps, e.IsUpdate)
    (hv : VersionsIncrease (told steps)) :
    (∀ u, (versionsOf u ((new s₀).run steps).session.published).Pairwise (· < ·)) ∧
      UpToDate s₀ g steps ∧
      (((new s₀).run steps).waiting = [] → ∀ u d, held u (told steps) = some d →
        (∀ f ∈ ((new s₀).run steps).failed, f.1.uri = u → f.1.version ≠ d.version) →
        (versionsOf u ((new s₀).run steps).session.published).count d.version = 1) := by
  have hf := Session.create_fresh hs
  have hedit : ∀ e ∈ told steps, e.IsEdit := fun e he => (hup e he).isEdit
  have hordered : ∀ before after, steps = before ++ after →
      Ordered (told before) ((new s₀).run before) := by
    refine run_induction ?_ fun before st after heq ho => ?_
    · refine ⟨fun u v hpos => ?_, fun u d hd => ?_, fun u => ?_⟩
      · simp [tally, run, new, versionsOf, hf.published] at hpos
      · simp [told, held_nil] at hd
      · simp [run, new, versionsOf, hf.published]
    · have hm := run_moves hf hg hedit heq
      rw [heq, told_append_cons] at hup hv
      rw [told_concat]
      exact ho.step hm (fun e he => hup e (List.mem_append_left _ he)) hv.take
  have ho := hordered steps [] (by simp)
  refine ⟨ho.increasing, upToDate_of_announces hf hg hedit ?_, ?_⟩
  · intro before st after heq d p ha hp
    have hi := run_sound hf hg hedit before _ heq
    rw [heq, told_append_cons] at hup hv
    have hsince := mem_since (fun e he => hup e (by simp [he])) hp
    rw [ha.eq_of_since hi hv.take hsince]
  · intro hwaiting u d hd hfailed
    have hone := ho.once u d hd
    have hzero : ((new s₀).run steps).failed.countP
        (fun f => f.1.uri = u ∧ f.1.version = d.version) = 0 := by
      rw [List.countP_eq_zero]
      intro f hmem
      simpa using hfailed f hmem
    rw [tally, hwaiting, List.countP_nil, hzero] at hone
    omega

/-- Two versions of one document and another document wait at once; the passes end with the newer
version first and the older one last. -/
theorem run_ordered_reversed :
    let h : Host := { fs := {}, searchFolders := [], salt := "" }
    let standIn : StandIn :=
      { computed := fun text _ => some [⟨.error, .onLine 0 0 1, text, .compiler none, none⟩] }
    let steps : List Step := [.tell (.update h ⟨"file:///a.bn", 1, "x"⟩),
      .tell (.update h ⟨"file:///b.bn", 7, "y"⟩), .tell (.update h ⟨"file:///a.bn", 2, ""⟩),
      .finish h 2, .finish h 1, .finish h 0]
    ∃ s₀ g, Session.create h {} none (some standIn) true = .ok s₀ ∧
      s₀.RepliesBy (stepHosts steps) g ∧ (∀ e ∈ told steps, e.IsUpdate) ∧
      VersionsIncrease (told steps) ∧ UpToDate s₀ g steps ∧
      ((new s₀).run steps).session.published.length = 2 ∧
      (versionsOf "file:///a.bn" ((new s₀).run steps).session.published).count 2 = 1 := by
  intro h standIn steps
  obtain ⟨s₀, hs⟩ : ∃ s₀, Session.create h {} none (some standIn) true = .ok s₀ := ⟨_, rfl⟩
  let g : Checker → Answers := fun checker text uri =>
    (s₀.pipeline.reply h checker text uri).toOption.getD []
  have hg : s₀.RepliesBy (stepHosts steps) g := by
    intro h' hh checker _ text uri ds hreply
    have hone : h' = h := by simpa [stepHosts, steps, Step.host?, Event.host?] using hh
    subst hone
    simp [g, hreply, Except.toOption]
  have hup : ∀ e ∈ told steps, e.IsUpdate := by simp [told, steps, Step.event?, Event.IsUpdate]
  have hv : VersionsIncrease (told steps) := by decide
  obtain ⟨-, hnew, honce⟩ := run_ordered hs hg hup hv
  have hend : ((new s₀).run steps).waiting.length = 0 ∧ ((new s₀).run steps).failed.length = 0 ∧
      ((new s₀).run steps).session.published.length = 2 := by
    cases hs
    decide +kernel
  refine ⟨s₀, g, hs, hg, hup, hv, hnew, hend.2.2, ?_⟩
  refine honce (List.length_eq_zero_iff.1 hend.1) "file:///a.bn" ⟨"file:///a.bn", 2, ""⟩ rfl ?_
  rw [List.length_eq_zero_iff.1 hend.2.1]
  simp

end Workbench

end BurnLens
