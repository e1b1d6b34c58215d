import BurnLens.Proofs.Report.Lines

/-!
# Reports that lead to nothing

A report without diagnostics would say no more than that the input has ended, if a line counted as
understood only when it is reported. But a line that a grammar reads and that is `isMuted` counts
too, and nothing is said for the lines beside it that no grammar reads: they are swallowed
(`Swallows`). A notice of the end of the input that is recognised before the grammars does not have
that effect. `parse_empty_iff` tells exactly when a report leads to nothing and where each line
goes that no grammar reads.
-/

namespace BurnLens

open Text

/-! ### Notices about the end of the input -/

namespace Notice

/-- The notice is read, but nothing is said about it. -/
def isMuted : Notice → Bool
  | .kinded _ _ _ message => Report.isSuppressed message
  | .placed _ message _ _ => Report.isSuppressed message
  | _ => false

theorem bind_ne_nil {α β ε : Type} {x : Except ε α} {f : α → Except ε (List β)}
    (h : ∀ a, f a ≠ .ok []) : (x >>= f) ≠ .ok [] := by
  intro heq
  obtain ⟨a, -, ha⟩ := bind_eq_ok.1 heq
  exact h a ha

theorem pure_cons_ne_nil {β ε : Type} (b : β) (bs : List β) :
    (pure (b :: bs) : Except ε (List β)) ≠ .ok [] := by
  intro heq
  cases heq

theorem diagnostics_eq_nil_iff {lines : Report.SourceLines} {n : Notice} :
    n.diagnostics lines = .ok [] ↔ n.isMuted = true := by
  cases n with
  | kinded kind line column message =>
    rw [isMuted]
    by_cases hs : Report.isSuppressed message = true
    · refine iff_of_true ?_ hs
      rw [diagnostics, if_pos hs]
      rfl
    · refine iff_of_false ?_ hs
      simp only [diagnostics, if_neg hs]
      exact bind_ne_nil fun _ => bind_ne_nil fun _ => pure_cons_ne_nil _ _
  | placed level message line column =>
    rw [isMuted]
    by_cases hs : Report.isSuppressed message = true
    · refine iff_of_true ?_ hs
      rw [diagnostics, if_pos hs]
      rfl
    · refine iff_of_false ?_ hs
      simp only [diagnostics, if_neg hs]
      refine bind_ne_nil fun _ => ?_
      cases column <;> exact bind_ne_nil fun _ => pure_cons_ne_nil _ _
  | coupled | typeMismatch =>
    simp only [diagnostics, isMuted, Bool.false_eq_true, iff_false]
    exact bind_ne_nil fun _ => bind_ne_nil fun _ => bind_ne_nil fun _ => pure_cons_ne_nil _ _
  | expected =>
    simp only [diagnostics, isMuted, Bool.false_eq_true, iff_false]
    exact bind_ne_nil fun _ => pure_cons_ne_nil _ _
  | _ =>
    simp only [diagnostics, isMuted, Bool.false_eq_true, iff_false]
    exact bind_ne_nil fun _ => bind_ne_nil fun _ => pure_cons_ne_nil _ _

end Notice

namespace Report

theorem mapM_flatten_eq_nil_iff {α β ε : Type} {f : α → Except ε (List β)} {xs : List α} :
    (∃ yss, xs.mapM f = .ok yss ∧ yss.flatten = []) ↔ ∀ x ∈ xs, f x = .ok [] := by
  induction xs with
  | nil => exact ⟨fun _ _ h => (nomatch h), fun _ => ⟨[], rfl, rfl⟩⟩
  | cons x xs ih =>
    rw [List.forall_mem_cons, ← ih]
    constructor
    · rintro ⟨yss, h, hflat⟩
      rw [List.mapM_cons] at h
      obtain ⟨ys, hys, h⟩ := bind_eq_ok.1 h
      obtain ⟨zss, hzss, h⟩ := bind_eq_ok.1 h
      cases h
      obtain ⟨rfl, hrest⟩ := List.append_eq_nil_iff.1 hflat
      exact ⟨hys, zss, hzss, hrest⟩
    · rintro ⟨hx, yss, hyss, hflat⟩
      refine ⟨[] :: yss, ?_, hflat⟩
      rw [List.mapM_cons]
      exact bind_eq_ok.2 ⟨[], hx, bind_eq_ok.2 ⟨yss, hyss, rfl⟩⟩

theorem understood_eq_nil_iff {lines : SourceLines} {news : List (List Char)} :
    understood lines news = .ok [] ↔
      ∀ l ∈ news, ∀ n, Notice.read? l = some n → n.isMuted = true := by
  have hmapM : understood lines news = .ok [] ↔ ∃ dss,
      (news.filterMap Notice.read?).mapM (Notice.diagnostics lines) = .ok dss ∧
        dss.flatten = [] := by
    constructor
    · intro h
      obtain ⟨dss, hdss, hflat⟩ := bind_eq_ok.1 h
      exact ⟨dss, hdss, Except.ok.inj hflat⟩
    · rintro ⟨dss, hdss, hflat⟩
      exact bind_eq_ok.2 ⟨dss, hdss, congrArg Except.ok hflat⟩
  rw [hmapM, mapM_flatten_eq_nil_iff]
  simp only [Notice.diagnostics_eq_nil_iff, List.mem_filterMap]
  constructor
  · intro h l hl n hn
    exact h n ⟨l, hl, hn⟩
  · rintro h n ⟨l, hl, hn⟩
    exact h l hl n hn

/-! ### What becomes of a line -/

/-- The lines of a report that are not blank, trimmed. -/
def spoken (output : List Char) : List (List Char) :=
  ((reportLines output).map trim).filter fun l => !l.isEmpty

/-- The line says no more than that the input has ended. -/
def SaysEnd (l : List Char) : Prop :=
  endOfInput <:+: l ∨ ∃ n, Notice.read? l = some n ∧ n.isMuted = true

/-- All that is understood is muted, and a line beside it is not understood. -/
structure Swallows (output : String) : Prop where
  heard : Heard output
  muted : ∀ l ∈ newsLines output.toList, ∀ n, Notice.read? l = some n → n.isMuted = true
  beside : ∃ l ∈ newsLines output.toList, Notice.read? l = none

theorem mem_newsLines_iff {l cs : List Char} :
    l ∈ newsLines cs ↔ l ∈ spoken cs ∧ ¬ endOfInput <:+: l := by
  rw [← occursIn_iff, newsLines, spoken, List.mem_filter, List.mem_filter]
  simp [and_assoc]

theorem parse_of_not_heard {output : String} (h : ¬ Heard output) (text : String) :
    parse output text = if newsLines output.toList = [] then .ok []
      else .ok [onLine 0 0 1 (joinWith '\n' (newsLines output.toList))] := by
  unfold parse
  dsimp only
  rw [if_neg fun hany => h (List.any_eq_true.1 hany)]
  simp [List.isEmpty_iff]

theorem parse_eq_nil_of_not_heard {output text : String} (h : ¬ Heard output) :
    parse output text = .ok [] ↔ newsLines output.toList = [] := by
  rw [parse_of_not_heard h]
  split
  next hnil => exact iff_of_true rfl hnil
  next hnews => exact iff_of_false nofun hnews

theorem read?_eq_none {output : String} (h : ¬ Heard output) :
    ∀ l ∈ newsLines output.toList, Notice.read? l = none := by
  intro l hl
  by_contra hread
  exact h ⟨l, hl, Option.isSome_iff_ne_none.2 hread⟩

/-- Among the lines that reach the grammars, only muted ones say that the input has ended. -/
theorem forall_saysEnd_iff {cs : List Char} : (∀ l ∈ spoken cs, SaysEnd l) ↔
    ∀ l ∈ newsLines cs, ∃ n, Notice.read? l = some n ∧ n.isMuted = true := by
  constructor
  · intro h l hl
    obtain ⟨hl, hend⟩ := mem_newsLines_iff.1 hl
    exact (h l hl).resolve_left hend
  · intro h l hl
    by_cases hend : endOfInput <:+: l
    · exact .inl hend
    · exact .inr (h l (mem_newsLines_iff.2 ⟨hl, hend⟩))

theorem parse_eq_nil_iff {output text : String} :
    parse output text = .ok [] ↔
      (∀ l ∈ spoken output.toList, SaysEnd l) ∨ Swallows output := by
  rw [forall_saysEnd_iff]
  by_cases hheard : Heard output
  · rw [parse_of_heard hheard, understood_eq_nil_iff]
    constructor
    · intro hmuted
      by_cases hbeside : ∃ l ∈ newsLines output.toList, Notice.read? l = none
      · exact .inr ⟨hheard, hmuted, hbeside⟩
      · left
        intro l hl
        obtain ⟨n, hn⟩ := Option.ne_none_iff_exists'.1 fun h => hbeside ⟨l, hl, h⟩
        exact ⟨n, hn, hmuted l hl n hn⟩
    · rintro (h | h)
      · intro l hl n hn
        obtain ⟨n', hn', hmuted⟩ := h l hl
        obtain rfl : n' = n := Option.some.inj (hn'.symm.trans hn)
        exact hmuted
      · exact h.muted
  · rw [parse_eq_nil_of_not_heard hheard]
    constructor
    · intro hnil
      left
      rw [hnil]
      exact fun _ hl => (nomatch hl)
    · rintro (h | h)
      · refine List.eq_nil_iff_forall_not_mem.2 fun l hl => ?_
        obtain ⟨n, hn, -⟩ := h l hl
        exact Option.some_ne_none n (hn.symm.trans (read?_eq_none hheard l hl))
      · exact absurd h.heard hheard

/-- A report leads to nothing iff each of its lines says that the input has ended, or it swallows
one that does not. A line that no grammar reads is part of the only diagnostic, unless others are
reported or it is swallowed. -/
theorem parse_empty_iff (output text : String) :
    (parse output text = .ok [] ↔
      (∀ l ∈ spoken output.toList, SaysEnd l) ∨ Swallows output) ∧
    ∀ ds, parse output text = .ok ds → ∀ l ∈ spoken output.toList, ¬ endOfInput <:+: l →
      Notice.read? l = none →
      (ds = [] ∧ Swallows output) ∨ (ds ≠ [] ∧ Heard output) ∨
        ∃ message, ds = [onLine 0 0 1 message] ∧ l <:+: message := by
  refine ⟨parse_eq_nil_iff, ?_⟩
  intro ds hds l hl hend hread
  have hnews : l ∈ newsLines output.toList := mem_newsLines_iff.2 ⟨hl, hend⟩
  by_cases hheard : Heard output
  · by_cases hnil : ds = []
    · subst hnil
      left
      refine ⟨rfl, (parse_eq_nil_iff.1 hds).resolve_left fun h => ?_⟩
      obtain ⟨n, hn, -⟩ := forall_saysEnd_iff.1 h l hnews
      exact Option.some_ne_none n (hn.symm.trans hread)
    · exact .inr (.inl ⟨hnil, hheard⟩)
  · right
    right
    rw [parse_of_not_heard hheard, if_neg (List.ne_nil_of_mem hnews)] at hds
    cases hds
    exact ⟨_, rfl, infix_joinWith '\n' hnews⟩

/-- Nothing is understood, and the only diagnostic holds both lines that are not about the end. -/
theorem parse_empty_iff_generic :
    let output := "error reading input: EOF\nsegmentation fault\ncore dumped"
    ∃ message, parse output "var a" = .ok [onLine 0 0 1 message] ∧
      "core dumped".toList <:+: message := by
  intro output
  have hparse : parse output "var a" =
      .ok [onLine 0 0 1 "segmentation fault\ncore dumped".toList] := by decide +kernel
  rcases (parse_empty_iff output "var a").2 _ hparse "core dumped".toList (by decide +kernel)
    (not_infix_of_occursIn (by decide)) (by decide +kernel) with ⟨h, -⟩ | ⟨-, h⟩ | h
  · cases h
  · exact absurd h (by decide +kernel)
  · obtain ⟨message, hmessage, hl⟩ := h
    exact ⟨message, by rw [hparse, hmessage], hl⟩

/-- A notice that is read and muted takes the line beside it along. -/
theorem parse_swallows :
    let output := "runtime error at line 1, column 1: unexpected EOF\nsegmentation fault"
    parse output "var a" = .ok [] ∧ "segmentation fault".toList ∈ spoken output.toList ∧
      ¬ SaysEnd "segmentation fault".toList := by
  intro output
  refine ⟨by decide +kernel, by decide +kernel, ?_⟩
  rintro (h | ⟨n, hn, -⟩)
  · exact absurd (occursIn_iff.2 h) (by decide)
  · have hnone : Notice.read? "segmentation fault".toList = none := by decide +kernel
    rw [hnone] at hn
    cases hn

end Report

end BurnLens
