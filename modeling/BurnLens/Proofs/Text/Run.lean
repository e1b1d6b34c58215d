import Mathlib.Data.List.TakeWhile
import BurnLens.Text.Scan

/-!
# What the readers read

The pieces that recognisers are made of, told as the text they take: a reader that is given its own
text and something it cannot take behind it reads the one and leaves the other, and what a reader
has read stood in front of the rest.
-/

namespace BurnLens.Text
variable {rest : List Char}

theorem literal_append (w cs : List Char) : literal w (w ++ cs) = some cs :=
  literal_eq_some_iff.2 rfl

theorem blanks_cons_of_not {c : Char} (h : isBlank c = false) (cs : List Char) :
    blanks (c :: cs) = c :: cs := by
  simp [blanks, h]

theorem blanks_space (cs : List Char) : blanks (' ' :: cs) = blanks cs := rfl

theorem blanks_append {gap : List Char} (h : ∀ c ∈ gap, isBlank c = true) (cs : List Char) :
    blanks (gap ++ cs) = blanks cs :=
  List.dropWhile_append_of_pos h

theorem exists_blanks (cs : List Char) : ∃ gap, (∀ c ∈ gap, isBlank c = true) ∧
    cs = gap ++ blanks cs :=
  ⟨cs.takeWhile isBlank, fun _ hc => List.mem_takeWhile_imp hc,
    List.takeWhile_append_dropWhile.symm⟩

theorem blanks1_space (cs : List Char) : blanks1 (' ' :: cs) = some (blanks cs) := rfl

theorem blanks1_append {gap : List Char} (hne : gap ≠ []) (h : ∀ c ∈ gap, isBlank c = true)
    (cs : List Char) : blanks1 (gap ++ cs) = some (blanks cs) := by
  cases gap with
  | nil => exact absurd rfl hne
  | cons c gap =>
    rw [List.cons_append, blanks1, if_pos (h c List.mem_cons_self),
      blanks_append fun d hd => h d (List.mem_cons_of_mem _ hd)]

theorem exists_of_blanks1 {cs rest : List Char} (h : blanks1 cs = some rest) :
    ∃ gap, gap ≠ [] ∧ (∀ c ∈ gap, isBlank c = true) ∧ cs = gap ++ rest := by
  cases cs with
  | nil => cases h
  | cons c cs =>
    rw [blanks1] at h
    split at h
    next hc =>
      cases h
      refine ⟨c :: cs.takeWhile isBlank, List.cons_ne_nil _ _, ?_, ?_⟩
      · intro d hd
        rcases List.mem_cons.1 hd with rfl | hd
        · exact hc
        · exact List.mem_takeWhile_imp hd
      · rw [List.cons_append, blanks, List.takeWhile_append_dropWhile]
    next => cases h

/-- A run goes as far as its class. -/
theorem run_exact {p : Char → Bool} {w : List Char} (hw : ∀ c ∈ w, p c = true)
    (hrest : ∀ c ∈ rest.head?, p c = false) : run p (w ++ rest) = (w, rest) := by
  have hstop : rest.takeWhile p = [] ∧ rest.dropWhile p = rest := by
    cases rest with
    | nil => exact ⟨rfl, rfl⟩
    | cons c rest => simp [hrest c rfl]
  simp [run, List.takeWhile_append_of_pos hw, List.dropWhile_append_of_pos hw, hstop]

theorem run1_exact {p : Char → Bool} {w : List Char} (hne : w ≠ []) (hw : ∀ c ∈ w, p c = true)
    (hrest : ∀ c ∈ rest.head?, p c = false) : run1 p (w ++ rest) = some (w, rest) := by
  have hrun := run_exact hw hrest
  cases w with
  | nil => exact absurd rfl hne
  | cons c w =>
    rw [List.cons_append] at hrun ⊢
    rw [run1, if_pos (hw c List.mem_cons_self), hrun]

theorem head_dropWhile {p : Char → Bool} {cs : List Char} :
    ∀ c ∈ (cs.dropWhile p).head?, p c = false := by
  intro c hc
  have hnot := List.head?_dropWhile_not p cs
  rw [Option.mem_def] at hc
  simpa [hc] using hnot

/-- A character of a class starts a run. -/
theorem exists_run {p : Char → Bool} {c : Char} (hc : p c = true) (cs : List Char) :
    ∃ w rest, c :: cs = w ++ rest ∧ w ≠ [] ∧ (∀ d ∈ w, p d = true) ∧
      ∀ d ∈ rest.head?, p d = false :=
  ⟨(c :: cs).takeWhile p, (c :: cs).dropWhile p, List.takeWhile_append_dropWhile.symm,
    by simp [hc], fun _ hd => List.mem_takeWhile_imp hd, head_dropWhile⟩

theorem run_until {stop : Char} {cs : List Char} (h : stop ∉ cs) (rest : List Char) :
    run (· != stop) (cs ++ stop :: rest) = (cs, stop :: rest) :=
  run_exact (fun _ hc => bne_iff_ne.2 fun heq => h (heq ▸ hc)) (by simp)

/-- What stands in front of the first of a character is told by the whole text. -/
theorem eq_of_append_cons_eq {stop : Char} {a b cs ds : List Char} (hc : stop ∉ cs) (hd : stop ∉ ds)
    (h : cs ++ stop :: a = ds ++ stop :: b) : cs = ds ∧ a = b := by
  have hrun := congrArg (run (· != stop)) h
  rw [run_until hc, run_until hd] at hrun
  obtain ⟨hcs, hrest⟩ := Prod.mk.inj hrun
  exact ⟨hcs, (List.cons.inj hrest).2⟩

/-- A character stands behind a stretch without it, or further on. -/
theorem split_of_append_cons_eq {stop : Char} {cs ds a b : List Char} (hd : stop ∉ ds)
    (h : cs ++ stop :: a = ds ++ stop :: b) :
    (cs = ds ∧ a = b) ∨ ∃ cs', cs = ds ++ stop :: cs' ∧ cs' ++ stop :: a = b := by
  rcases List.append_eq_append_iff.1 h with ⟨s, rfl, hs⟩ | ⟨s, rfl, hs⟩
  · cases s with
    | nil => exact .inl ⟨(List.append_nil cs).symm, (List.cons.inj hs).2⟩
    | cons d s =>
      obtain ⟨rfl, -⟩ := List.cons.inj hs
      exact absurd (by simp) hd
  · cases s with
    | nil => exact .inl ⟨List.append_nil ds, (List.cons.inj hs).2.symm⟩
    | cons d s =>
      obtain ⟨rfl, hb⟩ := List.cons.inj hs
      exact .inr ⟨s, rfl, hb.symm⟩

/-- A character that a stretch does not have stands in front of it. -/
theorem exists_append_of_not_mem {stop : Char} {cs ds a b : List Char} (hd : stop ∉ ds)
    (h : cs ++ ds = a ++ stop :: b) : ∃ s, b = s ++ ds := by
  rcases List.append_eq_append_iff.1 h with ⟨s, -, hs⟩ | ⟨s, -, hs⟩
  · rw [hs] at hd
    exact absurd (by simp) hd
  · cases s with
    | nil =>
      rw [List.nil_append] at hs
      rw [← hs] at hd
      exact absurd List.mem_cons_self hd
    | cons d s => exact ⟨s, (List.cons.inj hs).2⟩

theorem run1_eq_some {p : Char → Bool} {cs w : List Char} (h : run1 p cs = some (w, rest)) :
    w ≠ [] ∧ (∀ c ∈ w, p c = true) ∧ cs = w ++ rest := by
  cases cs with
  | nil => cases h
  | cons c cs =>
    rw [run1] at h
    split at h
    next hc =>
      cases h
      refine ⟨?_, fun d hd => List.mem_takeWhile_imp hd, (run_append p (c :: cs)).symm⟩
      simp [hc]
    next => cases h

theorem oneOf_eq_some {words : List String} {cs rest : List Char} {w : String}
    (h : oneOf words cs = some (w, rest)) : w ∈ words ∧ cs = w.toList ++ rest := by
  obtain ⟨v, hv, h⟩ := List.exists_of_findSome?_eq_some h
  obtain ⟨r, hr, heq⟩ := Option.map_eq_some_iff.1 h
  cases heq
  exact ⟨hv, literal_eq_some_iff.1 hr⟩

end BurnLens.Text
