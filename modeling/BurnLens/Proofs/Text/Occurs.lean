import Mathlib.Data.List.Infix
import Mathlib.Data.List.TakeWhile
import BurnLens.Text.Cut

/-!
# Words inside a text

A word occurs in a text iff it is an infix of it (`occursIn_iff`). Two things keep an occurrence in
one piece: a character that the word does not have cannot lie inside it (`infix_append_cons_iff`),
and trimming takes nothing of a word that neither starts nor ends with white space
(`infix_trim_iff`). How much is trimmed off a text is told by its first and its last character that
is not white space.
-/

namespace BurnLens.Text

variable {w cs : List Char}

theorem occursIn_iff : occursIn w cs = true ↔ w <:+: cs := by
  induction cs with
  | nil => rw [occursIn, List.isEmpty_iff, List.infix_nil]
  | cons c cs ih =>
    rw [occursIn, Bool.or_eq_true, List.isPrefixOf_iff_prefix, ih, List.infix_cons_iff]

theorem not_infix_of_occursIn (h : occursIn w cs = false) : ¬ w <:+: cs := by
  rw [← occursIn_iff, h]
  exact Bool.false_ne_true

theorem prefix_of_prefix_append_cons {c : Char} (hc : c ∉ w) {a b : List Char}
    (h : w <+: a ++ c :: b) : w <+: a := by
  obtain ⟨t, ht⟩ := h
  rcases List.append_eq_append_iff.1 ht with ⟨s, rfl, -⟩ | ⟨s, rfl, hs⟩
  · exact List.prefix_append w s
  · cases s with
    | nil => simp
    | cons d s =>
      obtain ⟨rfl, -⟩ := List.cons_eq_cons.1 hs
      exact absurd (by simp) hc

/-- An occurrence lies on one side of a character that the word does not have. -/
theorem infix_append_cons_iff {c : Char} (hc : c ∉ w) {a b : List Char} :
    w <:+: a ++ c :: b ↔ w <:+: a ∨ w <:+: b := by
  constructor
  · intro h
    induction a with
    | nil =>
      rcases List.infix_cons_iff.1 h with h | h
      · exact .inl (prefix_of_prefix_append_cons hc (a := []) h).isInfix
      · exact .inr h
    | cons d a ih =>
      rcases List.infix_cons_iff.1 h with h | h
      · exact .inl (prefix_of_prefix_append_cons hc (a := d :: a) h).isInfix
      · exact (ih h).imp_left fun h => h.trans (List.suffix_cons d a).isInfix
  · rintro (h | h)
    · exact h.trans (List.prefix_append a (c :: b)).isInfix
    · exact h.trans ((List.suffix_cons c b).trans (List.suffix_append a (c :: b))).isInfix

theorem not_infix_of_mem {c : Char} (hw : c ∈ w) (hcs : c ∉ cs) : ¬ w <:+: cs :=
  fun h => hcs (h.subset hw)

theorem unbroken_of_any (h : cs.any isLineBreak = false) : ∀ c ∈ cs, isLineBreak c = false := by
  intro c hc
  rw [← Bool.not_eq_true]
  exact List.any_eq_false.1 h c hc

/-! ### Pieces between separators -/

theorem infix_joinWith (sep : Char) {p : List Char} {ps : List (List Char)} (hp : p ∈ ps) :
    p <:+: joinWith sep ps := by
  fun_induction joinWith sep ps with
  | case1 => cases hp
  | case2 q =>
    rw [List.mem_singleton.1 hp]
  | case3 q r ps ih =>
    rcases List.mem_cons.1 hp with rfl | hp
    · exact (List.prefix_append p _).isInfix
    · exact (ih hp).trans ((List.suffix_cons sep _).trans (List.suffix_append q _)).isInfix

theorem mem_of_mem_splitOn {sep c : Char} {p : List Char} (hp : p ∈ splitOn sep cs) (h : c ∈ p) :
    c ∈ cs := by
  rw [← joinWith_splitOn sep cs]
  exact (infix_joinWith sep hp).subset h

theorem mem_joinWith {sep c : Char} {ps : List (List Char)} (h : c ∈ joinWith sep ps) :
    c = sep ∨ ∃ p ∈ ps, c ∈ p := by
  fun_induction joinWith sep ps with
  | case1 => cases h
  | case2 p => exact .inr ⟨p, List.mem_singleton_self p, h⟩
  | case3 p q ps ih =>
    rcases List.mem_append.1 h with h | h
    · exact .inr ⟨p, List.mem_cons_self, h⟩
    · rcases List.mem_cons.1 h with rfl | h
      · exact .inl rfl
      · exact (ih h).imp_right fun ⟨r, hr, hc⟩ => ⟨r, List.mem_cons_of_mem _ hr, hc⟩

/-! ### White space around -/

/-- Nothing of a word lies in characters of a class that its first character is not in. -/
theorem infix_dropWhile_iff {p : Char → Bool} (hw : w.head?.any p = false) (hne : w ≠ []) :
    w <:+: cs.dropWhile p ↔ w <:+: cs := by
  constructor
  · intro h
    exact h.trans (List.dropWhile_suffix p).isInfix
  · intro h
    induction cs with
    | nil => exact h
    | cons c cs ih =>
      by_cases hc : p c = true
      · rw [List.dropWhile_cons_of_pos hc]
        rcases List.infix_cons_iff.1 h with h | h
        · cases w with
          | nil => exact absurd rfl hne
          | cons d w =>
            obtain ⟨rfl, -⟩ := List.cons_prefix_cons.1 h
            simp [hc] at hw
        · exact ih h
      · rw [List.dropWhile_cons_of_neg hc]
        exact h

theorem infix_trim_iff (hne : w ≠ []) (hhead : w.head?.any isBlank = false)
    (hlast : w.getLast?.any isBlank = false) : w <:+: trim cs ↔ w <:+: cs := by
  have hreverse : w.reverse.head?.any isBlank = false := by rwa [List.head?_reverse]
  rw [trim, trimRight, ← List.reverse_infix, List.reverse_reverse,
    infix_dropWhile_iff hreverse (by simpa using hne), List.reverse_infix, trimLeft,
    infix_dropWhile_iff hhead hne]

theorem isEmpty_trim : (trim cs).isEmpty = true ↔ ∀ c ∈ cs, isBlank c = true := by
  constructor
  · intro h
    have hall : ∀ c ∈ cs.dropWhile isBlank, isBlank c = true := by
      simpa [trim, trimRight, trimLeft, List.dropWhile_eq_nil_iff] using h
    have hnil : cs.dropWhile isBlank = [] := by
      cases hcs : cs.dropWhile isBlank with
      | nil => rfl
      | cons c rest =>
        have hhead := List.head?_dropWhile_not isBlank cs
        rw [hcs] at hall hhead
        simp [hall c List.mem_cons_self] at hhead
    exact List.dropWhile_eq_nil_iff.1 hnil
  · intro h
    have hnil : cs.dropWhile isBlank = [] := List.dropWhile_eq_nil_iff.2 h
    simp [trim, trimRight, trimLeft, hnil]

theorem trimLeft_append {a : List Char} (ha : ∃ c ∈ a, isBlank c = false) (b : List Char) :
    trimLeft (a ++ b) = trimLeft a ++ b := by
  have hne : (a.dropWhile isBlank).isEmpty = false := by
    obtain ⟨c, hc, hblank⟩ := ha
    rw [← Bool.not_eq_true, List.isEmpty_iff, List.dropWhile_eq_nil_iff]
    intro hall
    simp [hall c hc] at hblank
  rw [trimLeft, List.dropWhile_append, hne]
  rfl

theorem trimRight_append {b : List Char} (hb : ∃ c ∈ b, isBlank c = false) (a : List Char) :
    trimRight (a ++ b) = a ++ trimRight b := by
  have hb' : ∃ c ∈ b.reverse, isBlank c = false := by simpa using hb
  have hleft := trimLeft_append hb' a.reverse
  unfold trimLeft at hleft
  rw [trimRight, trimRight, List.reverse_append, hleft, List.reverse_append, List.reverse_reverse]

theorem trimLeft_of_head {cs : List Char} (h : cs.head?.any isBlank = false) :
    trimLeft cs = cs := by
  cases cs with
  | nil => rfl
  | cons c cs => exact List.dropWhile_cons_of_neg (by simpa using h)

theorem trimRight_of_last {cs : List Char} (h : cs.getLast?.any isBlank = false) :
    trimRight cs = cs := by
  have hreverse : trimLeft cs.reverse = cs.reverse :=
    trimLeft_of_head (by rwa [List.head?_reverse])
  unfold trimLeft at hreverse
  rw [trimRight, hreverse, List.reverse_reverse]

/-- What neither starts nor ends with white space stays as it is. -/
theorem trim_of_ends {cs : List Char} (hhead : cs.head?.any isBlank = false)
    (hlast : cs.getLast?.any isBlank = false) : trim cs = cs := by
  rw [trim, trimLeft_of_head hhead, trimRight_of_last hlast]

theorem trimRight_prefix (cs : List Char) : trimRight cs <+: cs := by
  rw [← List.reverse_suffix, trimRight, List.reverse_reverse]
  exact List.dropWhile_suffix isBlank

theorem head?_trimLeft (cs : List Char) : (trimLeft cs).head?.any isBlank = false := by
  have hnot := List.head?_dropWhile_not isBlank cs
  unfold trimLeft
  cases hcs : (cs.dropWhile isBlank).head? with
  | none => rfl
  | some c =>
    rw [hcs] at hnot
    simpa using hnot

/-- White space may be trimmed off at the end first. -/
theorem trimLeft_trimRight {cs : List Char} (hcs : ∃ c ∈ cs, isBlank c = false) :
    trimLeft (trimRight cs) = trim cs := by
  have hsplit : cs = cs.takeWhile isBlank ++ trimLeft cs := List.takeWhile_append_dropWhile.symm
  have hgap : ∀ c ∈ cs.takeWhile isBlank, isBlank c = true := fun c hc => List.mem_takeWhile_imp hc
  have hspoken : ∃ c ∈ trimLeft cs, isBlank c = false := by
    obtain ⟨c, hc, hblank⟩ := hcs
    rw [hsplit] at hc
    rcases List.mem_append.1 hc with hc | hc
    · simp [hgap c hc] at hblank
    · exact ⟨c, hc, hblank⟩
  have hhead : (trimRight (trimLeft cs)).head?.any isBlank = false := by
    obtain ⟨s, hs⟩ := trimRight_prefix (trimLeft cs)
    cases hright : trimRight (trimLeft cs) with
    | nil => rfl
    | cons c rest =>
      have hleft := head?_trimLeft cs
      rw [← hs, hright] at hleft
      exact hleft
  calc trimLeft (trimRight cs)
      = trimLeft (cs.takeWhile isBlank ++ trimRight (trimLeft cs)) := by
        rw [← trimRight_append hspoken, ← hsplit]
    _ = trimLeft (trimRight (trimLeft cs)) := List.dropWhile_append_of_pos hgap
    _ = trim cs := trimLeft_of_head hhead

end BurnLens.Text
