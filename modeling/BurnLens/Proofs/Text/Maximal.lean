import Mathlib.Data.List.TakeWhile
import BurnLens.Text.Scan

/-!
# Longest runs

`IsRun p cs start stop`: the characters of `cs` from `start` up to `stop` are of the class `p`, and
the run can be made longer on neither side. There is one around every character of the class: as
many of them as stand directly before the character, and as many as stand from it on
(`isRun_around`). An offset next to a character of the class touches such a run, its end included,
and no second one: between the two there would have to be a character that is in neither
(`IsRun.eq_of_touches`).
-/

namespace BurnLens.Text

variable {p : Char → Bool} {cs : List Char} {start stop start' stop' o i : Nat}

structure IsRun (p : Char → Bool) (cs : List Char) (start stop : Nat) : Prop where
  lt : start < stop
  le : stop ≤ cs.length
  inside : ∀ i, start ≤ i → i < stop → (cs[i]?).any p = true
  before : 0 < start → (cs[start - 1]?).any p = false
  behind : (cs[stop]?).any p = false

theorem any_of_lt_takeWhile (h : i < (cs.takeWhile p).length) : (cs[i]?).any p = true := by
  obtain ⟨tail, htail⟩ := List.takeWhile_prefix (l := cs) p
  have hmem : (cs.takeWhile p)[i] ∈ cs.takeWhile p := List.getElem_mem h
  rw [← htail, List.getElem?_append_left h, List.getElem?_eq_getElem h]
  simpa using List.mem_takeWhile_imp hmem

theorem any_length_takeWhile (cs : List Char) : (cs[(cs.takeWhile p).length]?).any p = false := by
  induction cs with
  | nil => rfl
  | cons c cs ih =>
    by_cases hc : p c = true
    · rw [List.takeWhile_cons_of_pos hc]
      exact ih
    · rw [List.takeWhile_cons_of_neg hc]
      simpa using hc

theorem getElem?_reverse_take (ho : o ≤ cs.length) (hi : i < o) :
    (cs.take o).reverse[i]? = cs[o - 1 - i]? := by
  have hlength : (cs.take o).length = o := List.length_take_of_le ho
  rw [List.getElem?_reverse (by omega), hlength, List.getElem?_take_of_lt (by omega)]

/-- The characters of the class on both sides of an offset that touches one of them. -/
theorem isRun_touching (ho : o ≤ cs.length)
    (hne : 0 < ((cs.take o).reverse.takeWhile p).length + ((cs.drop o).takeWhile p).length) :
    IsRun p cs (o - ((cs.take o).reverse.takeWhile p).length)
      (o + ((cs.drop o).takeWhile p).length) := by
  have hleft : ((cs.take o).reverse.takeWhile p).length ≤ o := by
    have := (List.takeWhile_prefix (l := (cs.take o).reverse) p).length_le
    rwa [List.length_reverse, List.length_take_of_le ho] at this
  have hright : ((cs.drop o).takeWhile p).length ≤ cs.length - o := by
    have := (List.takeWhile_prefix (l := cs.drop o) p).length_le
    rwa [List.length_drop] at this
  refine ⟨by omega, by omega, ?_, ?_, ?_⟩
  · intro i hstart hstop
    by_cases hi : i < o
    · have hback : o - 1 - (o - 1 - i) = i := by omega
      have hany : ((cs.take o).reverse[o - 1 - i]?).any p = true :=
        any_of_lt_takeWhile (by omega)
      rwa [getElem?_reverse_take ho (by omega), hback] at hany
    · have hfront : o + (i - o) = i := by omega
      have hany : ((cs.drop o)[i - o]?).any p = true := any_of_lt_takeWhile (by omega)
      rwa [List.getElem?_drop, hfront] at hany
  · intro hstart
    have hany := any_length_takeWhile (p := p) (cs.take o).reverse
    rwa [getElem?_reverse_take ho (by omega), Nat.sub_right_comm] at hany
  · have hany := any_length_takeWhile (p := p) (cs.drop o)
    rwa [List.getElem?_drop] at hany

theorem isRun_around (h : (cs[o]?).any p = true) :
    IsRun p cs (o - ((cs.take o).reverse.takeWhile p).length)
      (o + ((cs.drop o).takeWhile p).length) := by
  obtain ⟨c, hc, hp⟩ := (Option.any_eq_true _ _).1 h
  obtain ⟨ho, rfl⟩ := List.getElem?_eq_some_iff.1 hc
  refine isRun_touching (Nat.le_of_lt ho) ?_
  rw [List.drop_eq_getElem_cons ho, List.takeWhile_cons_of_pos hp, List.length_cons]
  omega

/-! ### Runs at an offset -/

/-- A character of the class stands directly in front of the offset or directly behind it. -/
def Touches (p : Char → Bool) (cs : List Char) (o : Nat) : Prop :=
  (0 < o ∧ (cs[o - 1]?).any p = true) ∨ (cs[o]?).any p = true

theorem length_takeWhile_pos_iff : 0 < (cs.takeWhile p).length ↔ (cs[0]?).any p = true := by
  cases cs with
  | nil => simp
  | cons c cs => by_cases hc : p c = true <;> simp [hc]

theorem touches_iff (ho : o ≤ cs.length) : Touches p cs o ↔
    0 < ((cs.take o).reverse.takeWhile p).length + ((cs.drop o).takeWhile p).length := by
  have hleft : 0 < ((cs.take o).reverse.takeWhile p).length ↔
      0 < o ∧ (cs[o - 1]?).any p = true := by
    rw [length_takeWhile_pos_iff]
    by_cases hzero : 0 < o
    · rw [getElem?_reverse_take ho hzero]
      exact (and_iff_right hzero).symm
    · obtain rfl : o = 0 := by omega
      simp
  have hright : 0 < ((cs.drop o).takeWhile p).length ↔ (cs[o]?).any p = true := by
    rw [length_takeWhile_pos_iff, List.getElem?_drop, Nat.add_zero]
  rw [Touches, ← hleft, ← hright]
  omega

theorem IsRun.touches (h : IsRun p cs start stop) (hstart : start ≤ o) (hstop : o ≤ stop) :
    Touches p cs o := by
  rcases Nat.lt_or_eq_of_le hstop with hlt | rfl
  · exact .inr (h.inside o hstart hlt)
  · have hlt := h.lt
    exact .inl ⟨by omega, h.inside (o - 1) (by omega) (by omega)⟩

theorem IsRun.start_le_of_touches (h : IsRun p cs start stop) (h' : IsRun p cs start' stop')
    (hstop : o ≤ stop) (hstart' : start' ≤ o) : start' ≤ start := by
  refine Nat.le_of_not_lt fun hlt => ?_
  have hin := h.inside (start' - 1) (by omega) (by omega)
  rw [h'.before (by omega)] at hin
  cases hin

theorem IsRun.stop_le_of_touches (h : IsRun p cs start stop) (h' : IsRun p cs start' stop')
    (hstop : o ≤ stop) (hstart' : start' ≤ o) : stop' ≤ stop := by
  refine Nat.le_of_not_lt fun hlt => ?_
  have hin := h'.inside stop (by omega) hlt
  rw [h.behind] at hin
  cases hin

/-- An offset touches one run at most. -/
theorem IsRun.eq_of_touches (h : IsRun p cs start stop) (h' : IsRun p cs start' stop')
    (hstart : start ≤ o) (hstop : o ≤ stop) (hstart' : start' ≤ o) (hstop' : o ≤ stop') :
    start' = start ∧ stop' = stop :=
  ⟨Nat.le_antisymm (h.start_le_of_touches h' hstop hstart')
      (h'.start_le_of_touches h hstop' hstart),
    Nat.le_antisymm (h.stop_le_of_touches h' hstop hstart')
      (h'.stop_le_of_touches h hstop' hstart)⟩

/-- The characters of the class on both sides of an offset are the stretch that they cover. -/
theorem slice_touching (p : Char → Bool) (ho : o ≤ cs.length) :
    slice cs (o - ((cs.take o).reverse.takeWhile p).length)
        (o + ((cs.drop o).takeWhile p).length) =
      ((cs.take o).reverse.takeWhile p).reverse ++ (cs.drop o).takeWhile p := by
  obtain ⟨front, hfront⟩ := List.takeWhile_prefix (l := (cs.take o).reverse) p
  obtain ⟨back, hback⟩ := List.takeWhile_prefix (l := cs.drop o) p
  generalize (cs.take o).reverse.takeWhile p = left at *
  generalize (cs.drop o).takeWhile p = right at *
  have htake : cs.take o = front.reverse ++ left.reverse := by
    rw [← List.reverse_append, hfront, List.reverse_reverse]
  have hlength : front.reverse.length + left.length = o := by
    rw [← List.length_take_of_le ho, htake, List.length_append, @List.length_reverse _ left]
  have hcs : cs = front.reverse ++ ((left.reverse ++ right) ++ back) := by
    rw [List.append_assoc, hback, ← List.append_assoc, ← htake, List.take_append_drop]
  have hstart : o - left.length = front.reverse.length := by omega
  have hspan : o + right.length - front.reverse.length = (left.reverse ++ right).length := by
    rw [List.length_append, @List.length_reverse _ left]
    omega
  rw [slice, hstart, hspan, hcs, List.drop_left, List.take_left]

end BurnLens.Text
