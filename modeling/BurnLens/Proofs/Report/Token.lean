import BurnLens.Proofs.Text.Maximal
import BurnLens.Report.Widen

/-!
# The token at a column

What is shown for a column lies in its line and covers the column if the line reaches that far. An
identifier is shown as a whole wherever the column points into it. An operator is not: its run is
followed to the right only, so a column behind the first character of `==` shows half of it
(`widen_half`). `widen_whole_iff` tells when all of it is shown.
-/

namespace BurnLens.Report

open Text

variable {text : List Char} {column : Nat} {c : Char}

theorem runFrom_pos {p : Char → Bool} {source : List Char} {column : Nat} {c : Char}
    (hc : source[column]? = some c) (hp : p c = true) : 0 < runFrom p source column := by
  obtain ⟨hlt, rfl⟩ := List.getElem?_eq_some_iff.1 hc
  rw [runFrom, List.drop_eq_getElem_cons hlt, List.takeWhile_cons_of_pos hp, List.length_cons]
  exact Nat.succ_pos _

theorem widen_lt (source : List Char) (column : Nat) :
    (widen source column).1 < (widen source column).2 := by
  unfold widen
  split
  next =>
    cases source with
    | nil => exact Nat.lt_succ_self column
    | cons c source => exact Nat.lt_succ_self source.length
  next c hc =>
    split
    next hoperator =>
      have := runFrom_pos hc hoperator
      dsimp only
      omega
    next =>
      split
      next hident =>
        have := runFrom_pos hc hident
        dsimp only
        omega
      next => exact Nat.lt_succ_self column

/-! ### One column -/

theorem isOperator_of_isIdentChar (h : isIdentChar c = true) : isOperator c = false := by
  have hoperators : "+-*/=%&|<>!^".toList.any isIdentChar = false := by decide
  refine Bool.eq_false_iff.2 fun hc => ?_
  exact List.any_eq_false.1 hoperators c (List.contains_iff_mem.1 hc) h

theorem widen_of_operator (hc : text[column]? = some c) (h : isOperator c = true) :
    widen text column = (column, column + runFrom isOperator text column) := by
  simp only [widen, hc, if_pos h]

theorem widen_of_ident (hc : text[column]? = some c) (h : isIdentChar c = true) :
    widen text column = (column - runBefore isIdentChar text column,
      column + runFrom isIdentChar text column) := by
  simp only [widen, hc, if_pos h, isOperator_of_isIdentChar h, Bool.false_eq_true, if_false]

theorem widen_of_other (hc : text[column]? = some c) (hoperator : isOperator c = false)
    (hident : isIdentChar c = false) : widen text column = (column, column + 1) := by
  simp only [widen, hc, hoperator, hident, Bool.false_eq_true, if_false]

theorem widen_behind (hne : text ≠ []) (hcolumn : text[column]? = none) :
    widen text column = (text.length - 1, text.length) := by
  simp only [widen, hcolumn, List.isEmpty_iff, if_neg hne]

/-- The run around a column of the line. -/
theorem isRun_column {p : Char → Bool} (hc : text[column]? = some c) (hp : p c = true) :
    IsRun p text (column - runBefore p text column) (column + runFrom p text column) :=
  isRun_around (by simpa [hc] using hp)

theorem isRun_ident (hc : text[column]? = some c) (h : isIdentChar c = true) :
    IsRun isIdentChar text (widen text column).1 (widen text column).2 := by
  rw [widen_of_ident hc h]
  exact isRun_column hc h

/-- Of an operator the part from the column on is shown. -/
theorem exists_isRun_operator (hc : text[column]? = some c) (h : isOperator c = true) :
    (widen text column).1 = column ∧
      ∃ start ≤ column, IsRun isOperator text start (widen text column).2 := by
  rw [widen_of_operator hc h]
  exact ⟨rfl, _, Nat.sub_le _ _, isRun_column hc h⟩

theorem isRun_operator_iff (hc : text[column]? = some c) (h : isOperator c = true) :
    IsRun isOperator text (widen text column).1 (widen text column).2 ↔
      (0 < column → (text[column - 1]?).any isOperator = false) := by
  obtain ⟨hstart, start, hle, hrun⟩ := exists_isRun_operator hc h
  have hlt := widen_lt text column
  rw [hstart] at hlt ⊢
  constructor
  · exact fun hwhole => hwhole.before
  · intro hbefore
    exact ⟨hlt, hrun.le, fun i hi => hrun.inside i (Nat.le_trans hle hi), hbefore, hrun.behind⟩

theorem widen_covers (hc : text[column]? = some c) :
    (widen text column).1 ≤ column ∧ column < (widen text column).2 ∧
      (widen text column).2 ≤ text.length := by
  obtain ⟨hlt, -⟩ := List.getElem?_eq_some_iff.1 hc
  by_cases hoperator : isOperator c = true
  · have := runFrom_pos hc hoperator
    have := (isRun_column hc hoperator).le
    rw [widen_of_operator hc hoperator]
    dsimp only
    omega
  · by_cases hident : isIdentChar c = true
    · have := runFrom_pos hc hident
      have := (isRun_column hc hident).le
      rw [widen_of_ident hc hident]
      dsimp only
      omega
    · rw [widen_of_other hc (by simpa using hoperator) (by simpa using hident)]
      dsimp only
      omega

/-- A column in a line shows some columns of the line, itself among them if the line has it. Of an
identifier all is shown. Of an operator all is shown iff none stands directly in front of the
column, else the part from the column on. -/
theorem widen_whole_iff (hne : text ≠ []) (column : Nat) :
    (widen text column).1 < (widen text column).2 ∧ (widen text column).2 ≤ text.length ∧
      ∀ c, text[column]? = some c →
        (widen text column).1 ≤ column ∧ column < (widen text column).2 ∧
        (isIdentChar c = true →
          IsRun isIdentChar text (widen text column).1 (widen text column).2) ∧
        (isOperator c = true →
          (IsRun isOperator text (widen text column).1 (widen text column).2 ↔
            (0 < column → (text[column - 1]?).any isOperator = false)) ∧
          (widen text column).1 = column ∧
          ∃ start ≤ column, IsRun isOperator text start (widen text column).2) := by
  refine ⟨widen_lt text column, ?_, ?_⟩
  · cases hc : text[column]? with
    | none => rw [widen_behind hne hc]
    | some c => exact (widen_covers hc).2.2
  · intro c hc
    obtain ⟨hstart, hstop, -⟩ := widen_covers hc
    exact ⟨hstart, hstop, isRun_ident hc, fun h =>
      ⟨isRun_operator_iff hc h, exists_isRun_operator hc h⟩⟩

/-- A column at the start of an operator, and one in the middle of a name. -/
theorem widen_whole_start :
    let text := "a == bc".toList
    text ≠ [] ∧ IsRun isOperator text 2 4 ∧ IsRun isIdentChar text 5 7 := by
  intro text
  have hne : text ≠ [] := by decide
  obtain ⟨-, -, hoperator⟩ := widen_whole_iff hne 2
  obtain ⟨-, -, hident⟩ := widen_whole_iff hne 6
  obtain ⟨-, -, -, hoperator⟩ := hoperator '=' rfl
  obtain ⟨-, -, hident, -⟩ := hident 'c' rfl
  exact ⟨hne, (hoperator (by decide)).1.2 (by decide), hident (by decide)⟩

/-- A column at the second character of `==` shows that character only. -/
theorem widen_half :
    let text := "a == b".toList
    text[3]? = some '=' ∧ isOperator '=' = true ∧ widen text 3 = (3, 4) ∧
      IsRun isOperator text 2 4 ∧ ¬ IsRun isOperator text (widen text 3).1 (widen text 3).2 := by
  intro text
  have hc : text[3]? = some '=' := rfl
  have hwidened : widen text 3 = (3, 4) := by decide
  refine ⟨hc, by decide, hwidened, isRun_column hc (by decide), ?_⟩
  intro hrun
  exact absurd (hrun.before (by decide)) (by decide)

end BurnLens.Report
