import BurnLens.Report.Parse

/-!
# Numbers in reports

A report counts lines and columns from one and may write the numbers in the digits of any script. A
`Numeral` of less than nineteen digits is within every limit: it is read (`Numeral.place_digits`), a
search may start from it, and a digit is never white space or part of a word. The usual way to write
a number is a numeral (`Numeral.ofNat`).
-/

namespace BurnLens

namespace Text

/-! ### Digits -/

theorem digitValue?_lt {c : Char} {v : Nat} (h : digitValue? c = some v) : v < 10 := by
  obtain ⟨z, -, hvalue⟩ := List.exists_of_findSome?_eq_some h
  split at hvalue
  next hrange =>
    cases hvalue
    simp only [Bool.and_eq_true, decide_eq_true_eq] at hrange
    omega
  next => cases hvalue

theorem numberOf_lt (cs : List Char) : numberOf cs < Nat.pow 10 cs.length := by
  have hdigit : ∀ c, (digitValue? c).getD 0 < 10 := by
    intro c
    cases h : digitValue? c with
    | none => exact Nat.zero_lt_succ 9
    | some v => exact digitValue?_lt h
  have hfold : ∀ n, cs.foldl (fun n c => 10 * n + (digitValue? c).getD 0) n <
      (n + 1) * Nat.pow 10 cs.length := by
    induction cs with
    | nil => intro n; simp
    | cons c cs ih =>
      intro n
      rw [List.foldl_cons, List.length_cons]
      refine Nat.lt_of_lt_of_le (ih _) ?_
      have hstep : 10 * n + (digitValue? c).getD 0 + 1 ≤ (n + 1) * 10 := by
        have := hdigit c
        omega
      calc (10 * n + (digitValue? c).getD 0 + 1) * Nat.pow 10 cs.length
          ≤ (n + 1) * 10 * Nat.pow 10 cs.length := Nat.mul_le_mul_right _ hstep
        _ = (n + 1) * (Nat.pow 10 cs.length * 10) := by
          rw [Nat.mul_assoc, Nat.mul_comm 10]
  have hzero := hfold 0
  rwa [Nat.zero_add, Nat.one_mul] at hzero

/-! ### The usual digits -/

theorem digitValue?_of_isDigit {c : Char} (h : c.isDigit = true) :
    digitValue? c = some (c.toNat - 48) := by
  have hascii : 48 ≤ c.toNat ∧ c.toNat ≤ 57 := Char.isDigit_iff_toNat.1 h
  have hrange : (0x30 ≤ c.toNat && c.toNat < 0x30 + 10) = true := by
    simp only [Bool.and_eq_true, decide_eq_true_eq]
    omega
  unfold digitValue? digitZeros
  rw [List.findSome?_cons, if_pos hrange]

theorem numberOf_toDigits (n : Nat) : numberOf (Nat.toDigits 10 n) = n := by
  have hdigits : ∀ c ∈ Nat.toDigits 10 n, c.isDigit = true :=
    fun c hc => Nat.isDigit_of_mem_toDigits (by decide) (by decide) hc
  have hfold : ∀ cs : List Char, (∀ c ∈ cs, c.isDigit = true) → ∀ n,
      cs.foldl (fun n c => 10 * n + (digitValue? c).getD 0) n = Nat.ofDigitChars 10 cs n := by
    intro cs hcs
    induction cs with
    | nil => intro n; rfl
    | cons c cs ih =>
      intro n
      rw [List.foldl_cons, Nat.ofDigitChars_cons, digitValue?_of_isDigit (hcs c List.mem_cons_self)]
      exact ih (fun d hd => hcs d (List.mem_cons_of_mem c hd)) _
  rw [numberOf, hfold _ hdigits 0, Nat.ofDigitChars_ten_toDigits]

end Text

namespace Report

open Text

/-- A positive number of less than nineteen digits. -/
structure Numeral where
  digits : List Char
  ne_nil : digits ≠ []
  digit : ∀ c ∈ digits, isDigit c = true
  short : digits.length < 19
  positive : 0 < numberOf digits

namespace Numeral

/-- The line or column that the number means, counted from zero. -/
def index (n : Numeral) : Nat :=
  numberOf n.digits - 1

theorem place_digits (n : Numeral) : place n.digits = .ok n.index := by
  have hlimit : n.digits.length ≤ ReportFault.digitLimit := by
    have := n.short
    unfold ReportFault.digitLimit
    omega
  exact if_pos hlimit

theorem index_lt (n : Numeral) : n.index < ReportFault.columnLimit := by
  have hnumber := numberOf_lt n.digits
  have hpow : Nat.pow 10 n.digits.length ≤ Nat.pow 10 18 :=
    Nat.pow_le_pow_right (by decide) (Nat.le_of_lt_succ n.short)
  have hlimit : Nat.pow 10 18 ≤ ReportFault.columnLimit := by decide
  unfold index
  omega

/-- The usual way to write a number. -/
def ofNat (n : Nat) (hpositive : 0 < n) (hshort : n < Nat.pow 10 18) : Numeral where
  digits := Nat.toDigits 10 n
  ne_nil := Nat.toDigits_ne_nil
  digit c hc := by
    have hc := Nat.isDigit_of_mem_toDigits (by decide) (by decide) hc
    rw [isDigit, digitValue?_of_isDigit hc]
    rfl
  short := Nat.lt_succ_of_le ((Nat.length_toDigits_le_iff (by decide) (by decide)).2 hshort)
  positive := by rwa [numberOf_toDigits]

theorem index_ofNat (n : Nat) (hpositive : 0 < n) (hshort : n < Nat.pow 10 18) :
    (ofNat n hpositive hshort).index = n - 1 := by
  rw [index, ofNat, numberOf_toDigits]

end Numeral

end Report

end BurnLens
