/-! # Binary floating point

Doubles as exact dyadic fractions. A decimal is rounded to the nearest double, ties to even; a
double is written with the fewest digits that read back as it, the nearest of those to its value.
All arithmetic is on natural numbers. -/

namespace BurnLens

/-- A double: a sign and `mantissa * 2 ^ exponent`, an infinity, or no number. -/
inductive Binary64 where
  | finite (negative : Bool) (mantissa : Nat) (exponent : Int)
  | infinite (negative : Bool)
  | nan
  deriving DecidableEq, Repr

namespace Binary64

/-- The least exponent. -/
def minExponent : Int := -1074

/-- The greatest exponent. -/
def maxExponent : Int := 971

/-- A quotient to the nearest natural number, ties to even. -/
def roundDiv (num den : Nat) : Nat :=
  let q := num / den
  let r := num % den
  if 2 * r < den then q else if den < 2 * r then q + 1 else q + q % 2

/-- The fraction `num / (den * 2 ^ e)` as numerator and denominator. -/
def scaled (num den : Nat) (e : Int) : Nat × Nat :=
  if e < 0 then (num * Nat.pow 2 (-e).toNat, den) else (num, den * Nat.pow 2 e.toNat)

/-- The exponent at which a positive fraction has fifty-three binary digits before the point, or the
least exponent. -/
def exponentOf (num den : Nat) : Int :=
  let guess : Int := (num.log2 : Int) - den.log2 - 53
  let (n, d) := scaled num den guess
  let e := if n / d < Nat.pow 2 53 then guess else guess + 1
  max e minExponent

/-- The double nearest to a fraction with a positive denominator. -/
def ofRatio (negative : Bool) (num den : Nat) : Binary64 :=
  if num = 0 then .finite negative 0 minExponent
  else
    let e := exponentOf num den
    let (n, d) := scaled num den e
    let m := roundDiv n d
    let (m, e) := if m = Nat.pow 2 53 then (Nat.pow 2 52, e + 1) else (m, e)
    if maxExponent < e then .infinite negative else .finite negative m e

/-- The double nearest to `digits * 10 ^ power`. -/
def ofDecimal (negative : Bool) (digits : Nat) (power : Int) : Binary64 :=
  if power < 0 then ofRatio negative digits (Nat.pow 10 (-power).toNat)
  else ofRatio negative (digits * Nat.pow 10 power.toNat) 1

def ofInt (n : Int) : Binary64 :=
  ofDecimal (n < 0) n.natAbs 0

/-- Whether the number is zero or less; what is no number compares with none. -/
def isAtMostZero : Binary64 → Bool
  | .finite negative mantissa _ => negative || mantissa == 0
  | .infinite negative => negative
  | .nan => false

/-- A finite magnitude as a fraction. -/
def ratio (mantissa : Nat) (exponent : Int) : Nat × Nat :=
  if exponent < 0 then (mantissa, Nat.pow 2 (-exponent).toNat)
  else (mantissa * Nat.pow 2 exponent.toNat, 1)

/-- The value of a number without a fraction. -/
def toInt? : Binary64 → Option Int
  | .finite negative mantissa exponent =>
    let (num, den) := ratio mantissa exponent
    if num % den ≠ 0 then none
    else some (if negative then -((num / den : Nat) : Int) else (num / den : Nat))
  | _ => none

def isFinite : Binary64 → Bool
  | .finite .. => true
  | _ => false

/-! ### Writing -/

/-- The fraction divided by `10 ^ power`. -/
def overPower (num den : Nat) (power : Int) : Nat × Nat :=
  if power < 0 then (num * Nat.pow 10 (-power).toNat, den)
  else (num, den * Nat.pow 10 power.toNat)

/-- The least `k` from `low` on with `num / den < 10 ^ k`, `fuel` values being tried. -/
def magnitude (num den : Nat) : Nat → Int → Int
  | 0, k => k
  | fuel + 1, k =>
    let (n, d) := overPower num den k
    if n < d then k else magnitude num den fuel (k + 1)

/-- The neighbours of a magnitude on the grid of multiples of `10 ^ power` that read back as it, the
nearer one first; of two equally near the even one. -/
def candidates (mantissa : Nat) (exponent power : Int) : List Nat :=
  let (num, den) := ratio mantissa exponent
  let (n, d) := overPower num den power
  let down := n / d
  let r := n % d
  let nearDown := 2 * r < d || (2 * r == d && down % 2 == 0)
  let order := if nearDown then [down, down + 1] else [down + 1, down]
  order.filter fun c => ofDecimal false c power == .finite false mantissa exponent

/-- Tries one digit after another, `fuel` of them, behind the first `count`. -/
def shortestFrom (mantissa : Nat) (exponent top : Int) : Nat → Nat → Nat × Int
  | 0, _ => (mantissa, 0)
  | fuel + 1, count =>
    match candidates mantissa exponent (top - count) with
    | c :: _ => (c, top - count)
    | [] => shortestFrom mantissa exponent top fuel (count + 1)

/-- The fewest digits that read back as a positive magnitude, and the power of ten they count. -/
def shortest (mantissa : Nat) (exponent : Int) : Nat × Int :=
  let (num, den) := ratio mantissa exponent
  let top := magnitude num den 650 (-325)
  shortestFrom mantissa exponent top 17 1

/-- Drops the zeros at the end of a digit text. -/
def dropZeros (cs : List Char) : List Char :=
  (cs.reverse.dropWhile (· == '0')).reverse

/-- Places the point in a digit text that starts `point` places before or behind it: positional
between a ten-thousandth and ten to the sixteenth, else with an exponent of at least two digits. -/
def place (digits : List Char) (point : Int) : String :=
  if -4 < point && point ≤ 0 then
    "0." ++ String.ofList (List.replicate (-point).toNat '0' ++ digits)
  else if 0 < point && point ≤ 16 then
    let whole := digits.take point.toNat
    let fraction := digits.drop point.toNat
    String.ofList (whole ++ List.replicate (point.toNat - whole.length) '0') ++ "." ++
      (if fraction.isEmpty then "0" else String.ofList fraction)
  else
    let e := point - 1
    let exponent := toString e.natAbs
    String.ofList (digits.take 1) ++
      (if digits.length ≤ 1 then "" else "." ++ String.ofList (digits.drop 1)) ++ "e" ++
      (if e < 0 then "-" else "+") ++ (if exponent.length < 2 then "0" else "") ++ exponent

/-- The text of a double. -/
def toString : Binary64 → String
  | .nan => "nan"
  | .infinite negative => if negative then "-inf" else "inf"
  | .finite negative mantissa exponent =>
    (if negative then "-" else "") ++
      if mantissa = 0 then "0.0"
      else
        let (digits, power) := shortest mantissa exponent
        let text := (ToString.toString digits).toList
        place (dropZeros text) (text.length + power)

instance : ToString Binary64 := ⟨toString⟩

end Binary64

end BurnLens
