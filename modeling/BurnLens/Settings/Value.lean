import BurnLens.Number.Binary64
import BurnLens.Text.Cut

/-! # Setting values

A setting is given as a text or as a value of a configuration call. Texts are read leniently: white
space around a number, a plus sign, leading zeros, single underscores between digits and, for whole
numbers, a fraction of zeros are all accepted. A number with a fraction is a double before it is
anything else. -/

namespace BurnLens

/-- A value given for a setting. -/
inductive SettingValue where
  | text (s : String)
  | integer (n : Int)
  /-- A number written with a fraction or an exponent: `digits / 10 ^ places`. -/
  | decimal (digits : Int) (places : Nat)
  | truth (b : Bool)
  | other
  deriving DecidableEq, Repr

/-- What is wrong with a value. -/
inductive ValueFault where
  | notText
  | notNumber
  | notInteger
  | numberText
  | integerText
  /-- A whole number that is too long or too large. -/
  | integerSize
  | hasFraction
  | notFinite
  | notPositive
  | tooSmall
  deriving DecidableEq, Repr

namespace SettingValue

open BurnLens.Text

/-- White space around a number. -/
def isOuterBlank (c : Char) : Bool :=
  isBlank c && !(28 ≤ c.toNat && c.toNat ≤ 31)

def trimOuter (cs : List Char) : List Char :=
  ((cs.dropWhile isOuterBlank).reverse.dropWhile isOuterBlank).reverse

/-- Whether no underscore stands at an end or beside another. -/
def underscoresFit (cs : List Char) : Bool :=
  cs.head? != some '_' && cs.getLast? != some '_' && !occursIn ['_', '_'] cs

def withoutUnderscores (cs : List Char) : List Char :=
  cs.filter (· != '_')

/-- The number written by ASCII digits. -/
def digitsValue (cs : List Char) : Nat :=
  cs.foldl (fun n c => 10 * n + (c.toNat - 48)) 0

/-! ### Whole numbers -/

/-- The most characters a whole number may have, its sign counted. -/
def integerLimit : Nat := 4300

/-- A minus sign in front of a number. -/
def minus : List Char → Bool × List Char
  | '-' :: cs => (true, cs)
  | cs => (false, cs)

/-- The length of the whole number that a text starts with; a number that starts with zero has
none. -/
def leadingSize (cs : List Char) : Nat :=
  let (negative, rest) := minus cs
  let digits := rest.takeWhile Char.isDigit
  if digits.head?.any (· != '0') then digits.length + (if negative then 1 else 0) else 0

/-- A text that is a minus sign or none and digits without leading zeros. -/
def plainInteger? (cs : List Char) : Option Int :=
  let (negative, digits) := minus cs
  let isPlain := digits == ['0'] || (digits.head?.any (· != '0') && digits.all Char.isDigit)
  if !isPlain || integerLimit < cs.length then none
  else some (if negative then -(digitsValue digits : Int) else digitsValue digits)

/-- What follows zeros, the last character before it being given. Underscores may stand among the
zeros; in front of a fraction the last character stays. -/
def afterZeros (last : Char) : List Char → Option (List Char)
  | [] => some [last]
  | c :: cs =>
    if c == '0' || c == '_' then afterZeros c cs
    else if c.isDigit || c == '-' then some (c :: cs)
    else if c == '.' then some (last :: c :: cs)
    else none

/-- Drops the zeros in front of a number without sign; a sign may follow them. -/
def dropLeadingZeros : List Char → Option (List Char)
  | '0' :: cs => afterZeros '0' cs
  | c :: cs => if c.isDigit || c == '-' then some (c :: cs) else none
  | [] => none

/-- Drops the fraction of zeros behind a number. -/
def dropZeroFraction (cs : List Char) : List Char :=
  match cs.dropWhile (· != '.') with
  | _ :: d :: ds => if (d :: ds).all (· == '0') then cs.takeWhile (· != '.') else cs
  | _ => cs

/-- A plus sign may stand in front of anything but a minus sign. -/
def dropPlus : List Char → Option (List Char)
  | '+' :: cs => if cs.head? = some '-' then none else some cs
  | cs => some cs

/-- Drops the zeros in front of a number and behind its minus sign. -/
def dropSignedZeros (cs : List Char) : Option (List Char) :=
  let (negative, digits) := minus cs
  (dropLeadingZeros digits).map fun rest => if negative then '-' :: rest else rest

/-- A lenient spelling of a whole number made plain. -/
def tidy (cs : List Char) : Option (List Char) := do
  let cs := dropZeroFraction (← dropSignedZeros (← dropPlus (trimOuter cs)))
  return if underscoresFit cs then withoutUnderscores cs else cs

/-- Reads a whole number. A text that starts with too long a number is refused for that, whatever
follows. -/
def integerOfText (s : String) : Except ValueFault Int :=
  if integerLimit < leadingSize s.toList then .error .integerSize
  else match (tidy s.toList).bind plainInteger? with
    | some n => .ok n
    | none => .error .integerText

/-- The bound of the doubles that count as whole numbers. -/
def wholeBound : Nat := Nat.pow 2 63

/-- A double as a whole number. -/
def integerOfNumber (x : Binary64) : Except ValueFault Int :=
  if !x.isFinite then .error .notFinite
  else match x.toInt? with
    | none => .error .hasFraction
    | some n => if n.natAbs < wholeBound then .ok n else .error .integerSize

/-- The double nearest to a decimal. -/
def numberOfDecimal (digits : Int) (places : Nat) : Binary64 :=
  .ofDecimal (digits < 0) digits.natAbs (-(places : Int))

/-- A value as a whole number. -/
def toInteger : SettingValue → Except ValueFault Int
  | .text s => integerOfText s
  | .integer n => .ok n
  | .decimal digits places => integerOfNumber (numberOfDecimal digits places)
  | .truth b => .ok (if b then 1 else 0)
  | .other => .error .notInteger

/-! ### Numbers -/

/-- A sign in front of a number. -/
def sign : List Char → Bool × List Char
  | '-' :: cs => (true, cs)
  | '+' :: cs => (false, cs)
  | cs => (false, cs)

/-- The exponent behind a mantissa; nothing stands for zero. -/
def exponent? : List Char → Option Int
  | [] => some 0
  | c :: cs =>
    if c != 'e' && c != 'E' then none
    else
      let (negative, digits) := sign cs
      if digits.isEmpty || !digits.all Char.isDigit then none
      else some (if negative then -(digitsValue digits : Int) else digitsValue digits)

/-- Reads a number without sign. -/
def magnitude? (negative : Bool) (cs : List Char) : Option Binary64 :=
  let word := lowerAscii (String.ofList cs)
  if word = "inf" || word = "infinity" then some (.infinite negative)
  else if word = "nan" then some .nan
  else
    let whole := cs.takeWhile Char.isDigit
    let rest := cs.dropWhile Char.isDigit
    let (fraction, rest) := match rest with
      | '.' :: r => (r.takeWhile Char.isDigit, r.dropWhile Char.isDigit)
      | r => ([], r)
    if whole.isEmpty && fraction.isEmpty then none
    else (exponent? rest).map fun e =>
      -- Beyond these bounds the result is zero or infinite whatever the digits are.
      let e := max (-100000) (min 100000 e)
      .ofDecimal negative (digitsValue (whole ++ fraction)) (e - fraction.length)

/-- Reads a number. -/
def numberOfText (s : String) : Except ValueFault Binary64 :=
  let read (cs : List Char) : Option Binary64 := magnitude? (sign cs).1 (sign cs).2
  let trimmed := trimOuter s.toList
  match read trimmed with
  | some x => .ok x
  | none =>
    if trimmed.contains '_' && underscoresFit s.toList then
      match read (withoutUnderscores s.toList) with
      | some x => .ok x
      | none => .error .numberText
    else .error .numberText

/-- A value as a number. A whole number beyond all doubles is none. -/
def toNumber : SettingValue → Except ValueFault Binary64
  | .text s => numberOfText s
  | .integer n => if (Binary64.ofInt n).isFinite then .ok (.ofInt n) else .error .notNumber
  | .decimal digits places => .ok (numberOfDecimal digits places)
  | .truth b => .ok (.ofInt (if b then 1 else 0))
  | .other => .error .notNumber

/-- A value as a text. -/
def toText : SettingValue → Except ValueFault String
  | .text s => .ok s
  | _ => .error .notText

/-- A whole number not less than a bound. -/
def atLeast (bound : Int) (v : SettingValue) : Except ValueFault Nat := do
  let n ← v.toInteger
  if n < bound then throw .tooSmall
  return n.toNat

/-- A number that is not zero or less. -/
def positive (v : SettingValue) : Except ValueFault Binary64 := do
  let x ← v.toNumber
  if x.isAtMostZero then throw .notPositive
  return x

end SettingValue

end BurnLens
