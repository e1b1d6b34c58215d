import BurnLens.Text.Cut
import BurnLens.Text.Digit

/-! # Numeric host addresses

A dotted address is four decimal numbers. A colon address is eight groups of hexadecimal digits: one
run of zero groups may be left out between two colons, the last two groups may be a dotted address,
and a zone may follow behind a percent sign. -/

namespace BurnLens.HostAddress

open BurnLens.Text

/-- A number below 256 in decimal digits, without leading zeros. -/
def isByte (cs : List Char) : Bool :=
  cs == ['0'] ||
    cs.all Char.isDigit && cs.length ≤ 3 && cs.head?.any (· != '0') && numberOf cs < 256

/-- Whether a text is a dotted address. -/
def isDotted (cs : List Char) : Bool :=
  let numbers := splitOn '.' cs
  numbers.length == 4 && numbers.all isByte

/-- One group of a colon address. -/
def isGroup (cs : List Char) : Bool :=
  !cs.isEmpty && cs.length ≤ 4 && cs.all isHexDigit

/-- The two sides of the first pair of colons. -/
def cutAtGap : List Char → Option (List Char × List Char)
  | ':' :: ':' :: cs => some ([], cs)
  | c :: cs => (cutAtGap cs).map fun (left, right) => (c :: left, right)
  | [] => none

/-- The groups between single colons; an empty text has none. -/
def groups (cs : List Char) : List (List Char) :=
  if cs.isEmpty then [] else splitOn ':' cs

/-- How many groups are given; a dotted address at the end gives two. -/
def width? : List (List Char) → Option Nat
  | [] => some 0
  | [g] => if isGroup g then some 1 else if isDotted g then some 2 else none
  | g :: gs => if isGroup g then (width? gs).map (· + 1) else none

/-- Whether the groups of a colon address are complete. Left out groups are at least one. -/
def isComplete (cs : List Char) : Bool :=
  match cutAtGap cs with
  | none => width? (groups cs) == some 8
  | some (left, right) =>
    (groups left).all isGroup && (width? (groups right)).any fun n => (groups left).length + n < 8

/-- Whether a text is a colon address, with a zone or without. -/
def isColon (cs : List Char) : Bool :=
  isComplete (cs.takeWhile (· != '%')) &&
    match cs.dropWhile (· != '%') with
    | [] => true
    | _ :: zone => !zone.isEmpty && !zone.contains '%'

end BurnLens.HostAddress
