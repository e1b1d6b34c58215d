import BurnLens.Text.Quoted

/-! # UTF-8

Characters are written in one to four octets. Reading goes octet by octet and remembers how many
octets are owed and which values the next one may have; an octet outside that range ends the broken
sequence and is read afresh. So every maximal broken sequence shows as one gap. The first of them is
the `Fault` of a text; there is none exactly when the text can be read (`fault?_eq_none_iff`). -/

namespace BurnLens.Text.Utf8

/-- The continuation octet that carries the last six bits of `n`. -/
def tailOctet (n : Nat) : UInt8 :=
  UInt8.ofNat (0x80 + n % 64)

/-- The octets of a code point. -/
def encodeCode (n : Nat) : List UInt8 :=
  if n < 0x80 then [UInt8.ofNat n]
  else if n < 0x800 then [UInt8.ofNat (0xC0 + n / 64), tailOctet n]
  else if n < 0x10000 then [UInt8.ofNat (0xE0 + n / 4096), tailOctet (n / 64), tailOctet n]
  else [UInt8.ofNat (0xF0 + n / 262144), tailOctet (n / 4096), tailOctet (n / 64), tailOctet n]

/-- The octets of a text. -/
def encode (cs : List Char) : List UInt8 :=
  cs.flatMap fun c => encodeCode c.toNat

/-- A sequence that has begun: its bits so far, the octets owed, and the bounds of the next. -/
structure Pending where
  code : Nat
  owed : Nat
  low : Nat
  high : Nat

/-- What a leading octet begins. -/
inductive Lead where
  | char (c : Char)
  | sequence (p : Pending)
  | broken

/-- Reads an octet at the start of a character. -/
def lead (b : Nat) : Lead :=
  if b < 0x80 then .char (Char.ofNat b)
  else if 0xC2 ≤ b ∧ b ≤ 0xDF then .sequence ⟨b - 0xC0, 1, 0x80, 0xBF⟩
  else if b = 0xE0 then .sequence ⟨0, 2, 0xA0, 0xBF⟩
  else if b = 0xED then .sequence ⟨0xD, 2, 0x80, 0x9F⟩
  else if 0xE1 ≤ b ∧ b ≤ 0xEF then .sequence ⟨b - 0xE0, 2, 0x80, 0xBF⟩
  else if b = 0xF0 then .sequence ⟨0, 3, 0x90, 0xBF⟩
  else if 0xF1 ≤ b ∧ b ≤ 0xF3 then .sequence ⟨b - 0xF0, 3, 0x80, 0xBF⟩
  else if b = 0xF4 then .sequence ⟨4, 3, 0x80, 0x8F⟩
  else .broken

/-- What an octet adds to the result, and the sequence it leaves open. -/
def step (pending : Option Pending) (b : Nat) : List (Option Char) × Option Pending :=
  let fresh : List (Option Char) × Option Pending :=
    match lead b with
    | .char c => ([some c], none)
    | .sequence p => ([], some p)
    | .broken => ([none], none)
  match pending with
  | none => fresh
  | some p =>
    if p.low ≤ b ∧ b ≤ p.high then
      let code := p.code * 64 + b % 64
      if p.owed = 1 then ([some (Char.ofNat code)], none)
      else ([], some ⟨code, p.owed - 1, 0x80, 0xBF⟩)
    else (none :: fresh.1, fresh.2)

/-- Continues reading with a sequence possibly open. -/
def decodeFrom (pending : Option Pending) : List UInt8 → List (Option Char)
  | [] => match pending with
    | none => []
    | some _ => [none]
  | b :: bs => (step pending b.toNat).1 ++ decodeFrom (step pending b.toNat).2 bs

/-- The characters of an octet sequence, with a gap for each broken sequence. -/
def decode (bs : List UInt8) : List (Option Char) :=
  decodeFrom none bs

/-- The text of an octet sequence, if all of it is well formed. -/
def decode? (bs : List UInt8) : Option (List Char) :=
  (decode bs).mapM id

/-- The text of an octet sequence, each gap shown as the replacement character. -/
def decodeLossy (bs : List UInt8) : List Char :=
  (decode bs).map fun c => c.getD (Char.ofNat 0xFFFD)

/-! ### The first fault -/

/-- What is wrong with a broken sequence. -/
inductive FaultKind where
  | start
  | continuation
  | ending
  deriving DecidableEq, Repr

/-- The first broken sequence of an octet sequence. -/
structure Fault where
  kind : FaultKind
  /-- The octet that begins it. -/
  first : UInt8
  position : Nat
  /-- How many octets belong to it. -/
  length : Nat
  deriving DecidableEq, Repr

def FaultKind.reason : FaultKind → String
  | .start => "invalid start byte"
  | .continuation => "invalid continuation byte"
  | .ending => "unexpected end of data"

def Fault.message (f : Fault) : String :=
  let place :=
    if f.length = 1 then
      "byte 0x" ++ String.ofList (hexPadded 2 f.first.toNat) ++ " in position " ++
        toString f.position
    else
      "bytes in position " ++ toString f.position ++ "-" ++ toString (f.position + f.length - 1)
  "'utf-8' codec can't decode " ++ place ++ ": " ++ f.kind.reason

/-- A sequence that has begun, with its first octet and the number of octets read. -/
structure Begun where
  pending : Pending
  first : UInt8
  length : Nat

/-- Looks for a fault from a position on, with a sequence possibly open that ends there. -/
def faultFrom (position : Nat) (begun : Option Begun) : List UInt8 → Option Fault
  | [] => begun.map fun s => ⟨.ending, s.first, position - s.length, s.length⟩
  | b :: bs =>
    match begun with
    | none =>
      match lead b.toNat with
      | .char _ => faultFrom (position + 1) none bs
      | .sequence p => faultFrom (position + 1) (some ⟨p, b, 1⟩) bs
      | .broken => some ⟨.start, b, position, 1⟩
    | some s =>
      if s.pending.low ≤ b.toNat ∧ b.toNat ≤ s.pending.high then
        if s.pending.owed = 1 then faultFrom (position + 1) none bs
        else
          let pending := ⟨s.pending.code * 64 + b.toNat % 64, s.pending.owed - 1, 0x80, 0xBF⟩
          faultFrom (position + 1) (some ⟨pending, s.first, s.length + 1⟩) bs
      else some ⟨.continuation, s.first, position - s.length, s.length⟩

def fault? (bs : List UInt8) : Option Fault :=
  faultFrom 0 none bs

/-- The text of an octet sequence, or its first fault. -/
def read (bs : List UInt8) : Except Fault (List Char) :=
  match fault? bs with
  | some fault => .error fault
  | none => .ok (decodeLossy bs)

/-- Reading goes through exactly when no fault is found. -/
theorem faultFrom_eq_none_iff (bs : List UInt8) (position : Nat) (begun : Option Begun) :
    faultFrom position begun bs = none ↔ ∀ c ∈ decodeFrom (begun.map (·.pending)) bs, c ≠ none := by
  induction bs generalizing position begun with
  | nil => cases begun <;> simp [faultFrom, decodeFrom]
  | cons b bs ih =>
    cases begun with
    | none =>
      simp only [faultFrom, decodeFrom, step, Option.map_none]
      cases lead b.toNat <;> simp [ih]
    | some s =>
      simp only [faultFrom, decodeFrom, step, Option.map_some]
      split
      · split <;> simp [ih]
      · simp

theorem fault?_eq_none_iff (bs : List UInt8) : fault? bs = none ↔ ∀ c ∈ decode bs, c ≠ none :=
  faultFrom_eq_none_iff bs 0 none

end BurnLens.Text.Utf8
