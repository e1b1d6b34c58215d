import BurnLens.Text.Char
import BurnLens.Text.Digit
import BurnLens.Text.Word

/-! # Recognisers and leftmost search

A recogniser looks at a text from one offset and gives what it read together with the rest. The
pieces below never look back, so a recogniser is a chain of them. `hits` tries a recogniser at every
offset from the left and continues behind each success: the matches are leftmost and do not
overlap. The character in front of the offset is passed along, for word boundaries. -/

namespace BurnLens.Text

/-! ### Pieces of recognisers -/

/-- Reads the word `w`. -/
def literal : List Char → List Char → Option (List Char)
  | [], cs => some cs
  | _ :: _, [] => none
  | w :: ws, c :: cs => if w == c then literal ws cs else none

/-- Skips white space, possibly none. -/
def blanks (cs : List Char) : List Char :=
  cs.dropWhile isBlank

/-- Skips white space, at least one character of it. -/
def blanks1 : List Char → Option (List Char)
  | [] => none
  | c :: cs => if isBlank c then some (blanks cs) else none

/-- Reads one character of a class. -/
def charOf (p : Char → Bool) : List Char → Option (Char × List Char)
  | [] => none
  | c :: cs => if p c then some (c, cs) else none

/-- Reads the longest run of a class. -/
def run (p : Char → Bool) (cs : List Char) : List Char × List Char :=
  (cs.takeWhile p, cs.dropWhile p)

/-- Reads the longest run of a class, at least one character. -/
def run1 (p : Char → Bool) : List Char → Option (List Char × List Char)
  | [] => none
  | c :: cs => if p c then some (run p (c :: cs)) else none

/-- Reads an identifier. -/
def identifier : List Char → Option (List Char × List Char)
  | [] => none
  | c :: cs => if isIdentStart c then some (run isIdentChar (c :: cs)) else none

/-- Reads the first of the words that stands here. -/
def oneOf (words : List String) (cs : List Char) : Option (String × List Char) :=
  words.findSome? fun w => (literal w.toList cs).map fun r => (w, r)

/-- Reads an optional type after a colon, white space allowed around the colon. -/
def typed (cs : List Char) : Option (List Char × List Char) := do
  let r ← literal [':'] (blanks cs)
  identifier (blanks r)

/-! ### Search -/

/-- A match and the offsets it covers. -/
structure Hit (α : Type) where
  start : Nat
  stop : Nat
  value : α

/-- A recogniser that also sees the character in front. -/
abbrev Recogniser (α : Type) := Option Char → List Char → Option (α × List Char)

/-- Continues a search: `skip` characters belong to the match before. -/
def hitsFrom {α : Type} (r : Recogniser α) (before : Option Char) (pos skip : Nat) :
    List Char → List (Hit α)
  | [] => []
  | c :: cs =>
    match skip with
    | skip + 1 => hitsFrom r (some c) (pos + 1) skip cs
    | 0 =>
      match r before (c :: cs) with
      | none => hitsFrom r (some c) (pos + 1) 0 cs
      | some (a, rest) =>
        let length := (c :: cs).length - rest.length
        ⟨pos, pos + length, a⟩ :: hitsFrom r (some c) (pos + 1) (length - 1) cs

/-- All matches in the text, from the left, without overlaps. -/
def hits {α : Type} (r : Recogniser α) (cs : List Char) : List (Hit α) :=
  hitsFrom r none 0 0 cs

/-- The leftmost match. -/
def firstHit? {α : Type} (r : Recogniser α) (cs : List Char) : Option (Hit α) :=
  (hits r cs).head?

/-- A recogniser that does not care what stands in front. -/
def anywhere {α : Type} (r : List Char → Option (α × List Char)) : Recogniser α :=
  fun _ cs => r cs

/-- The slice of a text between two offsets. -/
def slice (cs : List Char) (start stop : Nat) : List Char :=
  (cs.drop start).take (stop - start)

/-! ### Laws -/

theorem literal_eq_some_iff {w cs rest : List Char} :
    literal w cs = some rest ↔ cs = w ++ rest := by
  induction w generalizing cs with
  | nil => simp [literal, eq_comm]
  | cons a w ih =>
    cases cs with
    | nil => simp [literal]
    | cons c cs =>
      simp only [literal, beq_iff_eq, List.cons_append, List.cons.injEq]
      split
      next h => simp [ih, h]
      next h => simp [Ne.symm h]

theorem slice_append (front cs back : List Char) :
    slice (front ++ (cs ++ back)) front.length (front.length + cs.length) = cs := by
  rw [slice, Nat.add_sub_cancel_left, List.drop_left, List.take_left]

theorem run_append (p : Char → Bool) (cs : List Char) : (run p cs).1 ++ (run p cs).2 = cs :=
  List.takeWhile_append_dropWhile

end BurnLens.Text
