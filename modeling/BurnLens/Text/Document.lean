import BurnLens.Text.Cut

/-! # Documents, positions and ranges

A document is one version of a text. Offsets and columns count characters, lines end at `\n` only,
and both start at zero. Coordinates are integers: an editor may send any, and every conversion
clamps to the text. -/

namespace BurnLens

/-- A place in a document. -/
structure Position where
  line : Int
  character : Int
  deriving DecidableEq, Repr

/-- A stretch of a document; `stop` is the first place behind it. -/
structure Range where
  start : Position
  stop : Position
  deriving DecidableEq, Repr

/-- The range of columns `first` up to `last` on one line. -/
def Range.onLine (line first last : Int) : Range :=
  ⟨⟨line, first⟩, ⟨line, last⟩⟩

/-- A document at one version. -/
structure Document where
  uri : String
  version : Int
  text : String
  deriving DecidableEq, Repr

namespace Document

/-- The text as characters, which offsets count. -/
def chars (d : Document) : List Char :=
  d.text.toList

/-- The lines, without their newlines. -/
def lines (d : Document) : List (List Char) :=
  Text.splitOn '\n' d.chars

def lineCount (d : Document) : Nat :=
  d.lines.length

/-- An offset moved into the text. -/
def clamp (d : Document) (offset : Int) : Nat :=
  min offset.toNat d.chars.length

/-- The place of an offset: newlines before it, and characters since the last of them. -/
def positionAt (d : Document) (offset : Int) : Position :=
  let before := d.chars.take (d.clamp offset)
  ⟨before.count '\n', (before.reverse.takeWhile (· != '\n')).length⟩

/-- Where line `n` starts: every line before it with its newline. -/
def lineStart (d : Document) (n : Nat) : Nat :=
  ((d.lines.take n).flatMap fun l => l ++ ['\n']).length

/-- The offset of a place. A line before the text is its start, one behind the text is its end, and
a column is kept on its line. -/
def offsetAt (d : Document) (line character : Int) : Nat :=
  if line < 0 then 0
  else
    match d.lines[line.toNat]? with
    | none => d.chars.length
    | some l => d.lineStart line.toNat + min character.toNat l.length

/-- The range between two offsets. -/
def rangeOf (d : Document) (start stop : Int) : Range :=
  ⟨d.positionAt start, d.positionAt stop⟩

/-- The text of a line, if the document has it. -/
def lineText? (d : Document) (line : Int) : Option String :=
  if line < 0 then none else (d.lines[line.toNat]?).map String.ofList

/-- The identifier that touches an offset; empty when there is none. -/
def wordAt (d : Document) (offset : Int) : String :=
  let here := d.clamp offset
  let left := (d.chars.take here).reverse.takeWhile Text.isIdentChar
  let right := (d.chars.drop here).takeWhile Text.isIdentChar
  String.ofList (left.reverse ++ right)

end Document

end BurnLens
