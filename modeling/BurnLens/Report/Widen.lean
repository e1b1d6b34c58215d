import BurnLens.Text.Char

/-! # Spans of reported columns

The compiler points at one column. The span shown covers the run of operator or identifier
characters that the column points into. -/

namespace BurnLens.Report

def isOperator (c : Char) : Bool :=
  "+-*/=%&|<>!^".toList.contains c

/-- How many characters of a class stand directly before an offset. -/
def runBefore (p : Char → Bool) (text : List Char) (column : Nat) : Nat :=
  ((text.take column).reverse.takeWhile p).length

/-- How many characters of a class stand from an offset on. -/
def runFrom (p : Char → Bool) (text : List Char) (column : Nat) : Nat :=
  ((text.drop column).takeWhile p).length

/-- The columns a report about `column` covers. An operator run is taken from the column on, an
identifier as a whole; behind the end of the line it is the last character. -/
def widen (text : List Char) (column : Nat) : Nat × Nat :=
  match text[column]? with
  | none => if text.isEmpty then (column, column + 1) else (text.length - 1, text.length)
  | some c =>
    if isOperator c then (column, column + runFrom isOperator text column)
    else if Text.isIdentChar c then
      (column - runBefore Text.isIdentChar text column,
        column + runFrom Text.isIdentChar text column)
    else (column, column + 1)

/-- The length of the run that a text starts with; any other character stands alone. -/
def runLength (text : List Char) : Nat :=
  if text.head?.any isOperator then runFrom isOperator text 0
  else if text.head?.any Text.isIdentChar then runFrom Text.isIdentChar text 0
  else 1

/-- The columns a report covers whose column may be negative. Such a column counts from the end of
the line, and a run that reaches the end goes on at the start; none if it points in front of the
line. -/
def widenAny (text : List Char) (column : Int) : Option (Int × Int) :=
  if 0 ≤ column then
    let (start, stop) := widen text column.toNat
    some (start, stop)
  else if text.isEmpty then some (column, column + 1)
  else if column + text.length < 0 then none
  else some (column, column + runLength (text.drop (column + text.length).toNat ++ text))

end BurnLens.Report
