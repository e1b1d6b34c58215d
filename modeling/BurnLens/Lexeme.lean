import BurnLens.Text.Char

/-! # Lexemes of burn text

One pass from left to right cuts a text into string literals, line comments, words and single
marks. A string literal runs from its quote to the next unescaped quote of the same kind, or to the
first unescaped newline, or to the end of the text; a backslash takes the next character with it,
whatever it is. A comment runs from `//` up to the newline. Everything else is code. -/

namespace BurnLens

/-- How a string literal ends. -/
inductive Ending where
  | closed
  | newline
  | endOfText
  deriving DecidableEq, Repr

/-- What a stretch of text is. A word knows the first character behind it that is not white
space. -/
inductive Lexeme where
  | quoted (ending : Ending)
  | comment
  | word (name : List Char) (next : Option Char)
  | mark (c : Char)
  deriving DecidableEq, Repr

/-- A lexeme and the offsets it covers. -/
structure Token where
  start : Nat
  stop : Nat
  lexeme : Lexeme
  deriving DecidableEq, Repr

namespace Lexeme

/-- The length of a string literal behind its opening quote, and how it ends. The closing quote
counts, the newline does not. -/
def quotedTail (quote : Char) : List Char → Nat × Ending
  | [] => (0, .endOfText)
  | c :: cs =>
    if c == '\\' then
      match cs with
      | [] => (1, .endOfText)
      | _ :: rest => ((quotedTail quote rest).1 + 2, (quotedTail quote rest).2)
    else if c == quote then (1, .closed)
    else if c == '\n' then (0, .newline)
    else ((quotedTail quote cs).1 + 1, (quotedTail quote cs).2)

/-- The lexeme that starts with `c`, and its length. -/
def read (c : Char) (cs : List Char) : Lexeme × Nat :=
  if c == '/' && cs.head? == some '/' then
    (.comment, ((c :: cs).takeWhile (· != '\n')).length)
  else if c == '"' || c == '\'' then
    let tail := quotedTail c cs
    (.quoted tail.2, tail.1 + 1)
  else if Text.isIdentStart c then
    let name := (c :: cs).takeWhile Text.isIdentChar
    let rest := (c :: cs).dropWhile Text.isIdentChar
    (.word name (rest.dropWhile Text.isBlank).head?, name.length)
  else (.mark c, 1)

/-- Continues the cut at offset `pos`; `skip` characters belong to the lexeme before. -/
def tokensFrom (pos skip : Nat) : List Char → List Token
  | [] => []
  | c :: cs =>
    match skip with
    | skip + 1 => tokensFrom (pos + 1) skip cs
    | 0 => ⟨pos, pos + (read c cs).2, (read c cs).1⟩ :: tokensFrom (pos + 1) ((read c cs).2 - 1) cs

/-- The lexemes of a text in order. -/
def tokens (cs : List Char) : List Token :=
  tokensFrom 0 0 cs

end Lexeme

end BurnLens
