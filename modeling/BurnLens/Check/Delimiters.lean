import BurnLens.Diagnostic
import BurnLens.Lexeme

/-! # Delimiters, string literals and missing names

Each of the three kinds of delimiter is matched by its own stack over the code marks. A closer that
meets an empty stack is reported where it stands; of the openers that stay on a stack only the last
one is reported, at the end. A string literal cut off by a newline is reported at once, one cut off
by the end of the text after everything else. A declaration keyword must not be followed by
something that cannot be a name. -/

namespace BurnLens

inductive Delimiter where
  | brace
  | parenthesis
  | bracket
  deriving DecidableEq, Repr

namespace Delimiter

def all : List Delimiter := [.brace, .parenthesis, .bracket]

def name : Delimiter → String
  | .brace => "brace"
  | .parenthesis => "parenthesis"
  | .bracket => "bracket"

def opener : Delimiter → Char
  | .brace => '{'
  | .parenthesis => '('
  | .bracket => '['

def closer : Delimiter → Char
  | .brace => '}'
  | .parenthesis => ')'
  | .bracket => ']'

/-- The kind that `c` opens. -/
def opened? (c : Char) : Option Delimiter :=
  all.find? fun k => k.opener = c

/-- The kind that `c` closes. -/
def closed? (c : Char) : Option Delimiter :=
  all.find? fun k => k.closer = c

/-- The offsets of the open delimiters of each kind, innermost first. -/
abbrev Opens := Delimiter → List Nat

/-- The stacks with that of `k` replaced. -/
def Opens.set (s : Opens) (k : Delimiter) (offsets : List Nat) : Opens :=
  fun j => if j = k then offsets else s j

end Delimiter

namespace Check

/-- Keywords that need a name behind them. -/
def declarationKeywords : List (List Char) :=
  ["fun", "var", "const", "def", "class"].map String.toList

def shown (c : Char) : String :=
  String.ofList ['\'', c, '\'']

def unexpectedCloser (k : Delimiter) (pos : Nat) : Finding :=
  ⟨pos, pos + 1, "Unexpected closing " ++ k.name ++ " " ++ shown k.closer,
    Code.unexpectedClosingDelimiter⟩

def unclosedOpener (k : Delimiter) (pos : Nat) : Finding :=
  ⟨pos, pos + 1, "Unclosed " ++ k.name ++ " " ++ shown k.opener, Code.unclosedDelimiter⟩

def unterminatedString (start stop : Nat) : Finding :=
  ⟨start, stop, "Unterminated string literal", Code.unterminatedString⟩

def missingName (start stop : Nat) (keyword : List Char) : Finding :=
  ⟨start, stop, "Expected identifier after '" ++ String.ofList keyword ++ "'",
    Code.expectedIdentifier⟩

/-- Whether a keyword is followed by something that cannot start a name. -/
def lacksName (word : List Char) (next : Option Char) : Bool :=
  declarationKeywords.contains word && next.any fun c => !Text.isIdentStart c

/-- One finding per kind with open delimiters, at the innermost. -/
def unclosed (opens : Delimiter.Opens) : List Finding :=
  Delimiter.all.filterMap fun k => (opens k).head?.map (unclosedOpener k)

/-- The findings of the lexemes that remain, given the delimiters open so far. -/
def structureFrom (opens : Delimiter.Opens) : List Token → List Finding
  | [] => unclosed opens
  | ⟨start, stop, lexeme⟩ :: rest =>
    match lexeme with
    | .comment => structureFrom opens rest
    | .quoted .closed => structureFrom opens rest
    | .quoted .newline => unterminatedString start stop :: structureFrom opens rest
    | .quoted .endOfText => structureFrom opens rest ++ [unterminatedString start stop]
    | .word name next =>
      if lacksName name next then missingName start stop name :: structureFrom opens rest
      else structureFrom opens rest
    | .mark c =>
      match Delimiter.opened? c with
      | some k => structureFrom (opens.set k (start :: opens k)) rest
      | none =>
        match Delimiter.closed? c with
        | none => structureFrom opens rest
        | some k =>
          match opens k with
          | [] => unexpectedCloser k start :: structureFrom opens rest
          | _ :: outer => structureFrom (opens.set k outer) rest

/-- Unbalanced delimiters, unterminated strings and missing names of a text. -/
def structureFindings (cs : List Char) : List Finding :=
  structureFrom (fun _ => []) (Lexeme.tokens cs)

end Check

/-- The syntax stage. -/
def Document.checkStructure (d : Document) : List Diagnostic :=
  (Check.structureFindings d.chars).map (Finding.report d .error .syntactic)

end BurnLens
