import BurnLens.Diagnostic
import BurnLens.Pattern

/-! # Lint

Hints about variables whose name never comes again behind their declaration, and about control
constructs whose opening brace has no white space in front. A name that starts with an underscore
is meant to be unused. -/

namespace BurnLens

namespace Check

open BurnLens.Text

/-- Keeps the first declaration of each name. -/
def firstDeclarations (seen : List (List Char)) :
    List (Hit Pattern.Declarator) → List (Hit Pattern.Declarator)
  | [] => []
  | h :: rest =>
    if seen.contains h.value.name then firstDeclarations seen rest
    else h :: firstDeclarations (h.value.name :: seen) rest

/-- Whether a declared name comes again behind its declaration. -/
def reappears (cs : List Char) (h : Hit Pattern.Declarator) : Bool :=
  (firstHit? (Pattern.wholeWord h.value.name) (cs.drop (h.start + h.value.length))).isSome

def unusedVariable (h : Hit Pattern.Declarator) : Finding :=
  ⟨h.start, h.start + h.value.length,
    "Variable '" ++ String.ofList h.value.name ++ "' is declared but never used",
    Code.unusedVariable⟩

/-- One finding per variable that is never used again. -/
def unusedFindings (cs : List Char) : List Finding :=
  ((firstDeclarations [] (hits (anywhere Pattern.declaredVariable) cs)).filter fun h =>
    h.value.name.head? != some '_' && !reappears cs h).map unusedVariable

def tightBrace (pos : Nat) : Finding :=
  ⟨pos, pos + 1, "Consider adding a space before opening brace for consistent style",
    Code.braceSpacing⟩

/-- One finding per control construct whose brace follows a character that is not white space. -/
def spacingFindings (cs : List Char) : List Finding :=
  (hits Pattern.controlBrace cs).filterMap fun h =>
    let brace := h.stop - 1
    if 0 < brace && (cs[brace - 1]?).any fun c => !isBlank c then some (tightBrace brace) else none

end Check

namespace Document

def unusedVariables (d : Document) : List Diagnostic :=
  (Check.unusedFindings d.chars).map (Finding.report d .hint .lint)

def braceSpacing (d : Document) : List Diagnostic :=
  (Check.spacingFindings d.chars).map (Finding.report d .hint .lint)

/-- The lint stage. -/
def lint (d : Document) : List Diagnostic :=
  d.unusedVariables ++ d.braceSpacing

end Document

end BurnLens
