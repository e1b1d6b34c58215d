import BurnLens.Pattern
import BurnLens.Text.Cut

/-! # Declared names

A name counts as declared when it is declared anywhere in the text: as a class, a type, a variable,
a loop variable or a parameter. There are no scopes. -/

namespace BurnLens.Check

open BurnLens.Text

/-- The first identifier in a text. -/
def leadingName? (cs : List Char) : Option (List Char) :=
  (identifier (cs.dropWhile fun c => !isIdentStart c)).map (·.1)

/-- The parameter names in the text between two parentheses. -/
def parameterNames (cs : List Char) : List (List Char) :=
  (splitOn ',' cs).filterMap leadingName?

/-- All names the text declares, some of them possibly more than once. -/
def declaredNames (cs : List Char) : List (List Char) :=
  (hits (anywhere (Pattern.blockHead "class")) cs).map (·.value) ++
  (hits (anywhere (Pattern.blockHead "def")) cs).map (·.value) ++
  (hits (anywhere Pattern.declaredVariable) cs).map (·.value.name) ++
  (hits (anywhere Pattern.loopVariable) cs).map (·.value) ++
  (hits (anywhere Pattern.parameterList) cs).flatMap fun h => parameterNames h.value

end BurnLens.Check
