import BurnLens.Pattern
import BurnLens.Symbol.Table
import BurnLens.Text.Cut

/-! # Types of initialisers

A literal tells its type by its shape. A call gives the return type of the function it calls. Any
other value leaves the type unknown, which is written as the empty text. -/

namespace BurnLens.Symbol

open BurnLens.Text

/-- A number may have one minus sign in front. -/
def unsigned : List Char → List Char
  | '-' :: cs => cs
  | cs => cs

def isInteger (cs : List Char) : Bool :=
  !(unsigned cs).isEmpty && (unsigned cs).all isDigit

def isDecimal (cs : List Char) : Bool :=
  match run1 isDigit (unsigned cs) with
  | some (_, '.' :: fraction) => !fraction.isEmpty && fraction.all isDigit
  | _ => false

/-- Whether a value starts and ends with the same quote. -/
def isQuoted (cs : List Char) : Bool :=
  2 ≤ cs.length && cs.head?.any Pattern.isQuote && cs.getLast? == cs.head?

/-- The type that a called function returns. -/
def calledType (lookup : FunctionLookup) (value : List Char) : String :=
  match firstHit? (anywhere Pattern.call) value with
  | none => ""
  | some h =>
    let callee := String.ofList h.value
    if callee = "input" then "string" else ((lookup callee).map (·.returnType)).getD ""

/-- The type of the right-hand side of a declaration. -/
def inferType (lookup : FunctionLookup) (value : List Char) : String :=
  let value := trim value
  if value = "true".toList || value = "false".toList then "bool"
  else if isQuoted value then "string"
  else if isInteger value then "int"
  else if isDecimal value then "float"
  else if value = "nil".toList then "nil"
  else calledType lookup value

end BurnLens.Symbol
