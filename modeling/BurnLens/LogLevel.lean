import BurnLens.Text.Char

/-! # Log levels

A level is a number or a name. The first configuration sets the level of the process, every one that
of the library. -/

namespace BurnLens

/-- How a level is given. -/
inductive LogLevel where
  | name (s : String)
  | number (n : Int)
  deriving DecidableEq, Repr

namespace LogLevel

def names : List (String × Int) :=
  [("CRITICAL", 50), ("FATAL", 50), ("ERROR", 40), ("WARNING", 30), ("WARN", 30), ("INFO", 20),
    ("DEBUG", 10), ("NOTSET", 0)]

/-- Upper case as far as level names need it: besides the ASCII letters, the dotless i and the long
s have plain capitals. -/
def upper (c : Char) : Char :=
  if c.toNat = 0x131 then 'I' else if c.toNat = 0x17F then 'S' else c.toUpper

/-- The number of a level; an unknown name counts as `INFO`. -/
def toNumber : LogLevel → Int
  | .number n => n
  | .name s => (names.lookup (String.ofList (s.toList.map upper))).getD 20

end LogLevel

/-- The levels in force. -/
structure LogState where
  library : Int := 0
  process : Int := 30
  handlers : Nat := 0
  deriving DecidableEq, Repr

/-- Sets the level; only the first call reaches the process. -/
def LogState.configure (s : LogState) (level : LogLevel) : LogState :=
  if s.handlers = 0 then ⟨level.toNumber, level.toNumber, 1⟩
  else { s with library := level.toNumber }

end BurnLens
