import BurnLens.Text.Cut
import BurnLens.Text.Quoted

/-! # Paths

A path is a root and a list of parts. Empty parts and single dots vanish when a path is read, double
dots stay. Exactly two slashes in front are a root of their own. -/

namespace BurnLens

/-- Where a path starts. -/
inductive PathRoot where
  | relative
  | single
  | double
  deriving DecidableEq, Repr

def PathRoot.text : PathRoot → String
  | .relative => ""
  | .single => "/"
  | .double => "//"

structure Path where
  root : PathRoot
  parts : List String
  deriving DecidableEq, Repr

/-- Why a path cannot be renamed. -/
inductive PathFault where
  | emptyName (path : String)
  | invalidName (name : String)
  deriving DecidableEq, Repr

def PathFault.message : PathFault → String
  | .emptyName path => "PosixPath(" ++ Text.quoted path ++ ") has an empty name"
  | .invalidName name => "Invalid name " ++ Text.quoted name

namespace Path

/-- The pieces of a text between slashes. -/
def pieces (s : String) : List String :=
  (Text.splitOn '/' s.toList).map String.ofList

/-- Reads a path. -/
def ofString (s : String) : Path :=
  let slashes := (s.toList.takeWhile (· == '/')).length
  { root := if slashes = 0 then .relative else if slashes = 2 then .double else .single
    parts := (pieces s).filter fun p => p ≠ "" ∧ p ≠ "." }

/-- The text of a path; a path without root and parts is a dot. -/
def toString (p : Path) : String :=
  if p.root = .relative ∧ p.parts = [] then "."
  else p.root.text ++ "/".intercalate p.parts

instance : ToString Path := ⟨toString⟩

/-- A path below another; one with a root replaces it. -/
def join (p q : Path) : Path :=
  if q.root = .relative then ⟨p.root, p.parts ++ q.parts⟩ else q

/-- The path of an entry of a folder. -/
def child (p : Path) (name : String) : Path :=
  ⟨p.root, p.parts ++ [name]⟩

/-- The last part, empty when there is none. -/
def name (p : Path) : String :=
  (p.parts.getLast?).getD ""

def parent (p : Path) : Path :=
  ⟨p.root, p.parts.dropLast⟩

/-- Whether a text can stand as the last part of a path: it reads as exactly one part, has no root
and does not end in a slash. -/
def isName (s : String) : Bool :=
  let p := ofString s
  p.root = .relative && p.parts.length == 1 && s.toList.getLast? != some '/'

/-- Replaces the last part. -/
def withName (p : Path) (name : String) : Except PathFault Path :=
  if p.name = "" then .error (.emptyName p.toString)
  else if isName name then .ok ⟨p.root, p.parts.dropLast ++ [name]⟩
  else .error (.invalidName name)

end Path

end BurnLens
