import BurnLens.File.Path
import BurnLens.Text.Utf8

/-! # The file system

Files and folders by place, a place being the list of names from the root down; there are no links.
Looking up a path walks it name by name: every name but the last must be a folder in which names may
be looked up, and two dots step back to the folder above. Making a path absolute, on the other hand,
only looks at its text. What may be read is told apart from what may be looked up: a folder may be
listed or not, and independently of that what it lists may be reached or not. -/

namespace BurnLens

/-- The names from the root down. -/
abbrev Place := List String

/-- How a program ends. -/
inductive Outcome where
  | exit (code : Int)
  | killed (signal : Int)
  | hangs
  deriving DecidableEq, Repr

/-- A program that ignores its arguments and writes fixed output. -/
structure Program where
  stdout : List UInt8
  stderr : List UInt8
  outcome : Outcome
  deriving DecidableEq, Repr

/-- What stands at a place. -/
inductive Entry where
  | folder
  | file (content : List UInt8)
  | program (p : Program)
  /-- Marked as executable, but nothing the system can run. -/
  | broken
  deriving DecidableEq, Repr

def Entry.isFolder : Entry → Bool
  | .folder => true
  | _ => false

structure FileSystem where
  entries : List (Place × Entry) := []
  /-- The folder that relative paths start from. -/
  here : Place := []
  /-- Files that may not be read and folders that may not be listed. -/
  unreadable : List Place := []
  /-- Folders in which nothing may be looked up. -/
  unsearchable : List Place := []
  deriving DecidableEq, Repr

/-- Why a path leads nowhere. -/
inductive Miss where
  | absent
  | notFolder
  /-- A folder on the way may not be searched. -/
  | denied
  | nameTooLong
  | embeddedNull
  deriving DecidableEq, Repr

/-- Failures of the file system that stop an operation. -/
inductive FileFault where
  | denied (path : String)
  | nameTooLong (path : String)
  | embeddedNull
  deriving DecidableEq, Repr

def FileFault.message : FileFault → String
  | .denied path => "[Errno 13] Permission denied: " ++ Text.quoted path
  | .nameTooLong path => "[Errno 36] File name too long: " ++ Text.quoted path
  | .embeddedNull => "embedded null byte"

namespace FileSystem

/-- What stands at a place; the root is always a folder. -/
def get? (fs : FileSystem) (place : Place) : Option Entry :=
  if place = [] then some .folder else fs.entries.lookup place

/-- Puts an entry at a place. -/
def put (fs : FileSystem) (place : Place) (entry : Entry) : FileSystem :=
  { fs with entries := (place, entry) :: fs.entries.filter fun e => e.1 ≠ place }

/-- Makes the folders above a place that are missing. -/
def makeParents (fs : FileSystem) (place : Place) : FileSystem :=
  (List.range place.length).foldl (fun fs n =>
    if (fs.get? (place.take n)).isSome then fs else fs.put (place.take n) .folder) fs

/-- Puts an entry at a place and the missing folders above it. -/
def install (fs : FileSystem) (place : Place) (entry : Entry) : FileSystem :=
  (fs.makeParents place).put place entry

/-- Removes what stands at a place, a folder with all that is in it. -/
def remove (fs : FileSystem) (place : Place) : FileSystem :=
  { fs with
    entries := fs.entries.filter fun e => !place.isPrefixOf e.1
    unreadable := fs.unreadable.filter fun p => !place.isPrefixOf p
    unsearchable := fs.unsearchable.filter fun p => !place.isPrefixOf p }

/-- The names in a folder, sorted. -/
def names (fs : FileSystem) (folder : Place) : List String :=
  (fs.entries.filterMap fun e =>
    if e.1 ≠ [] ∧ e.1.dropLast = folder then e.1.getLast? else none).mergeSort fun a b => a ≤ b

/-! ### Looking up -/

/-- The longest name, in octets. -/
def nameLimit : Nat := 255

/-- The longest path, in octets. -/
def pathLimit : Nat := 4095

/-- Walks from a place along names; an empty name or a dot stays. An empty name is no lookup: it
only says that there is a folder. -/
def walk (fs : FileSystem) (place : Place) : List String → Except Miss (Place × Entry)
  | [] =>
    match fs.get? place with
    | none => .error .absent
    | some e => .ok (place, e)
  | name :: rest =>
    match fs.get? place with
    | none => .error .absent
    | some .folder =>
      if name = "" then walk fs place rest
      else if fs.unsearchable.contains place then .error .denied
      else if name = "." then walk fs place rest
      else if name = ".." then walk fs place.dropLast rest
      else if nameLimit < (Text.Utf8.encode name.toList).length then .error .nameTooLong
      else walk fs (place ++ [name]) rest
    | some _ => .error .notFolder

/-- What a path given as text leads to. -/
def locate (fs : FileSystem) (path : String) : Except Miss (Place × Entry) :=
  if path = "" then .error .absent
  else if path.toList.contains (Char.ofNat 0) then .error .embeddedNull
  else if pathLimit < (Text.Utf8.encode path.toList).length then .error .nameTooLong
  else fs.walk (if path.toList.head? = some '/' then [] else fs.here) (Path.pieces path)

/-- What a path leads to. A path that leads nowhere is no failure, but one that may not be followed
is, or one that is too long. -/
def probe (fs : FileSystem) (path : Path) : Except FileFault (Option (Place × Entry)) :=
  match fs.locate path.toString with
  | .ok found => .ok (some found)
  | .error .denied => .error (.denied path.toString)
  | .error .nameTooLong => .error (.nameTooLong path.toString)
  | .error _ => .ok none

def isFile (fs : FileSystem) (path : Path) : Except FileFault Bool := do
  return (← fs.probe path).any fun found => !found.2.isFolder

/-- The place of a path that leads to a folder. -/
def folderAt? (fs : FileSystem) (path : Path) : Except FileFault (Option Place) := do
  return (← fs.probe path).bind fun found => if found.2.isFolder then some found.1 else none

/-- The octets of a plain file. A program is not one whose text anyone reads. -/
def octets? : Entry → Option (List UInt8)
  | .file content => some content
  | _ => none

/-- The text of a file with every line end as a newline; none when it cannot be read or is not
UTF-8. -/
def readText (fs : FileSystem) (path : Path) : Except FileFault (Option String) :=
  match fs.locate path.toString with
  | .ok (place, e) =>
    if fs.unreadable.contains place then .ok none
    else .ok (((octets? e).bind Text.Utf8.decode?).map fun cs =>
      String.ofList (Text.unifyNewlines cs))
  | .error .embeddedNull => .error .embeddedNull
  | .error _ => .ok none

/-! ### Absolute paths -/

/-- Steps from a place along a name without looking at any file. -/
def follow (place : Place) (name : String) : Place :=
  if name = "" ∨ name = "." then place
  else if name = ".." then place.dropLast
  else place ++ [name]

/-- The place a path names, by its text alone. -/
def resolve (fs : FileSystem) (path : Path) : Except FileFault Place :=
  let text := path.toString
  if text.toList.contains (Char.ofNat 0) then .error .embeddedNull
  else .ok ((Path.pieces text).foldl follow (if path.root = .relative then fs.here else []))

end FileSystem

/-- The path of a place. -/
def Path.ofPlace (place : Place) : Path :=
  ⟨.single, place⟩

end BurnLens
