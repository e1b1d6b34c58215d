import BurnLens.File.System

/-! # Source discovery

The files below a folder whose names end in the source extension, level by level and by name within
a folder. Hidden folders and `node_modules` are left out, and a folder that may not be listed is
passed over. What a folder lists is looked up by its path. That fails if the path is too long, even
though the path of the folder is not, or if nothing may be looked up in the folder, even though it
may be listed. -/

namespace BurnLens

namespace Discovery

/-- A folder as it is shown, and where it is. -/
structure Folder where
  path : Path
  place : Place
  deriving DecidableEq, Repr

/-- What a path leads to. -/
structure Item where
  path : Path
  place : Place
  entry : Entry
  deriving DecidableEq, Repr

/-- Folders that are not entered. -/
def isSkipped (name : String) : Bool :=
  name.toList.head? == some '.' || name == "node_modules"

/-- The paths of all that some folders list, by name within each of them. -/
def children (fs : FileSystem) (folders : List Folder) : List Path :=
  (folders.filter fun f => !fs.unreadable.contains f.place).flatMap fun f =>
    (fs.names f.place).map f.path.child

/-- Looks up one path after another; one that leads nowhere is left out. -/
def look (fs : FileSystem) : List Path → Except FileFault (List Item)
  | [] => return []
  | path :: rest => do
    let found ← fs.probe path
    let later ← look fs rest
    return (found.map fun e => ⟨path, e.1, e.2⟩).toList ++ later

/-- Whether an item is a source file. -/
def Item.isSource (extension : String) (i : Item) : Bool :=
  !i.entry.isFolder && Text.endsWith i.path.name.toList extension.toList

/-- The folder that an item is, if it is one that is entered. -/
def Item.entered? (i : Item) : Option Folder :=
  if i.entry.isFolder && !isSkipped i.path.name then some ⟨i.path, i.place⟩ else none

/-- The sources that some folders of one level list, then those of the levels below, `depth` of
them. -/
def levels (fs : FileSystem) (extension : String) :
    Nat → List Folder → Except FileFault (List Path)
  | 0, _ => return []
  | depth + 1, folders => do
    let items ← look fs (children fs folders)
    let below ← levels fs extension depth (items.filterMap Item.entered?)
    return (items.filter (Item.isSource extension)).map (·.path) ++ below

/-- More levels than any place has. -/
def depth (fs : FileSystem) : Nat :=
  (fs.entries.map fun e => e.1.length).foldl max 0 + 1

end Discovery

/-- The source files below a folder; none when the path is no folder. -/
def FileSystem.discover (fs : FileSystem) (root : Path) (extension : String) :
    Except FileFault (List Path) := do
  match ← fs.folderAt? root with
  | none => return []
  | some place => Discovery.levels fs extension (Discovery.depth fs) [⟨root, place⟩]

end BurnLens
