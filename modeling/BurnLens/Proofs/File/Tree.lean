import Mathlib.Data.List.Nodup
import Mathlib.Data.String.Basic
import BurnLens.Proofs.File.Place

/-!
# Trees of folders

In a tree every entry stands in a folder, under a name that a path can have, and no two entries
stand at one place (`IsTree`). Then a folder lists exactly the names that lead somewhere
(`mem_names_iff`), each once and in order, and the path of a folder with a listed name behind it
leads to the entry of that name, unless it is too long or nothing may be looked up in the folder
(`probe_child`).
-/

namespace BurnLens

namespace FileSystem

/-- A name under which a folder can list an entry. -/
structure Listable (name : String) : Prop where
  ne_empty : name ≠ ""
  ne_dot : name ≠ "."
  ne_dots : name ≠ ".."
  slash : '/' ∉ name.toList
  null : Char.ofNat 0 ∉ name.toList
  short : (Text.Utf8.encode name.toList).length ≤ nameLimit

/-- Every entry has a place of its own, in a folder. -/
structure IsTree (fs : FileSystem) : Prop where
  distinct : (fs.entries.map (·.1)).Nodup
  nested : ∀ e ∈ fs.entries, e.1 ≠ [] ∧ (∀ name ∈ e.1.getLast?, Listable name) ∧
    fs.get? e.1.dropLast = some .folder

instance (name : String) : Decidable (Listable name) :=
  decidable_of_iff (name ≠ "" ∧ name ≠ "." ∧ name ≠ ".." ∧ '/' ∉ name.toList ∧
      Char.ofNat 0 ∉ name.toList ∧ (Text.Utf8.encode name.toList).length ≤ nameLimit)
    ⟨fun ⟨h₁, h₂, h₃, h₄, h₅, h₆⟩ => ⟨h₁, h₂, h₃, h₄, h₅, h₆⟩,
      fun ⟨h₁, h₂, h₃, h₄, h₅, h₆⟩ => ⟨h₁, h₂, h₃, h₄, h₅, h₆⟩⟩

instance (fs : FileSystem) : Decidable fs.IsTree :=
  decidable_of_iff ((fs.entries.map (·.1)).Nodup ∧ ∀ e ∈ fs.entries, e.1 ≠ [] ∧
      (∀ name ∈ e.1.getLast?, Listable name) ∧ fs.get? e.1.dropLast = some .folder)
    ⟨fun h => ⟨h.1, h.2⟩, fun h => ⟨h.1, h.2⟩⟩

variable {fs fs' : FileSystem} {place : Place} {name : String} {e : Entry}

/-! ### Entries and names -/

theorem lookup_eq_some_iff {α β : Type} [BEq α] [LawfulBEq α] {es : List (α × β)}
    (h : (es.map (·.1)).Nodup) {a : α} {b : β} : es.lookup a = some b ↔ (a, b) ∈ es := by
  induction es with
  | nil => simp
  | cons e es ih =>
    obtain ⟨a', b'⟩ := e
    obtain ⟨hnew, hes⟩ := List.nodup_cons.1 h
    rw [List.lookup_cons, List.mem_cons, Prod.mk.injEq]
    by_cases ha : a = a'
    · subst ha
      have hnot : (a, b) ∉ es := fun hmem => hnew (List.mem_map_of_mem (f := (·.1)) hmem)
      simp [hnot, eq_comm]
    · rw [beq_false_of_ne ha, ih hes]
      simp [ha]

theorem IsTree.get?_eq_some_iff (hfs : fs.IsTree) (hne : place ≠ []) :
    fs.get? place = some e ↔ (place, e) ∈ fs.entries := by
  rw [get?, if_neg hne]
  exact lookup_eq_some_iff hfs.distinct

theorem IsTree.parent (hfs : fs.IsTree) (h : fs.get? (place ++ [name]) = some e) :
    Listable name ∧ fs.get? place = some .folder := by
  have hmem := (hfs.get?_eq_some_iff (by simp)).1 h
  obtain ⟨-, hname, hfolder⟩ := hfs.nested _ hmem
  rw [List.dropLast_concat] at hfolder
  exact ⟨hname name (by simp), hfolder⟩

theorem IsTree.mem_names_iff (hfs : fs.IsTree) :
    name ∈ fs.names place ↔ ∃ e, fs.get? (place ++ [name]) = some e := by
  rw [names, List.mem_mergeSort, List.mem_filterMap]
  constructor
  · rintro ⟨⟨place', e⟩, hmem, hname⟩
    split at hname
    next hin =>
      obtain ⟨hne, rfl⟩ := hin
      have hplace : place'.dropLast ++ [name] = place' := List.dropLast_append_getLast? name hname
      exact ⟨e, (hfs.get?_eq_some_iff (by simp)).2 (hplace.symm ▸ hmem)⟩
    next => cases hname
  · rintro ⟨e, he⟩
    have hmem := (hfs.get?_eq_some_iff (by simp)).1 he
    exact ⟨_, hmem, by simp⟩

/-- The names in a folder stand in their order, each once. -/
theorem IsTree.names_ordered (hfs : fs.IsTree) (place : Place) :
    (fs.names place).Pairwise (· < ·) := by
  have hsorted : (fs.names place).Pairwise (· ≤ ·) := by
    have h := @List.pairwise_mergeSort String (fun a b => decide (a ≤ b))
      (by simpa using fun _ _ _ => le_trans) (by simpa using le_total)
    simp only [decide_eq_true_eq] at h
    exact h _
  have hnodup : (fs.names place).Nodup := by
    -- a name tells the place of its entry, and no place has two entries
    let last? : Place → Option String := fun place' =>
      if place' ≠ [] ∧ place'.dropLast = place then place'.getLast? else none
    have hmap : (fs.entries.filterMap fun e => last? e.1) =
        (fs.entries.map (·.1)).filterMap last? := by
      rw [List.filterMap_map]
      rfl
    rw [names, (List.mergeSort_perm _ _).nodup_iff, hmap]
    refine hfs.distinct.filterMap ?_
    have htold : ∀ {p name}, name ∈ last? p → place ++ [name] = p := by
      intro p name hp
      simp only [last?] at hp
      split at hp
      next hin => exact hin.2 ▸ List.dropLast_append_getLast? name hp
      next => cases hp
    exact fun p p' name hp hp' => (htold hp).symm.trans (htold hp')
  exact (hsorted.and hnodup).imp fun h => lt_of_le_of_ne h.1 h.2

/-- A tree does not depend on the order in which its entries are listed. -/
theorem IsTree.perm (hfs : fs.IsTree) (hentries : fs'.entries.Perm fs.entries) :
    fs'.IsTree ∧ fs'.get? = fs.get? := by
  have hdistinct : (fs'.entries.map (·.1)).Nodup :=
    (hentries.map _).nodup_iff.2 hfs.distinct
  have hentry : fs'.get? = fs.get? := by
    funext place
    unfold get?
    split
    · rfl
    · refine Option.ext fun e => ?_
      rw [lookup_eq_some_iff hdistinct, lookup_eq_some_iff hfs.distinct, hentries.mem_iff]
  refine ⟨⟨hdistinct, fun e he => ?_⟩, hentry⟩
  rw [hentry]
  exact hfs.nested e (hentries.mem_iff.1 he)

theorem walk_congr (hentry : fs'.get? = fs.get?)
    (hsearch : ∀ place, place ∈ fs'.unsearchable ↔ place ∈ fs.unsearchable) (start : Place)
    (names : List String) : fs'.walk start names = fs.walk start names := by
  induction names generalizing start with
  | nil => rw [walk, walk, hentry]
  | cons name names ih => simp only [walk, hentry, List.contains_iff_mem, hsearch, ih]

theorem folderAt?_congr (hentry : fs'.get? = fs.get?)
    (hsearch : ∀ place, place ∈ fs'.unsearchable ↔ place ∈ fs.unsearchable)
    (hhere : fs'.here = fs.here) (path : Path) : fs'.folderAt? path = fs.folderAt? path := by
  have hlocate : ∀ text, fs'.locate text = fs.locate text := by
    intro text
    simp only [locate, hhere, walk_congr hentry hsearch]
  simp only [folderAt?, probe, hlocate]

/-! ### Looking up what a folder lists -/

theorem walk_append (fs : FileSystem) (start : Place) (names rest : List String) :
    fs.walk start (names ++ rest) = fs.walk start names >>= fun found => fs.walk found.1 rest := by
  induction names generalizing start with
  | nil =>
    rw [List.nil_append]
    conv => rhs; rw [walk]
    split
    next habsent => cases rest <;> simp [walk, habsent, bind, Except.bind]
    next e he => rfl
  | cons name names ih =>
    rw [List.cons_append, walk, walk]
    split
    · rfl
    · split
      · exact ih start
      split
      · rfl
      split
      · exact ih start
      split
      · exact ih _
      split
      · rfl
      · exact ih _
    · rfl

/-- A name that a folder can list leads one step down. -/
theorem Listable.walk_cons {start : Place} {rest : List String} (hname : Listable name)
    (hfolder : fs.get? start = some .folder) : fs.walk start (name :: rest) =
      if fs.unsearchable.contains start then .error .denied
      else fs.walk (start ++ [name]) rest := by
  rw [walk, hfolder]
  simp only [if_neg hname.ne_empty, if_neg hname.ne_dot, if_neg hname.ne_dots,
    if_neg (Nat.not_lt_of_le hname.short)]

end FileSystem

theorem Text.splitOn_sep (sep : Char) (cs ds : List Char) :
    splitOn sep (cs ++ sep :: ds) = splitOn sep cs ++ splitOn sep ds := by
  induction cs with
  | nil => simp [splitOn]
  | cons c cs ih =>
    rw [List.cons_append, splitOn, splitOn]
    split
    · rw [ih, List.cons_append]
    · rw [ih]
      cases hps : splitOn sep cs with
      | nil => exact absurd hps (splitOn_ne_nil sep cs)
      | cons p ps => rfl

namespace Path
variable {path : Path} {name : String}

/-- What stands in front of the name in the path of a child. -/
theorem toString_child (path : Path) (name : String) : (path.child name).toString =
    if path.parts = [] then path.root.text ++ name else path.toString ++ "/" ++ name := by
  have hne : ¬ ((path.child name).root = .relative ∧ (path.child name).parts = []) := by
    simp [child]
  rw [toString, if_neg hne]
  split
  next hparts => simp [child, hparts]
  next hparts =>
    rw [toString, if_neg (fun h => hparts h.2), child,
      String.intercalate_append_of_ne_nil hparts (List.cons_ne_nil name []), String.append_assoc,
      String.append_assoc, String.append_assoc]
    rfl

end Path

namespace FileSystem
variable {fs : FileSystem} {path : Path} {place : Place} {name : String} {e : Entry}

theorem pieces_name (hslash : '/' ∉ name.toList) : Path.pieces name = [name] := by
  rw [Path.pieces, Text.splitOn_of_not_mem hslash, List.map_singleton, String.ofList_toList]

theorem pieces_append_slash (text : String) (hslash : '/' ∉ name.toList) :
    Path.pieces (text ++ "/" ++ name) = Path.pieces text ++ [name] := by
  rw [← pieces_name hslash, Path.pieces, Path.pieces, Path.pieces, ← List.map_append,
    ← Text.splitOn_sep]
  simp

theorem walk_stay {start : Place} {rest : List String} (hname : name = "" ∨ name = ".")
    (h : fs.walk start (name :: rest) = .ok (place, e)) : fs.walk start rest = .ok (place, e) := by
  have hrest := (walk_cons_ok h).2.2
  rwa [follow, if_pos hname] at hrest

/-- The path of a folder leads there, and the name behind it one step further. -/
theorem walk_child {start : Place} (hslash : '/' ∉ name.toList)
    (h : fs.walk start (Path.pieces path.toString) = .ok (place, .folder)) :
    fs.walk start (Path.pieces (path.child name).toString) = fs.walk place [name] := by
  obtain ⟨front, hfront, hpieces⟩ : ∃ front, fs.walk start front = .ok (place, .folder) ∧
      Path.pieces (path.child name).toString = front ++ [name] := by
    rw [Path.toString_child]
    split
    next hparts =>
      -- what is in front of the name is a root, or nothing
      obtain ⟨root, parts⟩ := path
      obtain rfl : parts = [] := hparts
      cases root with
      | relative =>
        refine ⟨[], walk_stay (.inr rfl) h, ?_⟩
        rw [PathRoot.text, String.empty_append, pieces_name hslash, List.nil_append]
      | single => exact ⟨[""], walk_stay (.inl rfl) h, pieces_append_slash "" hslash⟩
      | double => exact ⟨["", ""], walk_stay (.inl rfl) h, pieces_append_slash "/" hslash⟩
    next => exact ⟨_, h, pieces_append_slash _ hslash⟩
  rw [hpieces, walk_append, hfront]
  rfl

/-- Whether the text of a path is longer than the system takes. -/
def tooLong (path : Path) : Bool :=
  pathLimit < (Text.Utf8.encode path.toString.toList).length

theorem text_child (hname : Listable name) (hempty : path.toString ≠ "")
    (hnull : Char.ofNat 0 ∉ path.toString.toList) :
    (path.child name).toString ≠ "" ∧ Char.ofNat 0 ∉ (path.child name).toString.toList ∧
      ((path.child name).toString.toList.head? = some '/' ↔
        path.toString.toList.head? = some '/') := by
  have hne : name.toList ≠ [] := fun h => hname.ne_empty (String.toList_inj.1 h)
  have hhead : name.toList.head? ≠ some '/' := fun h => hname.slash (List.mem_of_mem_head? h)
  rw [Path.toString_child]
  split
  next hparts =>
    obtain ⟨root, parts⟩ := path
    obtain rfl : parts = [] := hparts
    cases root <;>
      simp [PathRoot.text, Path.toString, hname.ne_empty, hname.null, hhead]
  next =>
    have htext : path.toString.toList ≠ [] := fun h => hempty (String.toList_inj.1 h)
    simp [hnull, hname.null, List.head?_append_of_ne_nil _ htext]

theorem locate_child (hname : Listable name)
    (h : fs.locate path.toString = .ok (place, .folder)) :
    fs.locate (path.child name).toString =
      if tooLong (path.child name) then .error .nameTooLong else fs.walk place [name] := by
  obtain ⟨hempty, hnull, -, hwalk⟩ := locate_eq_ok_iff.1 h
  obtain ⟨hchild, hclean, hhead⟩ := text_child hname hempty hnull
  rw [locate, if_neg hchild, if_neg (by simpa using hclean)]
  simp only [hhead, walk_child hname.slash hwalk, tooLong, decide_eq_true_eq]

/-- Why the path of what a folder lists cannot be looked up, if it cannot. -/
def refusal? (fs : FileSystem) (folder : Place) (path : Path) : Option FileFault :=
  if tooLong path then some (.nameTooLong path.toString)
  else if fs.unsearchable.contains folder then some (.denied path.toString)
  else none

/-- What a folder lists is found by its path, unless that is refused. -/
theorem IsTree.probe_child (hfs : fs.IsTree) (h : fs.locate path.toString = .ok (place, .folder))
    (hentry : fs.get? (place ++ [name]) = some e) :
    fs.probe (path.child name) =
      match fs.refusal? place (path.child name) with
      | some fault => .error fault
      | none => .ok (some (place ++ [name], e)) := by
  obtain ⟨hname, hfolder⟩ := hfs.parent hentry
  have hwalk : fs.walk (place ++ [name]) [] = .ok (place ++ [name], e) := by
    rw [walk, hentry]
  rw [probe, locate_child hname h, hname.walk_cons hfolder, hwalk, refusal?]
  cases tooLong (path.child name) with
  | true => rfl
  | false =>
    cases hsearch : fs.unsearchable.contains place with
    | true => simp
    | false => simp

end FileSystem

end BurnLens
