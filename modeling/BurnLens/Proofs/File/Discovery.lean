import Mathlib.Data.List.Lex
import BurnLens.File.Discovery
import BurnLens.Proofs.File.RoundTrip
import BurnLens.Proofs.File.Tree

/-!
# The order of discovery

Discovery goes through a tree level by level. Below the root, a place is a list of names, and what
is listed on one level is ordered by these lists: by the folders first, since they are in order, and
then by the names within a folder (`Ranked.listed`). Level by level this gives all that the entered
folders list, shorter places first (`visited_spread`). What discovery does with them is to look each
of them up, and to stop at the first whose path is refused (`levels_eq`): because it is too long, or
because nothing may be looked up in its folder. The main statement is `discover_ordered`.
-/

namespace BurnLens

namespace Discovery

open FileSystem (IsTree tooLong)

/-! ### Places below a folder -/

/-- The path of a place below a folder. -/
def below (root : Path) (names : Place) : Path :=
  ⟨root.root, root.parts ++ names⟩

/-- Upper levels first, and by names within a level. -/
def Before (a b : Place) : Prop :=
  a.length < b.length ∨ a.length = b.length ∧ a < b

/-- No folder is hidden or one of modules. -/
def Visible (folders : Place) : Prop :=
  ∀ folder ∈ folders, folder.toList.head? ≠ some '.' ∧ folder ≠ "node_modules"

/-- The root and all folders down to a place may be listed. -/
def Readable (fs : FileSystem) (place folders : Place) : Prop :=
  ∀ upper, upper <+: folders → place ++ upper ∉ fs.unreadable

/-- There is an entry, and all folders between it and the root are entered and may be listed. -/
def Listed (fs : FileSystem) (place names : Place) : Prop :=
  ∃ folders name e, names = folders ++ [name] ∧ fs.get? (place ++ names) = some e ∧
    Visible folders ∧ Readable fs place folders

/-- The folder is the root, or it is listed and neither hidden nor one of modules. -/
def Entered (fs : FileSystem) (place names : Place) : Prop :=
  fs.get? (place ++ names) = some .folder ∧ Visible names ∧ (names ≠ [] → Listed fs place names)

/-- The entry is a source file, and all folders between it and the root are entered and may be
listed. -/
def IsSource (fs : FileSystem) (place : Place) (extension : String) (names : Place) : Prop :=
  ∃ folders name e, names = folders ++ [name] ∧ fs.get? (place ++ names) = some e ∧
    e.isFolder = false ∧ extension.toList <:+ name.toList ∧ Visible folders ∧
    Readable fs place folders

variable {fs fs' : FileSystem} {root : Path} {place names : Place} {name extension : String}
  {n depth : Nat} {level rest : List Place} {P Q : Place → Prop} {q : Place → Bool}

theorem Before.irrefl (a : Place) : ¬ Before a a := by
  rintro (h | ⟨-, h⟩)
  · exact Nat.lt_irrefl _ h
  · exact lt_irrefl a h

theorem Before.asymm {a b : Place} (h : Before a b) : ¬ Before b a := by
  rintro h'
  rcases h with h | ⟨hl, h⟩ <;> rcases h' with h' | ⟨hl', h'⟩
  · omega
  · omega
  · omega
  · exact lt_asymm h h'

theorem isSkipped_eq_false_iff : isSkipped name = false ↔
    name.toList.head? ≠ some '.' ∧ name ≠ "node_modules" := by
  simp [isSkipped]

/-! ### One level -/

/-- The places of a level that have a property, in order. -/
structure Ranked (P : Place → Prop) (n : Nat) (level : List Place) : Prop where
  ordered : level.Pairwise (· < ·)
  mem : ∀ names, names ∈ level ↔ names.length = n ∧ P names

theorem Ranked.filter (h : Ranked P n level)
    (hq : ∀ names, names.length = n → P names → (q names = true ↔ Q names))
    (hQ : ∀ names, names.length = n → Q names → P names) : Ranked Q n (level.filter q) where
  ordered := h.ordered.filter q
  mem names := by
    rw [List.mem_filter, h.mem]
    constructor
    · rintro ⟨⟨hlength, hP⟩, hqn⟩
      exact ⟨hlength, (hq names hlength hP).1 hqn⟩
    · rintro ⟨hlength, hQn⟩
      have hP := hQ names hlength hQn
      exact ⟨⟨hlength, hP⟩, (hq names hlength hP).2 hQn⟩

theorem readable_snoc {folders : Place} : Readable fs place (folders ++ [name]) ↔
    Readable fs place folders ∧ place ++ (folders ++ [name]) ∉ fs.unreadable := by
  constructor
  · intro h
    exact ⟨fun upper hupper => h upper (hupper.trans (List.prefix_append folders [name])),
      h _ List.prefix_rfl⟩
  · rintro ⟨hfolders, hlast⟩ upper hupper
    rcases List.prefix_concat_iff.1 hupper with rfl | hupper
    · exact hlast
    · exact hfolders upper hupper

/-- A folder may be listed with all above it if it was reached and may be listed itself. -/
theorem Entered.readable_iff {folders : Place} (h : Entered fs place folders) :
    Readable fs place folders ↔ place ++ folders ∉ fs.unreadable := by
  by_cases hroot : folders = []
  · subst hroot
    constructor
    · exact fun hreadable => hreadable [] List.prefix_rfl
    · intro hopen upper hupper
      rwa [List.prefix_nil.1 hupper]
  · obtain ⟨upper, name, e, rfl, -, -, habove⟩ := h.2.2 hroot
    rw [readable_snoc]
    exact and_iff_right habove

/-- A folder is entered if neither it nor one above it is passed over. -/
theorem entered_of_readable {folders : Place}
    (hfolder : fs.get? (place ++ folders) = some .folder) (hvisible : Visible folders)
    (hreadable : Readable fs place folders) : Entered fs place folders := by
  refine ⟨hfolder, hvisible, fun hne => ?_⟩
  obtain ⟨upper, name, rfl⟩ := List.eq_nil_or_concat' folders |>.resolve_left hne
  exact ⟨upper, name, .folder, rfl, hfolder, (List.forall_mem_append.1 hvisible).1,
    (readable_snoc.1 hreadable).1⟩

/-- What the folders of a level list. -/
def listed (fs : FileSystem) (place : Place) (level : List Place) : List Place :=
  (level.filter fun names => !fs.unreadable.contains (place ++ names)).flatMap fun names =>
    (fs.names (place ++ names)).map fun name => names ++ [name]

theorem snoc_lt_snoc {a b : Place} {x y : String} (h : a < b) (hlength : a.length = b.length) :
    a ++ [x] < b ++ [y] := by
  induction a generalizing b with
  | nil =>
    cases b with
    | nil => exact absurd h (lt_irrefl _)
    | cons => cases hlength
  | cons s a ih =>
    cases b with
    | nil => cases hlength
    | cons t b =>
      rw [List.cons_append, List.cons_append]
      rcases List.cons_lt_cons_iff.1 h with hlt | ⟨rfl, hlt⟩
      · exact List.cons_lt_cons_iff.2 (.inl hlt)
      · exact List.cons_lt_cons_iff.2 (.inr ⟨rfl, ih hlt (Nat.succ.inj hlength)⟩)

theorem Ranked.listed (hfs : fs.IsTree) (h : Ranked (Entered fs place) n level) :
    Ranked (Listed fs place) (n + 1) (listed fs place level) where
  ordered := by
    refine List.pairwise_flatMap.2 ⟨fun names _ => ?_, ?_⟩
    · refine List.pairwise_map.2 ((hfs.names_ordered (place ++ names)).imp fun hlt => ?_)
      exact List.append_left_lt (List.cons_lt_cons_iff.2 (.inl hlt))
    · refine (h.ordered.filter _).imp_of_mem fun {a b} ha hb hlt c hc d hd => ?_
      obtain ⟨x, -, rfl⟩ := List.mem_map.1 hc
      obtain ⟨y, -, rfl⟩ := List.mem_map.1 hd
      have hlength : a.length = n := ((h.mem a).1 (List.mem_of_mem_filter ha)).1
      exact snoc_lt_snoc hlt (hlength.trans ((h.mem b).1 (List.mem_of_mem_filter hb)).1.symm)
  mem names := by
    constructor
    · intro hmem
      obtain ⟨folders, hfolders, hmem⟩ := List.mem_flatMap.1 hmem
      obtain ⟨name, hname, rfl⟩ := List.mem_map.1 hmem
      obtain ⟨hfolders, hopen⟩ := List.mem_filter.1 hfolders
      obtain ⟨hlength, hentered⟩ := (h.mem folders).1 hfolders
      obtain ⟨e, he⟩ := hfs.mem_names_iff.1 hname
      rw [List.append_assoc] at he
      exact ⟨by simp [hlength], folders, name, e, rfl, he, hentered.2.1,
        hentered.readable_iff.2 (by simpa using hopen)⟩
    · rintro ⟨hlength, folders, name, e, rfl, he, hvisible, hreadable⟩
      rw [← List.append_assoc] at he
      have hn : folders.length = n := by simpa using hlength
      have hentered := entered_of_readable (hfs.parent he).2 hvisible hreadable
      have hopen : (!fs.unreadable.contains (place ++ folders)) = true := by
        simpa using hentered.readable_iff.1 hreadable
      refine List.mem_flatMap.2 ⟨folders, List.mem_filter.2 ⟨?_, hopen⟩, ?_⟩
      · exact (h.mem folders).2 ⟨hn, hentered⟩
      · exact List.mem_map_of_mem (hfs.mem_names_iff.2 ⟨e, he⟩)

/-- The entry at a place; where there is none, this says that there is a folder. -/
def entryAt (fs : FileSystem) (place names : Place) : Entry :=
  (fs.get? (place ++ names)).getD .folder

/-- Whether what is listed at a place is a folder that is entered. -/
def isEntered (fs : FileSystem) (place names : Place) : Bool :=
  (entryAt fs place names).isFolder && !isSkipped ((names.getLast?).getD "")

/-- Whether what is listed at a place is a source file. -/
def isSourceAt (fs : FileSystem) (place : Place) (extension : String) (names : Place) : Bool :=
  !(entryAt fs place names).isFolder &&
    Text.endsWith ((names.getLast?).getD "").toList extension.toList

theorem isFolder_iff {e : Entry} : e.isFolder = true ↔ e = .folder := by
  cases e <;> simp [Entry.isFolder]

theorem entryAt_eq {e : Entry} (h : fs.get? (place ++ names) = some e) :
    entryAt fs place names = e := by
  rw [entryAt, h, Option.getD_some]

theorem visible_snoc {folders : Place} :
    Visible (folders ++ [name]) ↔ Visible folders ∧ isSkipped name = false := by
  simp only [Visible, isSkipped_eq_false_iff, List.forall_mem_append, List.forall_mem_singleton]

theorem isEntered_iff (h : Listed fs place names) :
    isEntered fs place names = true ↔ Entered fs place names := by
  have hlisted := h
  obtain ⟨folders, name, e, rfl, he, hvisible, -⟩ := h
  rw [isEntered, entryAt_eq he, Entered, he, visible_snoc, Bool.and_eq_true, isFolder_iff]
  simp [hvisible, hlisted]

theorem isSourceAt_iff (h : Listed fs place names) :
    isSourceAt fs place extension names = true ↔ IsSource fs place extension names := by
  obtain ⟨folders, name, e, rfl, he, hvisible, hreadable⟩ := h
  rw [isSourceAt, entryAt_eq he, Bool.and_eq_true, Text.endsWith, List.isSuffixOf_iff_suffix]
  constructor
  · rintro ⟨hfile, hending⟩
    exact ⟨folders, name, e, rfl, he, by simpa using hfile, by simpa using hending, hvisible,
      hreadable⟩
  · rintro ⟨folders', name', e', hnames, he', hfile, hending, -⟩
    obtain ⟨rfl, hname⟩ := List.append_inj' hnames rfl
    obtain rfl := (List.cons.inj hname).1
    obtain rfl := Option.some.inj (he.symm.trans he')
    exact ⟨by simpa using hfile, by simpa using hending⟩

theorem IsSource.listed (h : IsSource fs place extension names) : Listed fs place names := by
  obtain ⟨folders, name, e, hnames, he, -, -, hvisible⟩ := h
  exact ⟨folders, name, e, hnames, he, hvisible⟩

theorem Listed.one_le_length (h : Listed fs place names) : 1 ≤ names.length := by
  obtain ⟨folders, name, e, rfl, -⟩ := h
  simp

/-! ### All levels -/

/-- The places from a level on that have a property, in order. -/
structure Spread (P : Place → Prop) (n : Nat) (places : List Place) : Prop where
  ordered : places.Pairwise Before
  mem : ∀ names, names ∈ places ↔ n ≤ names.length ∧ P names

theorem Ranked.append (h : Ranked P n level) (hrest : Spread P (n + 1) rest) :
    Spread P n (level ++ rest) where
  ordered := by
    refine List.pairwise_append.2 ⟨?_, hrest.ordered, fun a ha b hb => ?_⟩
    · refine h.ordered.imp_of_mem fun {a b} ha hb hlt => .inr ⟨?_, hlt⟩
      exact ((h.mem a).1 ha).1.trans ((h.mem b).1 hb).1.symm
    · have ha := ((h.mem a).1 ha).1
      have hb := ((hrest.mem b).1 hb).1
      exact .inl (by omega)
  mem names := by
    rw [List.mem_append, h.mem, hrest.mem]
    constructor
    · rintro (⟨hlength, hP⟩ | ⟨hlength, hP⟩)
      · exact ⟨Nat.le_of_eq hlength.symm, hP⟩
      · exact ⟨Nat.le_of_succ_le hlength, hP⟩
    · rintro ⟨hlength, hP⟩
      rcases Nat.eq_or_lt_of_le hlength with heq | hlt
      · exact .inl ⟨heq.symm, hP⟩
      · exact .inr ⟨hlt, hP⟩

/-- All that the folders of a level list, and the levels below, `depth` of them. -/
def visited (fs : FileSystem) (place : Place) : Nat → List Place → List Place
  | 0, _ => []
  | depth + 1, level =>
    listed fs place level ++
      visited fs place depth ((listed fs place level).filter (isEntered fs place))

theorem Ranked.next (hfs : fs.IsTree) (h : Ranked (Entered fs place) n level) :
    Ranked (Entered fs place) (n + 1) ((Discovery.listed fs place level).filter
      (isEntered fs place)) := by
  refine (h.listed hfs).filter (fun names _ hlisted => isEntered_iff hlisted) ?_
  rintro names hlength hentered
  exact hentered.2.2 (List.ne_nil_of_length_eq_add_one hlength)

theorem visited_spread (hfs : fs.IsTree) (h : Ranked (Entered fs place) n level)
    (hdeep : ∀ names, Listed fs place names → names.length ≤ n + depth) :
    Spread (Listed fs place) (n + 1) (visited fs place depth level) := by
  induction depth generalizing n level with
  | zero =>
    refine ⟨.nil, fun names => ⟨nofun, ?_⟩⟩
    rintro ⟨hlength, hlisted⟩
    have := hdeep names hlisted
    omega
  | succ depth ih =>
    refine (h.listed hfs).append (ih (h.next hfs) fun names hlisted => ?_)
    have := hdeep names hlisted
    omega

theorem Spread.sources (h : Spread (Listed fs place) n rest) (extension : String) :
    Spread (IsSource fs place extension) n (rest.filter (isSourceAt fs place extension)) where
  ordered := h.ordered.filter _
  mem names := by
    rw [List.mem_filter, h.mem]
    constructor
    · rintro ⟨⟨hlength, hlisted⟩, hsource⟩
      exact ⟨hlength, (isSourceAt_iff hlisted).1 hsource⟩
    · rintro ⟨hlength, hsource⟩
      exact ⟨⟨hlength, hsource.listed⟩, (isSourceAt_iff hsource.listed).2 hsource⟩

/-! ### Looking up -/

/-- What discovery finds at a place. -/
def itemAt (fs : FileSystem) (root : Path) (place names : Place) : Item :=
  ⟨below root names, place ++ names, entryAt fs place names⟩

def folderAt (root : Path) (place names : Place) : Folder :=
  ⟨below root names, place ++ names⟩

theorem below_child (root : Path) (names : Place) (name : String) :
    (below root names).child name = below root (names ++ [name]) := by
  rw [Path.child, below, below, List.append_assoc]

theorem name_below (hne : names ≠ []) :
    (below root names).name = (names.getLast?).getD "" := by
  rw [Path.name, below, List.getLast?_append_of_ne_nil _ hne]

theorem children_eq (fs : FileSystem) (root : Path) (place : Place) (level : List Place) :
    children fs (level.map (folderAt root place)) =
      (listed fs place level).map (below root) := by
  have hopen :
      ((level.map (folderAt root place)).filter fun f => !fs.unreadable.contains f.place) =
        (level.filter fun names => !fs.unreadable.contains (place ++ names)).map
          (folderAt root place) :=
    List.filter_map
  rw [children, hopen, listed, List.flatMap_map, List.map_flatMap]
  refine List.flatMap_congr fun names _ => ?_
  rw [List.map_map]
  exact List.map_congr_left fun name _ => below_child root names name

/-- Why what is listed at a place cannot be looked up, if it cannot: its path is too long, or
nothing may be looked up in its folder. -/
def refused? (fs : FileSystem) (root : Path) (place names : Place) : Option FileFault :=
  fs.refusal? (place ++ names.dropLast) (below root names)

/-- What a folder lists is looked up by the path of the folder and the name behind it. -/
theorem probe_listed (hfs : fs.IsTree)
    (hlead : ∀ names ∈ level,
      fs.locate (below root names).toString = .ok (place ++ names, .folder))
    (hmem : names ∈ listed fs place level) :
    fs.probe (below root names) =
      match refused? fs root place names with
      | some fault => .error fault
      | none => .ok (some (place ++ names, entryAt fs place names)) := by
  obtain ⟨folders, hfolders, hmem⟩ := List.mem_flatMap.1 hmem
  obtain ⟨name, hname, rfl⟩ := List.mem_map.1 hmem
  obtain ⟨e, he⟩ := hfs.mem_names_iff.1 hname
  have hfound := hfs.probe_child (hlead folders (List.mem_of_mem_filter hfolders)) he
  rw [List.append_assoc] at he hfound
  rw [below_child, ← entryAt_eq he] at hfound
  rw [refused?, List.dropLast_concat]
  exact hfound

/-- The places are looked up until one is refused. -/
theorem look_eq {places : List Place} (h : ∀ names ∈ places, fs.probe (below root names) =
      match refused? fs root place names with
      | some fault => .error fault
      | none => .ok (some (place ++ names, entryAt fs place names))) :
    look fs (places.map (below root)) =
      match places.findSome? (refused? fs root place) with
      | some fault => .error fault
      | none => .ok (places.map (itemAt fs root place)) := by
  induction places with
  | nil => rfl
  | cons names places ih =>
    have hlater := ih fun names hmem => h names (List.mem_cons_of_mem _ hmem)
    rw [List.map_cons, look, h names List.mem_cons_self, List.findSome?_cons]
    cases refused? fs root place names with
    | some fault => rfl
    | none =>
      rw [hlater]
      simp only
      cases places.findSome? (refused? fs root place) <;> rfl

theorem isSource_itemAt (hne : names ≠ []) :
    (itemAt fs root place names).isSource extension = isSourceAt fs place extension names := by
  rw [Item.isSource, isSourceAt, itemAt, name_below hne]

theorem entered?_itemAt (hne : names ≠ []) : (itemAt fs root place names).entered? =
    if isEntered fs place names then some (folderAt root place names) else none := by
  rw [Item.entered?, isEntered, itemAt, name_below hne]
  rfl

theorem sources_items {places : List Place} (hne : ∀ names ∈ places, names ≠ []) :
    ((places.map (itemAt fs root place)).filter (Item.isSource extension)).map (·.path) =
      (places.filter (isSourceAt fs place extension)).map (below root) := by
  have hsame : places.filter (Item.isSource extension ∘ itemAt fs root place) =
      places.filter (isSourceAt fs place extension) :=
    List.filter_congr fun names hmem => isSource_itemAt (hne names hmem)
  rw [List.filter_map, hsame, List.map_map]
  rfl

theorem folders_items {places : List Place} (hne : ∀ names ∈ places, names ≠ []) :
    (places.map (itemAt fs root place)).filterMap Item.entered? =
      (places.filter (isEntered fs place)).map (folderAt root place) := by
  rw [List.filterMap_map]
  induction places with
  | nil => rfl
  | cons names places ih =>
    have hlater := ih fun names hmem => hne names (List.mem_cons_of_mem _ hmem)
    rw [List.filterMap_cons, Function.comp_apply, entered?_itemAt (hne names List.mem_cons_self),
      List.filter_cons]
    cases isEntered fs place names with
    | true => exact congrArg (folderAt root place names :: ·) hlater
    | false => exact hlater

/-- The entries of a level are looked up before those below, and the first that is refused stops it
all. -/
theorem levels_eq (hfs : fs.IsTree) (h : Ranked (Entered fs place) n level)
    (hlead : ∀ names ∈ level,
      fs.locate (below root names).toString = .ok (place ++ names, .folder)) :
    levels fs extension depth (level.map (folderAt root place)) =
      match (visited fs place depth level).findSome? (refused? fs root place) with
      | some fault => .error fault
      | none => .ok (((visited fs place depth level).filter
          (isSourceAt fs place extension)).map (below root)) := by
  induction depth generalizing n level with
  | zero => rfl
  | succ depth ih =>
    have hlisted := h.listed hfs
    have hne : ∀ names ∈ listed fs place level, names ≠ [] := fun names hmem =>
      List.ne_nil_of_length_eq_add_one ((hlisted.mem names).1 hmem).1
    rw [levels, children_eq, look_eq fun _ hmem => probe_listed hfs hlead hmem, visited,
      List.findSome?_append]
    cases hlong : (listed fs place level).findSome? (refused? fs root place) with
    | some fault => rfl
    | none =>
      have hnext : ∀ names ∈ (listed fs place level).filter (isEntered fs place),
          fs.locate (below root names).toString = .ok (place ++ names, .folder) := by
        intro names hmem
        obtain ⟨hmem, hentered⟩ := List.mem_filter.1 hmem
        have hfound := probe_listed hfs hlead hmem
        have hshort := List.findSome?_eq_none_iff.1 hlong names hmem
        have hentry := ((isEntered_iff ((hlisted.mem names).1 hmem).2).1 hentered).1
        rw [hshort, entryAt_eq hentry] at hfound
        exact FileSystem.locate_of_probe hfound
      have hbelow := ih (h.next hfs) hnext
      simp only [Option.none_or, bind, Except.bind]
      rw [folders_items hne, hbelow, sources_items hne]
      cases (visited fs place depth ((listed fs place level).filter
        (isEntered fs place))).findSome? (refused? fs root place) with
      | some fault => rfl
      | none =>
        rw [List.filter_append, List.map_append]
        rfl

/-! ### The whole tree -/

theorem length_lt_depth (hfs : fs.IsTree) (hne : place ≠ []) {e : Entry}
    (h : fs.get? place = some e) : place.length < Discovery.depth fs := by
  have hmem := List.mem_map_of_mem (f := fun e => e.1.length) ((hfs.get?_eq_some_iff hne).1 h)
  have hle : place.length ≤ _ := List.le_max?_getD_of_mem (k := 0) hmem
  rw [Discovery.depth, List.foldl_max]
  omega

/-- Lists in one order that have the same places are the same. -/
theorem Spread.unique {places places' : List Place} (h : Spread P n places)
    (h' : Spread P n places') : places' = places := by
  have hnodup : ∀ {places : List Place}, Spread P n places → places.Nodup := by
    intro places h
    refine h.ordered.imp ?_
    rintro a _ hlt rfl
    exact Before.irrefl a hlt
  have hperm : places'.Perm places :=
    (List.perm_ext_iff_of_nodup (hnodup h') (hnodup h)).2 fun names =>
      (h'.mem names).trans (h.mem names).symm
  exact hperm.eq_of_pairwise (fun a b _ _ hlt hlt' => absurd hlt' hlt.asymm) h'.ordered h.ordered

theorem ranked_root (hplace : fs.get? place = some .folder) :
    Ranked (Entered fs place) 0 [[]] := by
  refine ⟨List.pairwise_singleton _ _, fun names => ?_⟩
  rw [List.mem_singleton, List.length_eq_zero_iff]
  refine ⟨?_, And.left⟩
  rintro rfl
  exact ⟨rfl, by rwa [List.append_nil], List.forall_mem_nil _, fun hne => absurd rfl hne⟩

theorem visited_all (hfs : fs.IsTree) (hplace : fs.get? place = some .folder) :
    Spread (Listed fs place) 1 (visited fs place (Discovery.depth fs) [[]]) := by
  refine visited_spread hfs (ranked_root hplace) ?_
  rintro names ⟨folders, name, e, rfl, he, -⟩
  have := length_lt_depth hfs (by simp) he
  rw [List.length_append] at this
  omega

theorem locate_of_folderAt? (h : fs.folderAt? root = .ok (some place)) :
    fs.locate root.toString = .ok (place, .folder) := by
  obtain ⟨found?, hprobe, h⟩ := bind_eq_ok.1 h
  obtain ⟨found, rfl, hfound⟩ := Option.bind_eq_some_iff.1 (Except.ok.inj h)
  split at hfound
  next hfolder =>
    obtain rfl := Option.some.inj hfound
    rw [FileSystem.locate_of_probe hprobe, ← isFolder_iff.1 hfolder]
  next => cases hfound

theorem entry_of_folderAt? (h : fs.folderAt? root = .ok (some place)) :
    fs.get? place = some .folder := by
  obtain ⟨-, -, -, hwalk⟩ := FileSystem.locate_eq_ok_iff.1 (locate_of_folderAt? h)
  exact (FileSystem.walk_ok hwalk).2

theorem discover_eq (hfs : fs.IsTree) (hroot : fs.folderAt? root = .ok (some place)) :
    fs.discover root extension =
      match (visited fs place (Discovery.depth fs) [[]]).findSome? (refused? fs root place) with
      | some fault => .error fault
      | none => .ok (((visited fs place (Discovery.depth fs) [[]]).filter
          (isSourceAt fs place extension)).map (below root)) := by
  have hlocate := locate_of_folderAt? hroot
  have hstart : Ranked (Entered fs place) 0 [[]] := ranked_root (entry_of_folderAt? hroot)
  have hfolder : [[]].map (folderAt root place) = [(⟨root, place⟩ : Folder)] := by
    simp [folderAt, below]
  have hlead : ∀ names ∈ [([] : Place)],
      fs.locate (below root names).toString = .ok (place ++ names, .folder) := by
    intro names hnames
    obtain rfl := List.mem_singleton.1 hnames
    simpa [below] using hlocate
  rw [FileSystem.discover, hroot, ← levels_eq hfs hstart hlead, hfolder]
  rfl

/-- In a tree, whatever the order in which its folders list their entries, discovery returns the
source files in and below the root that no hidden folder, no folder of modules and none that may not
be listed holds, each of them once, upper levels first and by names within a level. It does so
unless one of the entries that it has to look at, sources or not, is refused, since its path is too
long or nothing may be looked up in its folder: then the first of them in that order makes it
fail. -/
theorem discover_ordered (hfs : fs.IsTree) (hroot : fs.folderAt? root = .ok (some place))
    (extension : String) :
    ∃ met found : List Place,
      met.Pairwise Before ∧ (∀ names, names ∈ met ↔ Listed fs place names) ∧
      found.Pairwise Before ∧ (∀ names, names ∈ found ↔ IsSource fs place extension names) ∧
      fs.discover root extension =
        (match met.findSome? (refused? fs root place) with
        | some fault => .error fault
        | none => .ok (found.map (below root))) ∧
      ∀ fs' : FileSystem, fs'.entries.Perm fs.entries → fs'.here = fs.here →
        (∀ p, p ∈ fs'.unreadable ↔ p ∈ fs.unreadable) →
        (∀ p, p ∈ fs'.unsearchable ↔ p ∈ fs.unsearchable) →
        fs'.discover root extension = fs.discover root extension := by
  have hplace := entry_of_folderAt? hroot
  have hmet := visited_all hfs hplace
  have hfound := hmet.sources extension
  refine ⟨_, _, hmet.ordered, fun names => ?_, hfound.ordered, fun names => ?_,
    discover_eq hfs hroot, fun fs' hentries hhere hread hsearch => ?_⟩
  · exact (hmet.mem names).trans ⟨And.right, fun h => ⟨h.one_le_length, h⟩⟩
  · exact (hfound.mem names).trans ⟨And.right, fun h => ⟨h.listed.one_le_length, h⟩⟩
  · obtain ⟨hfs', hentry⟩ := hfs.perm hentries
    have hroot' : fs'.folderAt? root = .ok (some place) :=
      (FileSystem.folderAt?_congr hentry hsearch hhere root).trans hroot
    have hlisted : Listed fs' place = Listed fs place := by
      funext names
      simp only [Listed, Readable, hentry, hread]
    have hsource : isSourceAt fs' place extension = isSourceAt fs place extension := by
      funext names
      simp only [isSourceAt, entryAt, hentry]
    have hrefused : refused? fs' root place = refused? fs root place := by
      funext names
      simp only [refused?, FileSystem.refusal?, List.contains_iff_mem, hsearch]
    have hmet' := visited_all hfs' (hentry ▸ hplace)
    rw [hlisted] at hmet'
    rw [discover_eq hfs' hroot', discover_eq hfs hroot, hmet.unique hmet', hsource, hrefused]

/-- A source file two levels below the root. -/
theorem discover_ordered_inner :
    let fs : FileSystem := { entries := [(["ws"], .folder), (["ws", "a"], .folder),
      (["ws", "a", "x.bn"], .file [])] }
    let root := Path.ofString "/ws"
    fs.IsTree ∧ fs.folderAt? root = .ok (some ["ws"]) ∧
      fs.discover root ".bn" = .ok [⟨.single, ["ws", "a", "x.bn"]⟩] ∧
      ∃ found : List Place, found.Pairwise Before ∧
        (∀ names, names ∈ found ↔ IsSource fs ["ws"] ".bn" names) ∧
        fs.discover root ".bn" = .ok (found.map (below root)) := by
  intro fs root
  have hfs : fs.IsTree := by decide +kernel
  have hroot : fs.folderAt? root = .ok (some ["ws"]) := by decide +kernel
  have hrun : fs.discover root ".bn" = .ok [⟨.single, ["ws", "a", "x.bn"]⟩] := by decide +kernel
  refine ⟨hfs, hroot, hrun, ?_⟩
  obtain ⟨met, found, -, -, hordered, hmem, hfound, -⟩ := discover_ordered hfs hroot ".bn"
  split at hfound
  next => cases hfound.symm.trans hrun
  next => exact ⟨found, hordered, hmem, hfound⟩

/-- A folder that may not be listed is passed over; one that may be listed, but not searched, makes
discovery fail. -/
example :
    let entries : List (Place × Entry) := [(["ws"], .folder), (["ws", "a"], .folder),
      (["ws", "a", "x.bn"], .file [])]
    let root := Path.ofString "/ws"
    ({ entries, unreadable := [["ws", "a"]] } : FileSystem).discover root ".bn" = .ok [] ∧
      ({ entries, unsearchable := [["ws", "a"]] } : FileSystem).discover root ".bn" =
        .error (.denied "/ws/a/x.bn") := by
  decide +kernel

/-! ### A path that is too long -/

theorem length_encode {cs : List Char} (h : ∀ c ∈ cs, c.toNat < 0x80) :
    (Text.Utf8.encode cs).length = cs.length := by
  induction cs with
  | nil => rfl
  | cons c cs ih =>
    have hc : Text.Utf8.encodeCode c.toNat = [UInt8.ofNat c.toNat] :=
      if_pos (h c List.mem_cons_self)
    have hcons : Text.Utf8.encode (c :: cs) =
        Text.Utf8.encodeCode c.toNat ++ Text.Utf8.encode cs := rfl
    rw [hcons, hc, List.length_append, ih fun d hd => h d (List.mem_cons_of_mem _ hd),
      List.length_singleton, List.length_cons, Nat.add_comm]

theorem ascii_of_all {text : String} (h : text.toList.all (·.toNat < 0x80) = true) :
    ∀ c ∈ text.toList, c.toNat < 0x80 :=
  fun c hc => of_decide_eq_true (List.all_eq_true.1 h c hc)

theorem cons_joinWith {sep : Char} {ps : List (List Char)} (hne : ps ≠ []) :
    sep :: Text.joinWith sep ps = ps.flatMap (sep :: ·) := by
  induction ps with
  | nil => exact absurd rfl hne
  | cons p ps ih =>
    cases ps with
    | nil => simp [Text.joinWith]
    | cons q ps =>
      rw [Text.joinWith, ih (List.cons_ne_nil q ps)]
      rfl

/-- The path of a place has a slash in front of each name. -/
theorem length_ofPlace {places : Place} (hne : places ≠ [])
    (hascii : ∀ name ∈ places, ∀ c ∈ name.toList, c.toNat < 0x80) :
    (Text.Utf8.encode (Path.ofPlace places).toString.toList).length =
      (places.flatMap fun name => '/' :: name.toList).length := by
  have htext : (Path.ofPlace places).toString.toList =
      places.flatMap fun name => '/' :: name.toList := by
    rw [Path.toString_ofPlace, toList_intercalate_slash, cons_joinWith (by simpa using hne),
      List.flatMap_map]
  rw [htext, length_encode]
  intro c hc
  obtain ⟨name, hname, hc⟩ := List.mem_flatMap.1 hc
  rcases List.mem_cons.1 hc with rfl | hc
  · decide
  · exact hascii name hname c hc

/-- The path of a place leads along its names. -/
theorem locate_ofPlace {places : Place} {found : Place × Entry} (hne : places ≠ [])
    (hproper : places.Proper) (hnull : ∀ name ∈ places, Char.ofNat 0 ∉ name.toList)
    (hshort : tooLong (Path.ofPlace places) = false) (hwalk : fs.walk [] places = .ok found) :
    fs.locate (Path.ofPlace places).toString = .ok found := by
  have htext := Path.toString_ofPlace places
  have hclean : Char.ofNat 0 ∉ (Path.ofPlace places).toString.toList := by
    rw [htext, toList_intercalate_slash]
    intro hmem
    rcases List.mem_cons.1 hmem with hslash | hmem
    · cases hslash
    · rcases Text.mem_joinWith hmem with hslash | ⟨p, hp, hmem⟩
      · cases hslash
      · obtain ⟨name, hname, rfl⟩ := List.mem_map.1 hp
        exact hnull name hname hmem
  have hempty : (Path.ofPlace places).toString ≠ "" := by
    intro hempty
    rw [hempty] at htext
    cases htext
  have hpieces := Path.pieces_ofPlace hproper
  rw [if_neg hne] at hpieces
  refine FileSystem.locate_eq_ok_iff.2 ⟨hempty, hclean, by simpa [tooLong] using hshort, ?_⟩
  rw [hpieces, htext, List.head?_cons, if_pos rfl, FileSystem.walk]
  exact hwalk

/-- Into a folder and back, some times. -/
theorem walk_roundabout {folder : Place} (hname : FileSystem.Listable name)
    (hfolder : fs.get? folder = some .folder)
    (hinner : fs.get? (folder ++ [name]) = some .folder) (hsearch : fs.unsearchable = [])
    (k : Nat) :
    fs.walk folder (List.replicate k [name, ".."]).flatten = .ok (folder, .folder) := by
  induction k with
  | zero =>
    rw [List.replicate_zero, List.flatten_nil, FileSystem.walk, hfolder]
  | succ k ih =>
    have hstep : fs.walk folder [name, ".."] = .ok (folder, .folder) := by
      rw [hname.walk_cons hfolder]
      simp [FileSystem.walk, hfolder, hinner, hsearch]
    rw [List.replicate_succ, List.flatten_cons, FileSystem.walk_append, hstep]
    exact ih

/-- A source file in a folder, and beside it another folder, with a file that is no source. -/
def nested (name : String) : FileSystem where
  entries := [(["ws"], .folder), (["ws", name], .folder), (["ws", name, "y"], .file []),
    (["ws", "x.bn"], .file [])]

/-- The outer folder, by way of the inner one, sixteen times. -/
def wayRound (name : String) : Path :=
  .ofPlace ("ws" :: (List.replicate 16 [name, ".."]).flatten)

theorem get?_nested (name : String) :
    (nested name).get? (["ws"] ++ [name]) = some .folder := by
  simp [nested, FileSystem.get?, List.lookup_cons]

theorem isTree_nested (hname : FileSystem.Listable name) (hne : name ≠ "x.bn") :
    (nested name).IsTree := by
  have hws : FileSystem.Listable "ws" := by decide
  have hx : FileSystem.Listable "x.bn" := by decide
  have hy : FileSystem.Listable "y" := by decide
  refine ⟨by simp [nested, hne], ?_⟩
  simp only [nested, List.forall_mem_cons]
  exact ⟨⟨nofun, by simpa using hws, rfl⟩, ⟨nofun, by simpa using hname, rfl⟩,
    ⟨nofun, by simpa using hy, get?_nested name⟩, ⟨nofun, by simpa using hx, rfl⟩, nofun⟩

theorem mem_wayRound {part : String} (h : part ∈ (wayRound name).parts) :
    part = "ws" ∨ part = name ∨ part = ".." := by
  rcases List.mem_cons.1 h with rfl | h
  · exact .inl rfl
  · obtain ⟨ps, hps, h⟩ := List.mem_flatten.1 h
    rw [List.eq_of_mem_replicate hps] at h
    exact .inr (by simpa using h)

section
variable (hchars : name.toList = List.replicate 240 'd')
include hchars

theorem eq_of_mem_chars : ∀ c ∈ name.toList, c = 'd' := by
  rw [hchars]
  exact fun c => List.eq_of_mem_replicate

theorem ascii_of_chars : ∀ c ∈ name.toList, c.toNat < 0x80 := by
  intro c hc
  rw [eq_of_mem_chars hchars c hc]
  decide

theorem ne_of_chars {text : String} (htext : text.toList ≠ List.replicate 240 'd') :
    name ≠ text := by
  rintro rfl
  exact htext hchars

theorem listable_of_chars : FileSystem.Listable name := by
  have hall := eq_of_mem_chars hchars
  have hlength : (Text.Utf8.encode name.toList).length = 240 := by
    rw [length_encode (ascii_of_chars hchars), hchars, List.length_replicate]
  refine ⟨ne_of_chars hchars nofun, ne_of_chars hchars nofun, ne_of_chars hchars nofun,
    fun hslash => ?_, fun hnull => ?_, ?_⟩
  · cases hall _ hslash
  · cases hall _ hnull
  · rw [hlength]
    decide

theorem isTree_of_chars : (nested name).IsTree :=
  isTree_nested (listable_of_chars hchars) (ne_of_chars hchars (by decide))

theorem length_wayRound {names : Place}
    (hascii : ∀ part ∈ names, ∀ c ∈ part.toList, c.toNat < 0x80) :
    (Text.Utf8.encode (below (wayRound name) names).toString.toList).length =
      3907 + (names.flatMap fun part => '/' :: part.toList).length := by
  have hround : ∀ part ∈ (wayRound name).parts, ∀ c ∈ part.toList, c.toNat < 0x80 := by
    intro part hpart
    rcases mem_wayRound hpart with rfl | rfl | rfl
    · exact ascii_of_all (by decide)
    · exact ascii_of_chars hchars
    · exact ascii_of_all (by decide)
  have hlength : ((wayRound name).parts.flatMap fun part => '/' :: part.toList).length = 3907 := by
    simp only [wayRound, Path.ofPlace, List.length_flatMap, List.length_cons, List.map_cons,
      List.map_flatten, List.map_replicate, List.map_nil, List.sum_cons, List.sum_flatten,
      List.sum_replicate_nat, hchars, List.length_replicate]
    decide
  have hbelow : below (wayRound name) names = .ofPlace ((wayRound name).parts ++ names) := rfl
  have hne : (wayRound name).parts ++ names ≠ [] := List.cons_ne_nil _ _
  rw [hbelow, length_ofPlace hne (List.forall_mem_append.2 ⟨hround, hascii⟩),
    List.flatMap_append, List.length_append, hlength]

/-- The way round is not too long, nor is it with the name of the source file behind it, but it is
with the name of the other folder. -/
theorem tooLong_wayRound :
    tooLong (wayRound name) = false ∧ tooLong (below (wayRound name) ["x.bn"]) = false ∧
      tooLong (below (wayRound name) [name]) = true := by
  have hself : wayRound name = below (wayRound name) [] := by
    rw [below, List.append_nil]
  refine ⟨?_, ?_, ?_⟩
  · rw [tooLong, hself, length_wayRound hchars (List.forall_mem_nil _)]
    decide
  · have hascii : ∀ c ∈ "x.bn".toList, c.toNat < 0x80 := ascii_of_all (by decide)
    rw [tooLong, length_wayRound hchars (List.forall_mem_singleton.2 hascii)]
    decide
  · have hascii := ascii_of_chars hchars
    rw [tooLong, length_wayRound hchars (List.forall_mem_singleton.2 hascii),
      List.flatMap_singleton, List.length_cons, hchars, List.length_replicate]
    decide

theorem folderAt?_wayRound : (nested name).folderAt? (wayRound name) = .ok (some ["ws"]) := by
  have hname := listable_of_chars hchars
  have hwalk : (nested name).walk [] (wayRound name).parts = .ok (["ws"], .folder) := by
    have hstep : (nested name).walk [] ["ws"] = .ok (["ws"], .folder) := rfl
    have happend := (nested name).walk_append [] ["ws"] (List.replicate 16 [name, ".."]).flatten
    rw [hstep] at happend
    exact happend.trans (walk_roundabout hname rfl (get?_nested name) rfl 16)
  have hproper : Place.Proper (wayRound name).parts := by
    intro part hpart
    rcases mem_wayRound hpart with rfl | rfl | rfl
    · decide
    · exact ⟨hname.ne_empty, hname.slash⟩
    · decide
  have hnull : ∀ part ∈ (wayRound name).parts, Char.ofNat 0 ∉ part.toList := by
    intro part hpart
    rcases mem_wayRound hpart with rfl | rfl | rfl
    · decide
    · exact hname.null
    · decide
  have hlocate : (nested name).locate (wayRound name).toString = .ok (["ws"], .folder) :=
    locate_ofPlace (List.cons_ne_nil _ _) hproper hnull (tooLong_wayRound hchars).1 hwalk
  rw [FileSystem.folderAt?, FileSystem.probe, hlocate]
  rfl

theorem names_nested : (nested name).names ["ws"] = [name, "x.bn"] := by
  have hle : name ≤ "x.bn" := by
    refine le_of_lt (String.lt_iff_toList_lt.2 ?_)
    rw [hchars]
    exact List.cons_lt_cons_iff.2 (.inl (by decide))
  have hnames : (nested name).names ["ws"] =
      [name, "x.bn"].mergeSort fun a b => decide (a ≤ b) := by
    simp [nested, FileSystem.names]
  rw [hnames]
  exact List.mergeSort_of_pairwise (by simpa using hle)

theorem discover_wayRound : (nested name).discover (wayRound name) ".bn" =
    .error (.nameTooLong (below (wayRound name) [name]).toString) := by
  have hlisted : listed (nested name) ["ws"] [[]] = [[name], ["x.bn"]] := by
    have hopen :
        [[]].filter (fun names => !(nested name).unreadable.contains (["ws"] ++ names)) = [[]] :=
      rfl
    rw [listed, hopen, List.flatMap_singleton, List.append_nil, names_nested hchars]
    rfl
  have hrefused : refused? (nested name) (wayRound name) ["ws"] [name] =
      some (.nameTooLong (below (wayRound name) [name]).toString) := by
    rw [refused?, FileSystem.refusal?, if_pos (tooLong_wayRound hchars).2.2]
  rw [discover_eq (isTree_of_chars hchars) (folderAt?_wayRound hchars), Discovery.depth, visited,
    hlisted, List.cons_append, List.findSome?_cons, hrefused]

end

/-- The root holds a source file, and the path of that file is not too long. It is the path of the
folder beside it that is, and so discovery fails. -/
theorem discover_late :
    let name := String.ofList (List.replicate 240 'd')
    (nested name).IsTree ∧ (nested name).folderAt? (wayRound name) = .ok (some ["ws"]) ∧
      IsSource (nested name) ["ws"] ".bn" ["x.bn"] ∧
      tooLong (below (wayRound name) ["x.bn"]) = false ∧
      (nested name).discover (wayRound name) ".bn" =
        .error (.nameTooLong (below (wayRound name) [name]).toString) := by
  intro name
  have hchars : name.toList = List.replicate 240 'd' := String.toList_ofList
  have htree := isTree_of_chars hchars
  have hsource : (nested name).get? (["ws"] ++ ["x.bn"]) = some (.file []) :=
    (htree.get?_eq_some_iff (by simp)).2 (by simp [nested])
  exact ⟨htree, folderAt?_wayRound hchars,
    ⟨[], "x.bn", _, rfl, hsource, rfl, by decide, List.forall_mem_nil _,
      fun _ _ => List.not_mem_nil⟩,
    (tooLong_wayRound hchars).2.1, discover_wayRound hchars⟩

end Discovery

end BurnLens
