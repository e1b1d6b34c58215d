import BurnLens.Proofs.Index.Consistent
import BurnLens.Proofs.Session.Sequential
import BurnLens.Proofs.Session.Workbench

/-!
# What a scan does to open documents

Where an index follows an import it leaves a file alone that has a table. A scan does not: it
indexes each file that it discovers as it is on disk, whether or not the file is open and was
edited since. `scan_rereads` says what that comes to at any time of any session. A table stays
unless its file is reread, and an open document that had the table of its text has it still iff the
file that was reread has the same one, types of variables aside. `scan_overwrites` is the shortest
session in which it has not.
-/

namespace BurnLens

/-! ### Files below a root -/

namespace FileSystem
variable {fs : FileSystem} {path path' : Path} {place : Place} {uri text text' : String}

theorem proper_of_rooted (hroot : path.root ≠ .relative) (h : fs.resolve path = .ok place) :
    place.Proper := by
  simp only [resolve] at h
  split at h
  · cases h
  · cases h
    exact proper_foldl_follow (List.forall_mem_nil _) fun name hname => Path.pieces_slash hname

/-- A text that is read stands at the place that its URI tells. -/
theorem located_text (hroot : path.root ≠ .relative) (hread : fs.readText path = .ok (some text))
    (huri : fs.uriOf path = .ok uri) :
    ∃ place e, place.Proper ∧ uri = Uri.ofPlace place ∧ fs.get? place = some e ∧
      ((octets? e).bind Text.Utf8.decode?).map
        (fun cs => String.ofList (Text.unifyNewlines cs)) = some text := by
  have hclean : path.Clean := fun hrelative => absurd hrelative hroot
  unfold readText at hread
  split at hread
  next place e hlocate =>
    obtain ⟨hresolve, hentry⟩ := resolve_of_locate hclean hlocate
    obtain ⟨place', hplace', huri⟩ := bind_eq_ok.1 huri
    obtain rfl : place = place' := Except.ok.inj (hresolve.symm.trans hplace')
    split at hread
    · cases hread
    · exact ⟨place, e, proper_of_rooted hroot hresolve, (Except.ok.inj huri).symm, hentry,
        Except.ok.inj hread⟩
  next => cases hread
  next => cases hread

/-- Below a root, what is read under one URI is one text. -/
theorem readText_unique (hroot : path.root ≠ .relative) (hroot' : path'.root ≠ .relative)
    (hread : fs.readText path = .ok (some text)) (hread' : fs.readText path' = .ok (some text'))
    (huri : fs.uriOf path = .ok uri) (huri' : fs.uriOf path' = .ok uri) : text = text' := by
  obtain ⟨place, e, hproper, hplace, hentry, htext⟩ := located_text hroot hread huri
  obtain ⟨place', e', hproper', hplace', hentry', htext'⟩ := located_text hroot' hread' huri'
  obtain rfl : place = place' := Uri.ofPlace_inj hproper hproper' (hplace.symm.trans hplace')
  obtain rfl : e = e' := Option.some.inj (hentry.symm.trans hentry')
  exact Option.some.inj (htext.symm.trans htext')

end FileSystem

namespace Discovery
variable {fs : FileSystem} {extension : String} {r : PathRoot} {p : Path}

theorem path_of_mem_look {paths : List Path} {items : List Item} (h : look fs paths = .ok items) :
    ∀ i ∈ items, i.path ∈ paths := by
  induction paths generalizing items with
  | nil =>
    cases h
    exact List.forall_mem_nil _
  | cons path rest ih =>
    obtain ⟨found, -, h⟩ := bind_eq_ok.1 h
    obtain ⟨later, hlater, h⟩ := bind_eq_ok.1 h
    cases h
    intro i hi
    rcases List.mem_append.1 hi with hi | hi
    · obtain ⟨e, -, rfl⟩ := Option.map_eq_some_iff.1 (Option.mem_toList.1 hi)
      exact List.mem_cons_self
    · exact List.mem_cons_of_mem _ (ih hlater i hi)

theorem root_of_mem_levels {n : Nat} {folders : List Folder} {paths : List Path}
    (hfolders : ∀ f ∈ folders, f.path.root = r) (h : levels fs extension n folders = .ok paths)
    (hp : p ∈ paths) : p.root = r := by
  induction n generalizing folders paths with
  | zero =>
    cases h
    cases hp
  | succ n ih =>
    obtain ⟨items, hitems, h⟩ := bind_eq_ok.1 h
    obtain ⟨below, hbelow, h⟩ := bind_eq_ok.1 h
    cases h
    have hroot : ∀ i ∈ items, i.path.root = r := by
      intro i hi
      obtain ⟨f, hf, hpath⟩ := List.mem_flatMap.1 (path_of_mem_look hitems i hi)
      obtain ⟨name, -, hname⟩ := List.mem_map.1 hpath
      rw [← hname, ← hfolders f (List.mem_filter.1 hf).1]
      rfl
    rcases List.mem_append.1 hp with hp | hp
    · obtain ⟨i, hi, rfl⟩ := List.mem_map.1 hp
      exact hroot i (List.mem_filter.1 hi).1
    · refine ih ?_ hbelow hp
      intro f hf
      obtain ⟨i, hi, hentered⟩ := List.mem_filterMap.1 hf
      unfold Item.entered? at hentered
      split at hentered
      · cases hentered
        exact hroot i hi
      · cases hentered

theorem root_of_mem_discover {root : Path} {paths : List Path}
    (h : fs.discover root extension = .ok paths) (hp : p ∈ paths) : p.root = root.root := by
  obtain ⟨place?, -, h⟩ := bind_eq_ok.1 h
  cases place? with
  | none =>
    cases h
    cases hp
  | some place =>
    refine root_of_mem_levels ?_ h hp
    intro f hf
    rw [List.mem_singleton.1 hf]

end Discovery

/-! ### One file after another -/

namespace Index
variable {ix ix' : Index} {fs : FileSystem} {path : Path} {k : String}

/-- Everything that indexing a file can come to. -/
inductive FileCase (fs : FileSystem) (path : Path) (ix : Index) :
    Index × Except IndexFault (Option Extraction) → Prop where
  | failed {ix' : Index} (fault : IndexFault)
      (hsame : ∀ k, ix.tables.get? k ≠ none → SameAt k ix ix') :
      FileCase fs path ix (ix', .error fault)
  | unreadable (hread : fs.readText path = .ok none) : FileCase fs path ix (ix, .ok none)
  | indexed {ix' : Index} {text uri : String} {extraction : Extraction} {lookup : FunctionLookup}
      (hread : fs.readText path = .ok (some text)) (huri : fs.uriOf path = .ok uri)
      (htable : ix'.tables.get? uri = some (extract text uri lookup).table)
      (hsame : ∀ k, k ≠ uri → ix.tables.get? k ≠ none → SameAt k ix ix') :
      FileCase fs path ix (ix', .ok (some extraction))

theorem indexFile_case (fs : FileSystem) (path : Path) (ix : Index) :
    FileCase fs path ix (ix.indexFile fs path) := by
  unfold indexFile
  split
  next fault _ => exact .failed (.file fault) fun k _ => .refl k ix
  next hread => exact .unreadable hread
  next fault _ _ => exact .failed (.file fault) fun k _ => .refl k ix
  next text uri hread huri =>
    have hextends := load_extendsBut fs (chainBound fs) ix uri text
    split
    next ix' fault heq =>
      have herror := @load_error ix fs uri text (chainBound fs) fault (congrArg Prod.snd heq)
      rw [heq] at hextends herror
      refine .failed fault fun k hk => ?_
      by_cases hself : k = uri
      · rw [hself]
        exact herror
      · exact hextends.same k hself (.inl hk)
    next ix' extraction heq =>
      obtain ⟨htable, lookup, hextract⟩ := load_ok (congrArg Prod.snd heq)
      rw [heq] at hextends htable
      rw [hextract] at htable
      exact .indexed hread huri htable fun k hself hk => hextends.same k hself (.inl hk)

end Index

namespace Session

open Index (SameAt)

/-- The files that are indexed one after another up to the first failure. -/
def ended (h : Host) : List Path → Index → List Path
  | [], _ => []
  | path :: rest, ix =>
    match ix.indexFile h.fs path with
    | (_, .error _) => []
    | (ix, .ok _) => path :: ended h rest ix

/-- A text is read from one of the files and indexed under the URI. -/
def Reads (h : Host) (paths : List Path) (uri text : String) : Prop :=
  ∃ path ∈ paths, h.fs.readText path = .ok (some text) ∧ h.fs.uriOf path = .ok uri

section
variable {h : Host} {paths : List Path} {ix : Index} {k : String} {count : Nat}

theorem ended_sublist (h : Host) (paths : List Path) (ix : Index) :
    (ended h paths ix).Sublist paths := by
  fun_induction ended h paths ix with
  | case1 => exact .refl _
  | case2 => exact List.nil_sublist _
  | case3 path rest ix ix' r heq ih => exact ih.cons_cons path

theorem ended_eq (hok : (indexFiles h paths ix count).2.isOk = true) :
    ended h paths ix = paths := by
  induction paths generalizing ix count with
  | nil => rfl
  | cons path rest ih =>
    unfold indexFiles at hok
    unfold ended
    split at hok
    next heq => cases hok
    next heq =>
      rw [heq]
      exact congrArg (path :: ·) (ih hok)
    next heq =>
      rw [heq]
      exact congrArg (path :: ·) (ih hok)

/-- What is not read keeps its table and its list. -/
theorem indexFiles_same (hk : ix.tables.get? k ≠ none)
    (hnot : ∀ text, ¬ Reads h (ended h paths ix) k text) :
    SameAt k ix (indexFiles h paths ix count).1 := by
  induction paths generalizing ix count with
  | nil => exact .refl k ix
  | cons path rest ih =>
    unfold indexFiles
    unfold ended at hnot
    have hcase := Index.indexFile_case h.fs path ix
    revert hcase hnot
    generalize ix.indexFile h.fs path = out
    intro hnot hcase
    cases hcase with
    | failed fault hsame => exact hsame k hk
    | unreadable _ =>
      refine ih hk fun text hreads => hnot text ?_
      obtain ⟨path', hpath', hreads⟩ := hreads
      exact ⟨path', List.mem_cons_of_mem _ hpath', hreads⟩
    | @indexed ix' text uri _ _ hread huri _ hsame =>
      have hne : k ≠ uri := by
        rintro rfl
        exact hnot text ⟨path, List.mem_cons_self, hread, huri⟩
      have hstep := hsame k hne hk
      refine hstep.trans (ih (hstep.table ▸ hk) fun text' hreads => hnot text' ?_)
      obtain ⟨path', hpath', hreads⟩ := hreads
      exact ⟨path', List.mem_cons_of_mem _ hpath', hreads⟩

/-- What is read has the table of a text that was read. -/
theorem indexFiles_reads {text : String} (hreads : Reads h (ended h paths ix) k text) :
    ∃ text' lookup, Reads h (ended h paths ix) k text' ∧
      (indexFiles h paths ix count).1.tables.get? k = some (extract text' k lookup).table := by
  induction paths generalizing ix count text with
  | nil =>
    obtain ⟨path, hpath, -⟩ := hreads
    cases hpath
  | cons path rest ih =>
    unfold indexFiles
    unfold ended at hreads ⊢
    have hcase := Index.indexFile_case h.fs path ix
    revert hcase hreads
    generalize ix.indexFile h.fs path = out
    intro hreads hcase
    have hlater : ∀ {ix' : Index} {text' : String}, Reads h (ended h rest ix') k text' →
        Reads h (path :: ended h rest ix') k text' := by
      rintro ix' text' ⟨path', hpath', hrest⟩
      exact ⟨path', List.mem_cons_of_mem _ hpath', hrest⟩
    obtain ⟨path', hpath', hread', huri'⟩ := hreads
    cases hcase with
    | failed fault _ => cases hpath'
    | unreadable hread =>
      rcases List.mem_cons.1 hpath' with rfl | hpath'
      · cases hread.symm.trans hread'
      · obtain ⟨text'', lookup, hreads, htable⟩ := ih ⟨path', hpath', hread', huri'⟩
        exact ⟨text'', lookup, hlater hreads, htable⟩
    | @indexed ix' text₁ uri _ lookup hread huri htable _ =>
      by_cases hrest : ∃ text₂, Reads h (ended h rest ix') k text₂
      · obtain ⟨text₂, hreads⟩ := hrest
        obtain ⟨text'', lookup, hreads, htable⟩ := ih hreads
        exact ⟨text'', lookup, hlater hreads, htable⟩
      · -- The first file is the last that is read under this URI.
        obtain rfl : path' = path := by
          rcases List.mem_cons.1 hpath' with hself | hpath'
          · exact hself
          · exact absurd ⟨text, path', hpath', hread', huri'⟩ hrest
        obtain rfl : uri = k := Except.ok.inj (huri.symm.trans huri')
        have hsame : SameAt uri ix' (indexFiles h rest ix' (count + 1)).1 :=
          indexFiles_same (htable ▸ Option.some_ne_none _) fun text₂ hreads => hrest ⟨text₂, hreads⟩
        exact ⟨text₁, lookup, ⟨path', List.mem_cons_self, hread, huri⟩, hsame.table.trans htable⟩

end

/-- The files that a scan indexes. -/
def scanned (s : Session) (h : Host) : List Path :=
  match s.root with
  | none => []
  | some root =>
    match h.fs.discover root s.settings.sourceExtension with
    | .error _ => []
    | .ok paths => ended h paths s.pipeline.index

/-- The scan indexes a file under the URI, from the text on disk. -/
def Rereads (s : Session) (h : Host) (uri text : String) : Prop :=
  Reads h (s.scanned h) uri text

variable {s : Session} {h : Host} {uri text : String}

/-- A scan touches nothing, or it indexes files below the root. -/
theorem scan_case (s : Session) (h : Host) :
    ((s.scan h).1 = s ∧ s.scanned h = []) ∨
      ∃ root paths, s.root = some root ∧
        h.fs.discover root s.settings.sourceExtension = .ok paths ∧
        s.scanned h = ended h paths s.pipeline.index ∧
        s.scan h = (s.withIndex (indexFiles h paths s.pipeline.index 0).1,
          (indexFiles h paths s.pipeline.index 0).2) := by
  unfold scan scanned
  cases hroot : s.root with
  | none => exact .inl ⟨rfl, rfl⟩
  | some root =>
    cases hpaths : h.fs.discover root s.settings.sourceExtension with
    | error fault => exact .inl ⟨by simp [hpaths], by simp [hpaths]⟩
    | ok paths => exact .inr ⟨root, paths, rfl, hpaths, by simp [hpaths], by simp [hpaths]⟩

theorem scan_same (hk : s.pipeline.index.tables.get? uri ≠ none)
    (hnot : ∀ text, ¬ s.Rereads h uri text) :
    SameAt uri s.pipeline.index (s.scan h).1.pipeline.index := by
  unfold Rereads at hnot
  rcases s.scan_case h with ⟨hscan, -⟩ | ⟨root, paths, -, -, hscanned, hscan⟩
  · rw [hscan]
    exact .refl uri _
  · rw [hscanned] at hnot
    rw [hscan]
    exact indexFiles_same hk hnot

theorem root_of_mem_scanned (hroot : ∀ root ∈ s.root, root.root ≠ .relative) {path : Path}
    (hpath : path ∈ s.scanned h) : path.root ≠ .relative := by
  rcases s.scan_case h with ⟨-, hscanned⟩ | ⟨root, paths, heq, hpaths, hscanned, -⟩
  · rw [hscanned] at hpath
    cases hpath
  · rw [hscanned] at hpath
    rw [Discovery.root_of_mem_discover hpaths ((ended_sublist h paths _).subset hpath)]
    exact hroot root heq

theorem scanned_eq {count : Nat} (hok : (s.scan h).2 = .ok count) {root : Path}
    (hroot : s.root = some root) :
    h.fs.discover root s.settings.sourceExtension = .ok (s.scanned h) := by
  unfold scan at hok
  unfold scanned
  rw [hroot] at hok ⊢
  dsimp only at hok ⊢
  cases hpaths : h.fs.discover root s.settings.sourceExtension with
  | error fault =>
    rw [hpaths] at hok
    cases hok
  | ok paths =>
    rw [hpaths] at hok
    exact congrArg Except.ok (ended_eq (congrArg Except.isOk hok)).symm

theorem scan_reads (hroot : ∀ root ∈ s.root, root.root ≠ .relative)
    (hreads : s.Rereads h uri text) :
    ∃ lookup, (s.scan h).1.pipeline.index.tables.get? uri =
      some (extract text uri lookup).table := by
  obtain ⟨path, hpath, hread, huri⟩ := hreads
  have hreads : s.Rereads h uri text := ⟨path, hpath, hread, huri⟩
  unfold Rereads at hreads
  rcases s.scan_case h with ⟨-, hscanned⟩ | ⟨root, paths, -, -, hscanned, hscan⟩
  · rw [hscanned] at hpath
    cases hpath
  · rw [hscanned] at hreads
    obtain ⟨text', lookup, ⟨path', hpath', hread', huri'⟩, htable⟩ := indexFiles_reads hreads
    rw [← hscanned] at hpath'
    obtain rfl := FileSystem.readText_unique (root_of_mem_scanned hroot hpath)
      (root_of_mem_scanned hroot hpath') hread hread' huri huri'
    rw [hscan]
    exact ⟨lookup, htable⟩

/-! ### Sessions at any time -/

@[simp] theorem root_publish (s : Session) (p : Publication) : (s.publish p).root = s.root := by
  unfold publish
  split <;> rfl

@[simp] theorem root_settle (s : Session) (d : Document) (ds : List Diagnostic) :
    (s.settle d ds).root = s.root := by
  unfold settle
  split
  · rfl
  · split
    · exact s.root_publish _
    · rfl

@[simp] theorem root_start (s : Session) (h : Host) (d : Document) :
    (s.start h d).1.root = s.root := by
  unfold start
  dsimp only
  split <;> simp

@[simp] theorem root_finish (s : Session) (h : Host) (pass : Pass) :
    (s.finish h pass).1.root = s.root := by
  unfold finish
  split <;> simp

@[simp] theorem root_scan (s : Session) (h : Host) : (s.scan h).1.root = s.root := by
  rcases s.scan_case h with ⟨hscan, -⟩ | ⟨root, paths, -, -, -, hscan⟩
  · rw [hscan]
  · rw [hscan]
    rfl

end Session

namespace Workbench
variable {w : Workbench} {h : Host}

theorem root_advance (w : Workbench) (h : Host) (docs : List Document) :
    (w.advance h docs).session.root = w.session.root := by
  induction docs generalizing w with
  | nil => rfl
  | cons d rest ih =>
    have hstart := w.session.root_start h d
    unfold advance
    split <;> rename_i heq <;> rw [heq] at hstart
    · exact hstart
    · exact (ih _).trans hstart
    · exact hstart

theorem root_step (w : Workbench) (st : Step) : (w.step st).session.root = w.session.root := by
  cases st with
  | tell e =>
    cases e with
    | update h d => exact root_advance w h [d]
    | close uri => simp [step, tell, Session.closeDocument, Session.withCache, Session.withIndex]
    | reconfigure h path => exact root_advance _ h _
    | shutDown => rfl
  | finish h place =>
    rw [step, finish]
    split
    · rfl
    next task _ =>
      have hfinish := w.session.root_finish h task.pass
      dsimp only
      split <;> rename_i heq <;> rw [heq] at hfinish
      · exact hfinish
      · exact (root_advance _ h _).trans hfinish

/-- A workbench at any time: it began with a new session, and events, ends of passes and scans came
in any order. -/
inductive Reached : Workbench → Prop where
  | created {h : Host} {settings : Settings} {root : Option Path} {standIn : Option StandIn}
      {hasListener : Bool} {s₀ : Session}
      (hs₀ : Session.create h settings root standIn hasListener = .ok s₀) : Reached (new s₀)
  | stepped {w : Workbench} (hw : Reached w) (st : Step) : Reached (w.step st)
  | scanned {w : Workbench} (hw : Reached w) (h : Host) :
    Reached { w with session := (w.session.scan h).1 }

theorem Reached.rooted (hw : Reached w) : ∀ root ∈ w.session.root, root.root ≠ .relative := by
  induction hw with
  | created hs₀ =>
    obtain ⟨index, hindex, hs₀⟩ := bind_eq_ok.1 hs₀
    obtain ⟨place?, -, hindex⟩ := bind_eq_ok.1 hindex
    cases hs₀
    cases hindex
    intro root hroot
    obtain ⟨place, -, rfl⟩ := Option.map_eq_some_iff.1 hroot
    exact nofun
  | stepped _ st ih =>
    rw [root_step]
    exact ih
  | scanned _ h ih =>
    rw [Session.root_scan]
    exact ih

/-- A scan that returns has indexed all sources below the root. It leaves the tables and import
lists of all files that it does not index, and gives each file that it indexes the table of its text
on disk. So an open document that has the table of its text keeps such a table iff its file, where
it is indexed, has the same one. -/
theorem scan_rereads (hw : Reached w) (h : Host) :
    let s := w.session
    let s' := (w.session.scan h).1
    (∀ count root, (s.scan h).2 = .ok count → s.root = some root →
      h.fs.discover root s.settings.sourceExtension = .ok (s.scanned h)) ∧
    (∀ uri, s.pipeline.index.tables.get? uri ≠ none → (∀ text, ¬ s.Rereads h uri text) →
      Index.SameAt uri s.pipeline.index s'.pipeline.index) ∧
    (∀ uri text, s.Rereads h uri text →
      ∃ lookup, s'.pipeline.index.tables.get? uri = some (extract text uri lookup).table) ∧
    ∀ u d, s.documents.get? u = some d → s.HasTable d →
      (s'.HasTable d ↔ ∀ text, s.Rereads h d.uri text →
        (extract text d.uri fun _ => none).table.untyped =
          (extract d.text d.uri fun _ => none).table.untyped) := by
  intro s s'
  have hsame : ∀ uri, s.pipeline.index.tables.get? uri ≠ none →
      (∀ text, ¬ s.Rereads h uri text) → Index.SameAt uri s.pipeline.index s'.pipeline.index :=
    fun uri hk hnot => Session.scan_same hk hnot
  have hreads : ∀ uri text, s.Rereads h uri text →
      ∃ lookup, s'.pipeline.index.tables.get? uri = some (extract text uri lookup).table :=
    fun uri text hreads => Session.scan_reads hw.rooted hreads
  refine ⟨fun _ _ hok hroot => Session.scanned_eq hok hroot, hsame, hreads, ?_⟩
  intro u d _ hd
  constructor
  · rintro ⟨t, ht, huntyped⟩ text htext
    obtain ⟨lookup, htable⟩ := hreads d.uri text htext
    obtain rfl : t = (extract text d.uri lookup).table := Option.some.inj (ht.symm.trans htable)
    rw [extract_untyped _ lookup, huntyped]
  · intro hdisk
    by_cases hread : ∃ text, s.Rereads h d.uri text
    · obtain ⟨text, htext⟩ := hread
      obtain ⟨lookup, htable⟩ := hreads d.uri text htext
      refine ⟨_, htable, ?_⟩
      rw [extract_untyped lookup fun _ => none]
      exact hdisk text htext
    · obtain ⟨t, ht, huntyped⟩ := hd
      have hkept := hsame d.uri (ht ▸ Option.some_ne_none t) fun text htext => hread ⟨text, htext⟩
      exact ⟨t, hkept.table.trans ht, huntyped⟩

/-- The file on disk differs from the document that is open, but has the same table. -/
theorem scan_rereads_comment :
    let saved := "var x = 1\n// saved\n"
    let fs : FileSystem := { entries := [(["ws"], .folder),
      (["ws", "main.bn"], .file (Text.Utf8.encode saved.toList))] }
    let h : Host := { fs, searchFolders := [], salt := "" }
    let d : Document := ⟨"file:///ws/main.bn", 1, "var x = 1\n"⟩
    ∃ s₀, Session.create h {} (some (.ofString "/ws")) (some {}) true = .ok s₀ ∧
      let w := (new s₀).step (.tell (.update h d))
      Reached w ∧ w.session.documents.get? d.uri = some d ∧ w.session.HasTable d ∧
        w.session.Rereads h d.uri saved ∧ (w.session.scan h).1.HasTable d := by
  intro saved fs h d
  obtain ⟨s₀, hs₀⟩ : ∃ s₀, Session.create h {} (some (.ofString "/ws")) (some {}) true = .ok s₀ :=
    ⟨_, rfl⟩
  refine ⟨s₀, hs₀, ?_⟩
  intro w
  have hw : Reached w := (Reached.created hs₀).stepped _
  have hopen : w.session.documents.get? d.uri = some d := by
    cases hs₀
    decide +kernel
  have htable : w.session.HasTable d := by
    refine ⟨(extract d.text d.uri fun _ => none).table, ?_, rfl⟩
    cases hs₀
    decide +kernel
  have hscanned : w.session.scanned h = [⟨.single, ["ws", "main.bn"]⟩] := by
    cases hs₀
    decide +kernel
  have hread : fs.readText ⟨.single, ["ws", "main.bn"]⟩ = .ok (some saved) := by decide +kernel
  refine ⟨hw, hopen, htable, ⟨_, hscanned ▸ List.mem_singleton.2 rfl, hread, by decide +kernel⟩, ?_⟩
  refine ((scan_rereads hw h).2.2.2 _ d hopen htable).2 ?_
  rintro text ⟨path, hpath, htext, -⟩
  rw [hscanned] at hpath
  obtain rfl := List.mem_singleton.1 hpath
  obtain rfl : saved = text := Option.some.inj (Except.ok.inj (hread.symm.trans htext))
  decide +kernel

/-- The file on disk is an older one: the variable of the open document is no longer known. -/
theorem scan_overwrites :
    let fs : FileSystem := { entries := [(["ws"], .folder),
      (["ws", "main.bn"], .file (Text.Utf8.encode "var y = 2\n".toList))] }
    let h : Host := { fs, searchFolders := [], salt := "" }
    let d : Document := ⟨"file:///ws/main.bn", 1, "var x = 1\nprint(x)\n"⟩
    ∃ s₀, Session.create h {} (some (.ofString "/ws")) (some {}) true = .ok s₀ ∧
      let w := (new s₀).step (.tell (.update h d))
      Reached w ∧ w.session.documents.get? d.uri = some d ∧ w.session.HasTable d ∧
        ¬ (w.session.scan h).1.HasTable d := by
  intro fs h d
  obtain ⟨s₀, hs₀⟩ : ∃ s₀, Session.create h {} (some (.ofString "/ws")) (some {}) true = .ok s₀ :=
    ⟨_, rfl⟩
  refine ⟨s₀, hs₀, ?_⟩
  intro w
  have hdisk : (w.session.scan h).1.pipeline.index.tables.get? d.uri =
      some (extract "var y = 2\n" d.uri fun _ => none).table := by
    cases hs₀
    decide +kernel
  refine ⟨(Reached.created hs₀).stepped _, ?_,
    ⟨(extract d.text d.uri fun _ => none).table, ?_, rfl⟩, ?_⟩
  · cases hs₀
    decide +kernel
  · cases hs₀
    decide +kernel
  · rintro ⟨t, ht, huntyped⟩
    obtain rfl := Option.some.inj (ht.symm.trans hdisk)
    exact absurd huntyped (by decide +kernel)

end Workbench

end BurnLens
