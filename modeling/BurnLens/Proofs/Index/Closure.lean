import Mathlib.Logic.Relation
import BurnLens.Proofs.Index.Consistent
import BurnLens.Proofs.Index.Frame

/-!
# What indexing a file draws in

Indexing a file draws in the files that it imports, those that these import, and so on, as far as
they are new to the index: `Draws` is one step of that. `load_error_of_reached` traces a failure
back to an import, among the files drawn in, that cannot be followed. The other way round,
`indexDocument_covers`: when indexing ends well, every file drawn in was read to its end, each of
its imports was followed, and what they lead to is in the index. The latter needs that no chain of
imports is cut short. A chain ends because each file on it stands at a place of its own that none of
those further up has: `vacancies` counts the places that are left.
-/

namespace BurnLens

/-- A text and the URI that it is indexed under. -/
structure SourceText where
  uri : String
  text : String

def SourceText.importPaths (source : SourceText) : List String :=
  Symbol.importPaths source.text.toList

theorem Uri.toPath?_some {uri : String} {path : Path} (h : Uri.toPath? uri = .ok (some path)) :
    ∃ s, path = .ofString s := by
  obtain ⟨_, -, h⟩ := bind_eq_ok.1 h
  split at h
  · exact ⟨uri, (Option.some.inj (Except.ok.inj h)).symm⟩
  · split at h
    · cases h
    · exact ⟨_, (Option.some.inj (Except.ok.inj h)).symm⟩

namespace Index
variable {ix ix' ix'' : Index} {fs : FileSystem} {uri text : String} {a b : SourceText}

/-- The index has a table of the file, or is about to. -/
def Knows (ix : Index) (uri : String) : Prop :=
  ix.tables.get? uri ≠ none ∨ uri ∈ ix.active

/-- The source is a file that some import leads to. -/
def Finds (ix : Index) (fs : FileSystem) (source : SourceText) : Prop :=
  ∃ importPath fromUri path,
    ix.importFile fs importPath fromUri = .ok (some (path, source.uri)) ∧
      fs.readText path = .ok (some source.text)

/-- An import of `a` leads to the file `b`, which the index does not know. -/
def Draws (ix : Index) (fs : FileSystem) (a b : SourceText) : Prop :=
  ∃ importPath ∈ a.importPaths, ∃ path,
    ix.importFile fs importPath a.uri = .ok (some (path, b.uri)) ∧
      fs.readText path = .ok (some b.text) ∧ ¬ ix.Knows b.uri

/-- What indexing a source draws in, the source itself included. -/
def Reaches (ix : Index) (fs : FileSystem) : SourceText → SourceText → Prop :=
  Relation.ReflTransGen (ix.Draws fs)

/-- The import can be followed, and the index knows the file that it leads to. -/
def Follows (ix : Index) (fs : FileSystem) (importPath fromUri : String) : Prop :=
  ∃ found, ix.importFile fs importPath fromUri = .ok found ∧
    ∀ path target, found = some (path, target) →
      ∀ text, fs.readText path = .ok (some text) → ix.Knows target

/-- Every import of the source was followed. -/
def Covers (ix : Index) (fs : FileSystem) (source : SourceText) : Prop :=
  ∀ importPath ∈ source.importPaths, ix.Follows fs importPath source.uri

/-! ### Indexes that know more -/

theorem importFile_congr (hroot : ix'.root = ix.root) (hlayout : ix'.layout = ix.layout)
    (fs : FileSystem) (importPath fromUri : String) :
    ix'.importFile fs importPath fromUri = ix.importFile fs importPath fromUri := by
  unfold importFile resolveImport importCandidate completeExtension
  rw [hroot, hlayout]

/-- `ix'` follows imports as `ix` does and knows every file that `ix` knows. -/
structure Widens (ix ix' : Index) : Prop where
  root : ix'.root = ix.root
  layout : ix'.layout = ix.layout
  knows : ∀ k, ix.Knows k → ix'.Knows k

namespace Widens

theorem trans (h : Widens ix ix') (h' : Widens ix' ix'') : Widens ix ix'' :=
  ⟨h'.root.trans h.root, h'.layout.trans h.layout, fun k hk => h'.knows k (h.knows k hk)⟩

theorem activate (ix : Index) (uri : String) : Widens ix (ix.activate uri) :=
  ⟨rfl, rfl, fun _ hk => hk.imp_right (List.mem_cons_of_mem _)⟩

theorem importFile (h : Widens ix ix') (fs : FileSystem) (importPath fromUri : String) :
    ix'.importFile fs importPath fromUri = ix.importFile fs importPath fromUri :=
  importFile_congr h.root h.layout fs importPath fromUri

theorem draws (h : Widens ix ix') (hd : ix'.Draws fs a b) : ix.Draws fs a b := by
  obtain ⟨importPath, hmem, path, hfile, hread, hnew⟩ := hd
  rw [h.importFile] at hfile
  exact ⟨importPath, hmem, path, hfile, hread, fun hk => hnew (h.knows _ hk)⟩

theorem reaches (h : Widens ix ix') (hr : ix'.Reaches fs a b) : ix.Reaches fs a b :=
  hr.lift id fun _ _ => h.draws

theorem follows {importPath fromUri : String} (h : Widens ix ix')
    (hf : ix.Follows fs importPath fromUri) : ix'.Follows fs importPath fromUri := by
  obtain ⟨found, hfile, hknows⟩ := hf
  rw [← h.importFile] at hfile
  exact ⟨found, hfile, fun path target hfound text hread =>
    h.knows target (hknows path target hfound text hread)⟩

theorem covers (h : Widens ix ix') (hc : ix.Covers fs a) : ix'.Covers fs a :=
  fun importPath hmem => h.follows (hc importPath hmem)

theorem finds (h : Widens ix ix') (hf : ix'.Finds fs a) : ix.Finds fs a := by
  obtain ⟨importPath, fromUri, path, hfile, hread⟩ := hf
  rw [h.importFile] at hfile
  exact ⟨importPath, fromUri, path, hfile, hread⟩

end Widens

theorem Extends.widens (h : Extends ix ix') : Widens ix ix' where
  root := h.root
  layout := h.layout
  knows k hk := by
    have hsame := h.same k hk
    unfold Knows
    rw [hsame.table, h.active]
    exact hk

/-! ### Where a failure comes from -/

theorem loadImports_error {loader : Loader} {targets paths : List String} {fault : IndexFault}
    (hload : ∀ ix uri text, ExtendsBut uri ix (loader ix uri text).1)
    (h : (loadImports fs loader uri targets paths ix).2 = .error fault) :
    ∃ importPath ∈ paths, ∃ ix', Extends ix ix' ∧
      (loadImport fs loader ix' importPath uri).2 = .error fault := by
  induction paths generalizing ix targets with
  | nil => cases h
  | cons path rest ih =>
    have hstep := loadImport_extends fs hload ix path uri
    unfold loadImports at h
    split at h
    · rename_i ix' fault' heq
      cases h
      exact ⟨path, by simp, ix, .refl ix, by rw [heq]⟩
    all_goals
      rename_i ix' _ heq
      rw [heq] at hstep
      obtain ⟨importPath, hmem, ix'', hext, herror⟩ := ih h
      exact ⟨importPath, List.mem_cons_of_mem _ hmem, ix'', hstep.trans hext, herror⟩

/-- A failure is that of an import of a file that was drawn in. -/
theorem load_error_of_reached {depth : Nat} {fault : IndexFault}
    (h : (load fs depth ix uri text).2 = .error fault) :
    ∃ source, (ix.activate uri).Reaches fs ⟨uri, text⟩ source ∧
      ∃ importPath ∈ source.importPaths, ix.importFile fs importPath source.uri = .error fault := by
  induction depth generalizing ix uri text with
  | zero => cases h
  | succ depth ih =>
    have himports : (loadImports fs (load fs depth) uri [] (Symbol.importPaths text.toList)
        (ix.activate uri)).2 = .error fault := by
      unfold load at h
      split at h <;> rename_i heq <;> cases h
      rw [heq]
    obtain ⟨importPath, hmem, ix', hext, herror⟩ :=
      loadImports_error (load_extendsBut fs depth) himports
    have hwide := hext.widens
    cases loadImport_case fs (load fs depth) ix' importPath uri with
    | fault fault' hfile heq =>
      rw [heq] at herror
      cases herror
      rw [hwide.importFile] at hfile
      exact ⟨⟨uri, text⟩, .refl, importPath, hmem, hfile⟩
    | absent _ heq => rw [heq] at herror; cases herror
    | unreadable _ _ _ _ heq => rw [heq] at herror; cases herror
    | known _ _ _ _ heq => rw [heq] at herror; cases herror
    | loaded path target text' hfile hnew hidle hread heq =>
      have hfail : (load fs depth ix' target text').2 = .error fault := by
        rw [heq] at herror
        cases hload : (load fs depth ix' target text').2 with
        | error fault' =>
          rw [hload] at herror
          cases herror
          rfl
        | ok extraction =>
          rw [hload] at herror
          cases herror
      obtain ⟨source, hreach, path', hpath', hfault⟩ := ih hfail
      -- what the inner call draws in is drawn in from here, for this index knows less
      have hinner := (hwide.trans (.activate ix' target)).reaches hreach
      have hdraws : (ix.activate uri).Draws fs ⟨uri, text⟩ ⟨target, text'⟩ := by
        refine ⟨importPath, hmem, path, ?_, hread, fun hk => ?_⟩
        · rw [← hwide.importFile]
          exact hfile
        · rcases hwide.knows target hk with hk | hk
          · exact hk hnew
          · exact hidle hk
      refine ⟨source, .head hdraws hinner, path', hpath', ?_⟩
      rw [hwide.importFile] at hfault
      exact hfault

/-! ### Chains of imports end -/

/-- The places of files whose URIs are not taken. -/
def vacancies (fs : FileSystem) (taken : List String) : Nat :=
  fs.entries.countP fun e => Uri.ofPlace e.1 ∉ taken

theorem vacancies_cons_lt {place : Place} {taken : List String} {entry : Entry}
    (hplace : fs.entries.lookup place = some entry) (hfree : Uri.ofPlace place ∉ taken) :
    vacancies fs (Uri.ofPlace place :: taken) < vacancies fs taken := by
  -- everywhere the count can only fall, and it does at the entry itself
  obtain ⟨front, back, heq, -⟩ := List.lookup_eq_some_iff.1 hplace
  have hle : ∀ es : List (Place × Entry),
      es.countP (fun e => Uri.ofPlace e.1 ∉ Uri.ofPlace place :: taken) ≤
        es.countP fun e => Uri.ofPlace e.1 ∉ taken :=
    fun es => List.countP_mono_left (by simp +contextual)
  have hfront := hle front
  have hback := hle back
  unfold vacancies
  rw [heq, List.countP_append, List.countP_append, List.countP_cons_of_neg (by simp),
    List.countP_cons_of_pos (by simpa using hfree)]
  omega

/-- The workspace root, where there is one, is a path with proper names. -/
def Rooted (ix : Index) : Prop :=
  ∀ root ∈ ix.root, root.Proper

theorem create_rooted {root : Option Path} {layout : Layout} (hhere : fs.here.Proper)
    (h : create fs root layout = .ok ix) : ix.Rooted := by
  obtain ⟨place?, hplace, h⟩ := bind_eq_ok.1 h
  cases h
  intro path hpath
  obtain ⟨place, rfl, rfl⟩ := Option.map_eq_some_iff.1 hpath
  cases root with
  | none => cases hplace
  | some root =>
    obtain ⟨place', hresolve, hplace⟩ := bind_eq_ok.1 hplace
    cases hplace
    exact FileSystem.proper_resolve hhere hresolve

theorem Rooted.of_widens (h : Widens ix ix') (hr : ix.Rooted) : ix'.Rooted := by
  unfold Rooted
  rw [h.root]
  exact hr

theorem Rooted.importCandidate {importPath fromUri : String} {path : Path} (hr : ix.Rooted)
    (h : ix.importCandidate importPath fromUri = .ok (some path)) : path.Proper := by
  unfold Index.importCandidate at h
  split at h
  · obtain ⟨root, hroot, rfl⟩ := Option.map_eq_some_iff.1 (Except.ok.inj h)
    exact ((hr root hroot).join (Path.proper_ofString _)).join (Path.proper_ofString _)
  · split at h
    · split at h
      · rw [← Option.some.inj (Except.ok.inj h)]
        exact Path.proper_ofString _
      · rename_i root hroot
        rw [← Option.some.inj (Except.ok.inj h)]
        exact (hr root hroot).join (Path.proper_ofString _)
    · obtain ⟨current, hcurrent, h⟩ := bind_eq_ok.1 h
      obtain ⟨origin, rfl, rfl⟩ := Option.map_eq_some_iff.1 (Except.ok.inj h)
      obtain ⟨s, rfl⟩ := Uri.toPath?_some (mapError_eq_ok.1 hcurrent)
      exact (Path.proper_ofString s).parent.join (Path.proper_ofString _)

theorem Rooted.resolveImport {importPath fromUri : String} {path : Path} (hr : ix.Rooted)
    (h : ix.resolveImport importPath fromUri = .ok (some path)) : path.Clean := by
  obtain ⟨candidate, hcandidate, h⟩ := bind_eq_ok.1 h
  cases candidate with
  | none => cases h
  | some candidate =>
    have hclean := (hr.importCandidate hcandidate).clean
    obtain ⟨path', hpath', h⟩ := bind_eq_ok.1 h
    cases h
    unfold completeExtension at hpath'
    split at hpath'
    · cases hpath'
      exact hclean
    · exact hclean.withName (mapError_eq_ok.1 hpath')

theorem Rooted.vacancies_lt {importPath fromUri target : String} {path : Path} (hr : ix.Rooted)
    (h : ix.importFile fs importPath fromUri = .ok (some (path, target)))
    (hidle : target ∉ ix.active) :
    vacancies fs (target :: ix.active) < vacancies fs ix.active := by
  obtain ⟨hresolve, hfile, huri⟩ := importFile_some h
  obtain ⟨place, entry, -, rfl, hentry, -⟩ :=
    FileSystem.located (hr.resolveImport hresolve) hfile huri
  exact vacancies_cons_lt hentry hidle

/-- Two sources that imports lead to under one URI are one. -/
theorem Rooted.finds_unique (hr : ix.Rooted) (hhere : fs.here.Proper) (ha : ix.Finds fs a)
    (hb : ix.Finds fs b) (huri : a.uri = b.uri) : a = b := by
  obtain ⟨_, _, path, hfile, hread⟩ := ha
  obtain ⟨_, _, path', hfile', hread'⟩ := hb
  obtain ⟨hresolve, hisFile, hpath⟩ := importFile_some hfile
  obtain ⟨hresolve', hisFile', hpath'⟩ := importFile_some hfile'
  have hsame := FileSystem.readText_eq hhere (hr.resolveImport hresolve)
    (hr.resolveImport hresolve') hisFile hisFile' hpath (huri ▸ hpath')
  rw [hread, hread'] at hsame
  cases a
  cases b
  simp_all

/-! ### What is in the index when indexing ends well -/

/-- Every file that `ix'` came to know was found by an import, and its own imports were followed. -/
def Grows (fs : FileSystem) (ix ix' : Index) : Prop :=
  ∀ k, ¬ ix.Knows k → ix'.Knows k →
    ∃ source, source.uri = k ∧ ix.Finds fs source ∧ ix'.Covers fs source

theorem Grows.refl (fs : FileSystem) (ix : Index) : Grows fs ix ix :=
  fun _ hnew hk => absurd hk hnew

theorem Grows.trans (h : Grows fs ix ix') (h' : Grows fs ix' ix'') (hwide : Widens ix ix')
    (hwide' : Widens ix' ix'') : Grows fs ix ix'' := by
  intro k hnew hk
  by_cases hmid : ix'.Knows k
  · obtain ⟨source, huri, hfinds, hcovers⟩ := h k hnew hmid
    exact ⟨source, huri, hfinds, hwide'.covers hcovers⟩
  · obtain ⟨source, huri, hfinds, hcovers⟩ := h' k hmid hk
    exact ⟨source, huri, hwide.finds hfinds, hcovers⟩

theorem Widens.finish (ix : Index) (uri text : String) (targets : List String) :
    Widens ix ((ix.record uri text targets).1.deactivate uri) where
  root := rfl
  layout := rfl
  knows k hk := by
    -- the file itself is under way no longer, but has its table
    by_cases hself : k = uri
    · subst hself
      left
      rw [deactivate, get?_record]
      simp
    · rcases hk with hk | hk
      · left
        rw [deactivate, (record_sameAt targets hself).table]
        exact hk
      · right
        exact (List.mem_erase_of_ne hself).2 hk

theorem Grows.finish {targets : List String} (h : uri ∈ ix.active) :
    Grows fs ix ((ix.record uri text targets).1.deactivate uri) := by
  intro k hnew hk
  refine absurd (hk.imp (fun htable => ?_) List.mem_of_mem_erase) hnew
  by_cases hself : k = uri
  · subst hself
    exact absurd (.inr h) hnew
  · rw [deactivate, (record_sameAt targets hself).table] at htable
    exact htable

section Imports
variable {depth : Nat}
  (hload : ∀ {ix uri text extraction}, ix.Rooted → vacancies fs (uri :: ix.active) < depth →
    (load fs depth ix uri text).2 = .ok extraction →
      (load fs depth ix uri text).1.Covers fs ⟨uri, text⟩ ∧
        Grows fs (ix.activate uri) (load fs depth ix uri text).1)
include hload

theorem loadImport_grows {importPath : String} {target? : Option String} (hr : ix.Rooted)
    (hdepth : vacancies fs ix.active ≤ depth)
    (h : (loadImport fs (load fs depth) ix importPath uri).2 = .ok target?) :
    (loadImport fs (load fs depth) ix importPath uri).1.Follows fs importPath uri ∧
      Grows fs ix (loadImport fs (load fs depth) ix importPath uri).1 := by
  cases loadImport_case fs (load fs depth) ix importPath uri with
  | fault _ _ heq => rw [heq] at h; cases h
  | absent hfile heq =>
    rw [heq]
    exact ⟨⟨none, hfile, nofun⟩, .refl fs ix⟩
  | unreadable path target hfile hread heq =>
    rw [heq]
    refine ⟨⟨_, hfile, fun path' target' hfound text htext => ?_⟩, .refl fs ix⟩
    cases hfound
    rw [hread] at htext
    cases htext
  | known path target hfile hknown heq =>
    rw [heq]
    refine ⟨⟨_, hfile, fun path' target' hfound _ _ => ?_⟩, .refl fs ix⟩
    cases hfound
    exact hknown
  | loaded path target text hfile hnew hidle hread heq =>
    rw [heq] at h ⊢
    cases hresult : (load fs depth ix target text).2 with
    | error fault =>
      rw [hresult] at h
      cases h
    | ok extraction =>
      -- the file is under way now, so one place less is vacant further down
      have hroom := hr.vacancies_lt hfile hidle
      obtain ⟨hcovers, hgrows⟩ := hload hr (by omega) hresult
      have hext := loadImport_extends fs (load_extendsBut fs depth) ix importPath uri
      rw [heq] at hext
      refine ⟨⟨_, (hext.widens.importFile ..).trans hfile, fun path' target' hfound _ _ => ?_⟩,
        fun k hk hk' => ?_⟩
      · cases hfound
        left
        rw [(load_ok hresult).1]
        simp
      · by_cases hself : k = target
        · exact ⟨⟨target, text⟩, hself.symm, ⟨importPath, uri, path, hfile, hread⟩, hcovers⟩
        · have hk : ¬ (ix.activate target).Knows k := fun hmore =>
            hk (hmore.imp_right fun hmem => (List.mem_cons.1 hmem).resolve_left hself)
          obtain ⟨source, huri, hfinds, hsource⟩ := hgrows k hk hk'
          exact ⟨source, huri, (Widens.activate ix target).finds hfinds, hsource⟩

theorem loadImports_grows {targets paths found : List String} (hr : ix.Rooted)
    (hdepth : vacancies fs ix.active ≤ depth)
    (h : (loadImports fs (load fs depth) uri targets paths ix).2 = .ok found) :
    (∀ importPath ∈ paths,
      (loadImports fs (load fs depth) uri targets paths ix).1.Follows fs importPath uri) ∧
        Grows fs ix (loadImports fs (load fs depth) uri targets paths ix).1 := by
  induction paths generalizing ix targets with
  | nil => exact ⟨nofun, .refl fs ix⟩
  | cons path rest ih =>
    have hext := loadImport_extends fs (load_extendsBut fs depth) ix path uri
    have hstep := @loadImport_grows ix fs uri depth hload path
    have hrest := loadImports_extends fs (load_extendsBut fs depth) uri
    unfold loadImports at h ⊢
    split at h
    · cases h
    all_goals
      rename_i heq
      rw [heq] at hext hstep
      obtain ⟨hfollows, hgrows⟩ := hstep hr hdepth rfl
      obtain ⟨hfollows', hgrows'⟩ :=
        ih (.of_widens hext.widens hr) (by rw [hext.active]; exact hdepth) h
      refine ⟨fun importPath hmem => ?_, hgrows.trans hgrows' hext.widens (hrest ..).widens⟩
      rcases List.mem_cons.1 hmem with rfl | hmem
      · exact (hrest ..).widens.follows hfollows
      · exact hfollows' importPath hmem

end Imports

/-- When there is room for every chain of imports, indexing that ends well has followed each import
of each file that it drew in. -/
theorem load_grows {depth : Nat} {extraction : Extraction} (hr : ix.Rooted)
    (hdepth : vacancies fs (uri :: ix.active) < depth)
    (h : (load fs depth ix uri text).2 = .ok extraction) :
    (load fs depth ix uri text).1.Covers fs ⟨uri, text⟩ ∧
      Grows fs (ix.activate uri) (load fs depth ix uri text).1 := by
  induction depth generalizing ix uri text extraction with
  | zero => omega
  | succ depth ih =>
    have himports := @loadImports_grows (ix.activate uri) fs uri depth ih []
      (Symbol.importPaths text.toList)
    have hext := loadImports_extends fs (load_extendsBut fs depth) uri []
      (Symbol.importPaths text.toList) (ix.activate uri)
    unfold load at h ⊢
    split at h
    · cases h
    · rename_i ix' targets heq
      rw [heq] at himports hext
      obtain ⟨hfollows, hgrows⟩ :=
        himports (.of_widens (.activate ix uri) hr) (Nat.le_of_lt_succ hdepth) rfl
      have hwide := Widens.finish ix' uri text targets
      have hself : uri ∈ ix'.active := by
        rw [hext.active]
        exact List.mem_cons_self
      exact ⟨hwide.covers hfollows, hgrows.trans (.finish hself) hext.widens hwide⟩

/-- When indexing ends well, every file that it drew in was read to its end: each of its imports was
followed, and the index has the files that they lead to. -/
theorem indexDocument_covers {extraction : Extraction} {source : SourceText} (hr : ix.Rooted)
    (hhere : fs.here.Proper) (h : (ix.indexDocument fs uri text).2 = .ok extraction)
    (hreach : (ix.activate uri).Reaches fs ⟨uri, text⟩ source) :
    (ix.indexDocument fs uri text).1.Covers fs source := by
  unfold indexDocument at h ⊢
  split at h
  · cases h
  rw [if_neg ‹_›]
  have hroom : vacancies fs (uri :: ix.active) < chainBound fs :=
    Nat.lt_succ_of_le List.countP_le_length
  have hext := load_extendsBut fs (chainBound fs) ix uri text
  obtain ⟨hcovers, hgrows⟩ := load_grows hr hroom h
  induction hreach with
  | refl => exact hcovers
  | @tail a b _ hdraws ih =>
    obtain ⟨importPath, hmem, path, hfile, hread, hnew⟩ := hdraws
    obtain ⟨found, hfound, hknows⟩ := ih importPath hmem
    rw [importFile_congr hext.root hext.layout] at hfound
    have hfile' : ix.importFile fs importPath a.uri = .ok (some (path, b.uri)) := hfile
    cases hfile'.symm.trans hfound
    obtain ⟨source, huri, hfinds, hsource⟩ :=
      hgrows b.uri hnew (hknows path b.uri rfl b.text hread)
    -- the index knows the file by its URI, which tells one text only
    have hr' : (ix.activate uri).Rooted := .of_widens (.activate ix uri) hr
    have hsame := hr'.finds_unique hhere hfinds ⟨importPath, a.uri, path, hfile, hread⟩ huri
    rw [← hsame]
    exact hsource

end Index

end BurnLens
