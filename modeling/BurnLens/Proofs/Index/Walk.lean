import Mathlib.Data.List.Dedup
import Mathlib.Data.List.Perm.Subperm
import BurnLens.Proofs.Index.Population

/-!
# The walk along imports

Indexing a file walks along its imports: into the first new file that it meets, from there into the
first new file that this one imports, and so on, and back again. `Walk` says what such a walk is
without any bound on its depth, and keeps a log of it. The bound that `load` works under is never
felt: `load_traversal` makes a whole walk of every call, and `Walk.unique` says that there is no
other. The files under way at one time are distinct however their imports are spelled, so no chain
of them is longer than the number of files (`Walk.chain`). No file is entered twice, for one that
was entered is under way or has its table from then on (`Walk.visits_nodup`).
-/

namespace BurnLens

namespace FileSystem
variable {fs : FileSystem} {path : Path} {place : Place} {uri : String}

/-- The places of files, each once. -/
def files (fs : FileSystem) : List Place :=
  (fs.entries.map (·.1)).dedup.filter fun place => (fs.get? place).any fun e => !e.isFolder

theorem mem_files {e : Entry} (h : fs.get? place = some e) (hfile : e.isFolder = false) :
    place ∈ fs.files := by
  refine List.mem_filter.2 ⟨List.mem_dedup.2 ?_, by simp [h, hfile]⟩
  unfold get? at h
  split at h
  · cases h
    cases hfile
  · obtain ⟨front, back, heq, -⟩ := List.lookup_eq_some_iff.1 h
    simp [heq]

/-- A file that a path leads to is told by its URI. -/
theorem file_of_uriOf (hclean : path.Clean) (hfile : fs.isFile path = .ok true)
    (huri : fs.uriOf path = .ok uri) : ∃ place ∈ fs.files, uri = Uri.ofPlace place := by
  obtain ⟨place, e, hlocate, hfolder⟩ := locate_of_isFile hfile
  obtain ⟨hresolve, hentry⟩ := resolve_of_locate hclean hlocate
  obtain ⟨place', hplace', huri⟩ := bind_eq_ok.1 huri
  cases hresolve.symm.trans hplace'
  cases huri
  exact ⟨place, mem_files hentry hfolder, rfl⟩

end FileSystem

namespace Index
variable {ix ix' : Index} {fs : FileSystem} {uri text importPath : String}
  {targets paths : List String}

instance (ix : Index) (uri : String) : Decidable (ix.Knows uri) :=
  inferInstanceAs (Decidable (_ ∨ _))

/-! ### Moments -/

/-- An import is followed: the index right then, the file that has the import, and the import. -/
structure Moment where
  index : Index
  uri : String
  importPath : String

namespace Moment
variable {m : Moment}

/-- The file that is read and indexed at this moment: the import leads to it, the index does not
know it, and it can be read. -/
def visit? (fs : FileSystem) (m : Moment) : Option SourceText :=
  match m.index.importFile fs m.importPath m.uri with
  | .ok (some (path, target)) =>
    if m.index.Knows target then none
    else
      match fs.readText path with
      | .ok (some text) => some ⟨target, text⟩
      | _ => none
  | _ => none

/-- The file that is listed at this moment: the import leads to it, and it can be read or the index
knows it. -/
def listed? (fs : FileSystem) (m : Moment) : Option String :=
  match m.index.importFile fs m.importPath m.uri with
  | .ok (some (path, target)) =>
    match fs.readText path with
    | .ok (some _) => some target
    | _ => if m.index.Knows target then some target else none
  | _ => none

theorem visit?_eq_some {source : SourceText} :
    m.visit? fs = some source ↔
      ∃ path, m.index.importFile fs m.importPath m.uri = .ok (some (path, source.uri)) ∧
        ¬ m.index.Knows source.uri ∧ fs.readText path = .ok (some source.text) := by
  obtain ⟨uri, text⟩ := source
  unfold visit?
  split
  next path target hfile =>
    split
    next hknown => simp [hfile]; grind
    next hknown => split <;> simp [hfile] <;> grind
  next hno => simp; grind

theorem listed?_eq_some {target : String} :
    m.listed? fs = some target ↔
      ∃ path, m.index.importFile fs m.importPath m.uri = .ok (some (path, target)) ∧
        ((∃ text, fs.readText path = .ok (some text)) ∨ m.index.Knows target) := by
  unfold listed?
  split
  next path target' hfile => split <;> simp [hfile] <;> grind
  next hno => simp; grind

theorem visit?_of_error {fault : IndexFault} (h : ix.importFile fs importPath uri = .error fault) :
    visit? fs ⟨ix, uri, importPath⟩ = none := by
  simp [visit?, h]

theorem listed?_of_visit {source : SourceText} (h : m.visit? fs = some source) :
    m.listed? fs = some source.uri := by
  obtain ⟨path, hfile, -, hread⟩ := visit?_eq_some.1 h
  exact listed?_eq_some.2 ⟨path, hfile, .inl ⟨_, hread⟩⟩

end Moment

theorem contains_eq_knows (ix : Index) (target : String) :
    (ix.tables.contains target || ix.active.contains target) = decide (ix.Knows target) := by
  rw [Bool.eq_iff_iff, decide_eq_true_eq]
  simp [OrderedMap.contains, Knows, Option.isSome_iff_ne_none]

theorem loadImport_fault {fault : IndexFault} (loader : Loader)
    (h : ix.importFile fs importPath uri = .error fault) :
    loadImport fs loader ix importPath uri = (ix, .error fault) := by
  simp [loadImport, h]

theorem loadImport_passed {found : Option (Path × String)} (loader : Loader)
    (hfile : ix.importFile fs importPath uri = .ok found)
    (hvisit : Moment.visit? fs ⟨ix, uri, importPath⟩ = none) :
    loadImport fs loader ix importPath uri =
      (ix, .ok (Moment.listed? fs ⟨ix, uri, importPath⟩)) := by
  rcases found with _ | ⟨path, target⟩
  · simp [loadImport, Moment.listed?, hfile]
  · obtain ⟨text?, hread⟩ := FileSystem.readText_of_isFile (importFile_some hfile).2.1
    simp only [loadImport, Moment.listed?, hfile, contains_eq_knows, hread]
    by_cases hknown : ix.Knows target
    · cases text? <;> simp [hknown]
    · cases text? with
      | none => simp [hknown]
      | some text => simp [Moment.visit?, hfile, hknown, hread] at hvisit

theorem loadImport_visited {source : SourceText} (loader : Loader)
    (hvisit : Moment.visit? fs ⟨ix, uri, importPath⟩ = some source) :
    loadImport fs loader ix importPath uri =
      ((loader ix source.uri source.text).1,
        (loader ix source.uri source.text).2.map fun _ => some source.uri) := by
  obtain ⟨path, hfile, hunknown, hread⟩ := Moment.visit?_eq_some.1 hvisit
  simp only [loadImport, hfile, contains_eq_knows, hunknown, decide_false, Bool.false_eq_true,
    ↓reduceIte, hread]
  rcases loader ix source.uri source.text with ⟨ix', _ | _⟩ <;> rfl

/-- Lists a file unless it is listed already. -/
def note (targets : List String) : Option String → List String
  | none => targets
  | some target => if target ∈ targets then targets else targets ++ [target]

theorem loadImports_cons_ok {loader : Loader} {target? : Option String}
    (h : loadImport fs loader ix importPath uri = (ix', .ok target?)) :
    loadImports fs loader uri targets (importPath :: paths) ix =
      loadImports fs loader uri (note targets target?) paths ix' := by
  cases target? <;> simp [loadImports, h, note]

theorem loadImports_cons_error {loader : Loader} {fault : IndexFault}
    (h : loadImport fs loader ix importPath uri = (ix', .error fault)) :
    loadImports fs loader uri targets (importPath :: paths) ix = (ix', .error fault) := by
  simp [loadImports, h]

/-- What is left to do for a file when its imports were followed. -/
def conclude (source : SourceText) :
    Index × Except IndexFault (List String) → Index × Except IndexFault Extraction
  | (ix, .error fault) => (ix.deactivate source.uri, .error fault)
  | (ix, .ok targets) =>
    ((ix.record source.uri source.text targets).1.deactivate source.uri,
      .ok (ix.record source.uri source.text targets).2)

theorem load_succ (fs : FileSystem) (depth : Nat) (ix : Index) (source : SourceText) :
    load fs (depth + 1) ix source.uri source.text =
      conclude source (loadImports fs (load fs depth) source.uri [] source.importPaths
        (ix.activate source.uri)) := by
  rw [load, SourceText.importPaths]
  rcases loadImports fs (load fs depth) source.uri [] (Symbol.importPaths source.text.toList)
    (ix.activate source.uri) with ⟨ix', _ | _⟩ <;> rfl

/-! ### Walks -/

/-- `Walk fs uri paths ix targets log depth out`: the imports `paths` of the file `uri` are followed
from the index `ix`, each of them to its end, while `targets` are listed already. The log has what
was followed on the way, here or further down, and `depth` says how many files at most are entered
inside one another. -/
inductive Walk (fs : FileSystem) : String → List String → Index → List String → List Moment → Nat →
    Index × Except IndexFault (List String) → Prop where
  | done {uri : String} {ix : Index} {targets : List String} :
      Walk fs uri [] ix targets [] 0 (ix, .ok targets)
  | fault {uri importPath : String} {rest targets : List String} {ix : Index} {fault : IndexFault}
      (hfile : ix.importFile fs importPath uri = .error fault) :
      Walk fs uri (importPath :: rest) ix targets [⟨ix, uri, importPath⟩] 0 (ix, .error fault)
  | passed {uri importPath : String} {rest targets : List String} {ix : Index} {log : List Moment}
      {depth : Nat} {found : Option (Path × String)} {out : Index × Except IndexFault (List String)}
      (hfile : ix.importFile fs importPath uri = .ok found)
      (hvisit : Moment.visit? fs ⟨ix, uri, importPath⟩ = none)
      (hrest : Walk fs uri rest ix (note targets (Moment.listed? fs ⟨ix, uri, importPath⟩)) log
        depth out) :
      Walk fs uri (importPath :: rest) ix targets (⟨ix, uri, importPath⟩ :: log) depth out
  | entered {uri importPath : String} {rest targets : List String} {ix ix' : Index}
      {log log' : List Moment} {depth depth' : Nat} {source : SourceText} {extraction : Extraction}
      {inner out : Index × Except IndexFault (List String)}
      (hvisit : Moment.visit? fs ⟨ix, uri, importPath⟩ = some source)
      (hinner : Walk fs source.uri source.importPaths (ix.activate source.uri) [] log depth inner)
      (hend : conclude source inner = (ix', .ok extraction))
      (hrest : Walk fs uri rest ix' (note targets (some source.uri)) log' depth' out) :
      Walk fs uri (importPath :: rest) ix targets (⟨ix, uri, importPath⟩ :: (log ++ log'))
        (max (depth + 1) depth') out
  | abandoned {uri importPath : String} {rest targets : List String} {ix ix' : Index}
      {log : List Moment} {depth : Nat} {source : SourceText} {fault : IndexFault}
      {inner : Index × Except IndexFault (List String)}
      (hvisit : Moment.visit? fs ⟨ix, uri, importPath⟩ = some source)
      (hinner : Walk fs source.uri source.importPaths (ix.activate source.uri) [] log depth inner)
      (hend : conclude source inner = (ix', .error fault)) :
      Walk fs uri (importPath :: rest) ix targets (⟨ix, uri, importPath⟩ :: log) (depth + 1)
        (ix', .error fault)

variable {log log' : List Moment} {depth depth' : Nat} {source : SourceText}
  {out out' : Index × Except IndexFault (List String)}

/-- A walk ends as the bounded walk does, if the bound leaves room for it. -/
theorem Walk.eq_loadImports (h : Walk fs uri paths ix targets log depth out) {fuel : Nat}
    (hfuel : depth ≤ fuel) : loadImports fs (load fs fuel) uri targets paths ix = out := by
  induction h generalizing fuel with
  | done => rfl
  | fault hfile => exact loadImports_cons_error (loadImport_fault _ hfile)
  | passed hfile hvisit _ ih =>
    rw [loadImports_cons_ok (loadImport_passed _ hfile hvisit)]
    exact ih hfuel
  | entered hvisit _ hend _ ihinner ihrest =>
    obtain ⟨fuel, rfl⟩ : ∃ n, fuel = n + 1 := ⟨fuel - 1, by omega⟩
    have hload := loadImport_visited (load fs (fuel + 1)) hvisit
    rw [load_succ, ihinner (by omega), hend] at hload
    rw [loadImports_cons_ok hload]
    exact ihrest (by omega)
  | abandoned hvisit _ hend ihinner =>
    obtain ⟨fuel, rfl⟩ : ∃ n, fuel = n + 1 := ⟨fuel - 1, by omega⟩
    have hload := loadImport_visited (load fs (fuel + 1)) hvisit
    rw [load_succ, ihinner (by omega), hend] at hload
    exact loadImports_cons_error hload

/-- There is one walk only. -/
theorem Walk.unique (h : Walk fs uri paths ix targets log depth out)
    (h' : Walk fs uri paths ix targets log' depth' out') :
    log' = log ∧ depth' = depth ∧ out' = out := by
  induction h generalizing log' depth' out' with
  | done => cases h'; simp
  | fault hfile =>
    cases h' with
    | fault hfile' => cases hfile.symm.trans hfile'; simp
    | passed hfile' => cases hfile.symm.trans hfile'
    | entered hvisit' => cases (Moment.visit?_of_error hfile).symm.trans hvisit'
    | abandoned hvisit' => cases (Moment.visit?_of_error hfile).symm.trans hvisit'
  | passed hfile hvisit _ ih =>
    cases h' with
    | fault hfile' => cases hfile.symm.trans hfile'
    | passed _ _ hrest' =>
      obtain ⟨rfl, rfl, rfl⟩ := ih hrest'
      simp
    | entered hvisit' => cases hvisit.symm.trans hvisit'
    | abandoned hvisit' => cases hvisit.symm.trans hvisit'
  | entered hvisit _ hend _ ihinner ihrest =>
    cases h' with
    | fault hfile' => cases (Moment.visit?_of_error hfile').symm.trans hvisit
    | passed _ hvisit' => cases hvisit.symm.trans hvisit'
    | entered hvisit' hinner' hend' hrest' =>
      cases hvisit.symm.trans hvisit'
      obtain ⟨rfl, rfl, rfl⟩ := ihinner hinner'
      cases hend.symm.trans hend'
      obtain ⟨rfl, rfl, rfl⟩ := ihrest hrest'
      simp
    | abandoned hvisit' hinner' hend' =>
      cases hvisit.symm.trans hvisit'
      obtain ⟨rfl, rfl, rfl⟩ := ihinner hinner'
      cases hend.symm.trans hend'
  | abandoned hvisit _ hend ihinner =>
    cases h' with
    | fault hfile' => cases (Moment.visit?_of_error hfile').symm.trans hvisit
    | passed _ hvisit' => cases hvisit.symm.trans hvisit'
    | entered hvisit' hinner' hend' =>
      cases hvisit.symm.trans hvisit'
      obtain ⟨rfl, rfl, rfl⟩ := ihinner hinner'
      cases hend.symm.trans hend'
    | abandoned hvisit' hinner' hend' =>
      cases hvisit.symm.trans hvisit'
      obtain ⟨rfl, rfl, rfl⟩ := ihinner hinner'
      cases hend.symm.trans hend'
      simp

/-- Indexing `source` from the index `ix`: its imports are walked along while it is under way. -/
inductive Traversal (fs : FileSystem) (ix : Index) (source : SourceText) (log : List Moment) :
    Nat → Index × Except IndexFault Extraction → Prop where
  | intro {depth : Nat} {out : Index × Except IndexFault (List String)}
      (hwalk : Walk fs source.uri source.importPaths (ix.activate source.uri) [] log depth out) :
      Traversal fs ix source log (depth + 1) (conclude source out)

/-! ### Every walk ends -/

theorem loadImports_walk {fuel : Nat}
    (hload : ∀ {ix source}, ix.Rooted → vacancies fs (source.uri :: ix.active) < fuel →
      ∃ log depth, Traversal fs ix source log depth (load fs fuel ix source.uri source.text))
    (hr : ix.Rooted) (hroom : vacancies fs ix.active ≤ fuel) :
    ∃ log depth, Walk fs uri paths ix targets log depth
      (loadImports fs (load fs fuel) uri targets paths ix) := by
  induction paths generalizing ix targets with
  | nil => exact ⟨[], 0, .done⟩
  | cons importPath rest ih =>
    cases hfile : ix.importFile fs importPath uri with
    | error fault =>
      rw [loadImports_cons_error (loadImport_fault _ hfile)]
      exact ⟨_, _, .fault hfile⟩
    | ok found =>
      have hext := loadImport_extends fs (load_extendsBut fs fuel) ix importPath uri
      cases hvisit : Moment.visit? fs ⟨ix, uri, importPath⟩ with
      | none =>
        rw [loadImports_cons_ok (loadImport_passed _ hfile hvisit)]
        obtain ⟨log, depth, hwalk⟩ := ih hr hroom
        exact ⟨_, _, .passed hfile hvisit hwalk⟩
      | some source =>
        obtain ⟨path, hsource, hunknown, -⟩ := Moment.visit?_eq_some.1 hvisit
        -- the file is under way now, so one place less is vacant further down
        have hless := hr.vacancies_lt hsource fun hactive => hunknown (.inr hactive)
        obtain ⟨log, depth, htraversal⟩ := hload hr (Nat.lt_of_lt_of_le hless hroom)
        have hstep := loadImport_visited (load fs fuel) hvisit
        generalize load fs fuel ix source.uri source.text = result at htraversal hstep
        obtain ⟨hinner⟩ := htraversal
        rcases hend : conclude source _ with ⟨ix', fault | extraction⟩
        · rw [hend] at hstep
          rw [loadImports_cons_error hstep]
          exact ⟨_, _, .abandoned hvisit hinner hend⟩
        · rw [hend] at hstep
          rw [hstep] at hext
          rw [loadImports_cons_ok hstep]
          obtain ⟨log', depth', hwalk⟩ := ih (.of_widens hext.widens hr) (hext.active ▸ hroom)
          exact ⟨_, _, .entered hvisit hinner hend hwalk⟩

/-- With room for every chain of imports, indexing a file is a walk to its end. -/
theorem load_traversal {fuel : Nat} (source : SourceText) (hr : ix.Rooted)
    (hroom : vacancies fs (source.uri :: ix.active) < fuel) :
    ∃ log depth, Traversal fs ix source log depth
      (load fs fuel ix source.uri source.text) := by
  induction fuel generalizing ix source with
  | zero => omega
  | succ fuel ih =>
    obtain ⟨log, depth, hwalk⟩ := @loadImports_walk (ix.activate source.uri) fs source.uri []
      source.importPaths fuel (ih _) (.of_widens (.activate ix _) hr) (Nat.le_of_lt_succ hroom)
    rw [load_succ]
    exact ⟨log, depth + 1, .intro hwalk⟩

/-! ### Where a walk leads -/

theorem Walk.extends (h : Walk fs uri paths ix targets log depth out) : Extends ix out.1 := by
  rw [← h.eq_loadImports (Nat.le_refl depth)]
  exact loadImports_extends fs (load_extendsBut fs depth) uri targets paths ix

/-- A file that was entered is left again, and the index knows more. -/
theorem Walk.extends_entered {r : Except IndexFault Extraction}
    (hvisit : Moment.visit? fs ⟨ix, uri, importPath⟩ = some source)
    (h : Walk fs source.uri source.importPaths (ix.activate source.uri) [] log depth out)
    (hend : conclude source out = (ix', r)) : Extends ix ix' := by
  have hext := loadImport_extends fs (load_extendsBut fs (depth + 1)) ix importPath uri
  rw [loadImport_visited _ hvisit, load_succ, h.eq_loadImports (Nat.le_refl depth), hend] at hext
  exact hext

theorem Rooted.visit {m : Moment} (hr : m.index.Rooted) (h : m.visit? fs = some source) :
    ∃ place ∈ fs.files, source.uri = Uri.ofPlace place := by
  obtain ⟨path, hfile, -⟩ := Moment.visit?_eq_some.1 h
  obtain ⟨hresolve, hisFile, huri⟩ := importFile_some hfile
  exact FileSystem.file_of_uriOf (hr.resolveImport hresolve) hisFile huri

/-- Distinct files whose URIs are not taken. -/
structure Chain (fs : FileSystem) (taken : List String) (chain : List Place) : Prop where
  nodup : chain.Nodup
  files : ∀ place ∈ chain, place ∈ fs.files
  free : ∀ place ∈ chain, Uri.ofPlace place ∉ taken

theorem Chain.nil (fs : FileSystem) (taken : List String) : Chain fs taken [] :=
  ⟨.nil, nofun, nofun⟩

theorem Chain.length_le {taken : List String} {chain : List Place} (h : Chain fs taken chain) :
    chain.length ≤ fs.files.length :=
  (h.nodup.subperm h.files).length_le

/-- A file that is entered stands in front of the chain of those that are entered from it. -/
theorem Chain.visit {m : Moment} {chain : List Place} (hr : m.index.Rooted)
    (hvisit : m.visit? fs = some source)
    (h : Chain fs (m.index.activate source.uri).active chain) :
    ∃ place, Chain fs m.index.active (place :: chain) := by
  obtain ⟨place, hplace, huri⟩ := Rooted.visit hr hvisit
  obtain ⟨_, -, hunknown, -⟩ := Moment.visit?_eq_some.1 hvisit
  have hfresh : place ∉ chain := fun hmem => h.free place hmem (by simp [activate, huri])
  refine ⟨place, List.nodup_cons.2 ⟨hfresh, h.nodup⟩, ?_, ?_⟩
  · intro place' hmem
    rcases List.mem_cons.1 hmem with rfl | hmem
    · exact hplace
    · exact h.files place' hmem
  · intro place' hmem hactive
    rcases List.mem_cons.1 hmem with rfl | hmem
    · exact hunknown (.inr (huri ▸ hactive))
    · exact h.free place' hmem (List.mem_cons_of_mem _ hactive)

/-- The files on the deepest chain of a walk are distinct, and none of them was under way. -/
theorem Walk.chain (hr : ix.Rooted) (h : Walk fs uri paths ix targets log depth out) :
    ∃ chain : List Place, chain.length = depth ∧ Chain fs ix.active chain := by
  induction h with
  | done => exact ⟨[], rfl, .nil ..⟩
  | fault => exact ⟨[], rfl, .nil ..⟩
  | passed _ _ _ ih => exact ih hr
  | @entered _ _ _ _ ix _ _ _ depth depth' _ _ _ _ hvisit hinner hend _ ihinner ihrest =>
    have hext := hinner.extends_entered hvisit hend
    by_cases hdeep : depth + 1 ≤ depth'
    · obtain ⟨chain, hlength, hchain⟩ := ihrest (.of_widens hext.widens hr)
      exact ⟨chain, by omega, hext.active ▸ hchain⟩
    · obtain ⟨chain, hlength, hchain⟩ := ihinner (.of_widens (.activate ix _) hr)
      obtain ⟨place, hchain⟩ := Chain.visit hr hvisit hchain
      exact ⟨place :: chain, by rw [List.length_cons]; omega, hchain⟩
  | @abandoned _ _ _ _ ix _ _ _ _ _ _ hvisit _ _ ihinner =>
    obtain ⟨chain, hlength, hchain⟩ := ihinner (.of_widens (.activate ix _) hr)
    obtain ⟨place, hchain⟩ := Chain.visit hr hvisit hchain
    exact ⟨place :: chain, by rw [List.length_cons, hlength], hchain⟩

/-! ### No file is entered twice -/

/-- The files that were entered, in order. -/
def visits (fs : FileSystem) (log : List Moment) : List SourceText :=
  log.filterMap (Moment.visit? fs)

theorem visits_append (fs : FileSystem) (log log' : List Moment) :
    visits fs (log ++ log') = visits fs log ++ visits fs log' :=
  List.filterMap_append

theorem visits_cons_none {m : Moment} (h : m.visit? fs = none) :
    visits fs (m :: log) = visits fs log :=
  List.filterMap_cons_none h

theorem visits_cons_some {m : Moment} (h : m.visit? fs = some source) :
    visits fs (m :: log) = source :: visits fs log :=
  List.filterMap_cons_some h

/-- What is entered is new. -/
theorem Walk.visits_unknown (h : Walk fs uri paths ix targets log depth out) :
    ∀ source ∈ visits fs log, ¬ ix.Knows source.uri := by
  induction h with
  | done => exact nofun
  | fault hfile =>
    rw [visits_cons_none (Moment.visit?_of_error hfile)]
    exact nofun
  | passed _ hvisit _ ih =>
    rw [visits_cons_none hvisit]
    exact ih
  | @entered _ _ _ _ ix _ _ _ _ _ _ _ _ _ hvisit hinner hend _ ihinner ihrest =>
    rw [visits_cons_some hvisit, visits_append]
    intro s hs hknown
    rcases List.mem_cons.1 hs with rfl | hs
    · obtain ⟨_, -, hunknown, -⟩ := Moment.visit?_eq_some.1 hvisit
      exact hunknown hknown
    rcases List.mem_append.1 hs with hs | hs
    · exact ihinner s hs ((Widens.activate ix _).knows _ hknown)
    · exact ihrest s hs ((hinner.extends_entered hvisit hend).widens.knows _ hknown)
  | @abandoned _ _ _ _ ix _ _ _ _ _ _ hvisit _ _ ihinner =>
    rw [visits_cons_some hvisit]
    intro s hs hknown
    rcases List.mem_cons.1 hs with rfl | hs
    · obtain ⟨_, -, hunknown, -⟩ := Moment.visit?_eq_some.1 hvisit
      exact hunknown hknown
    · exact ihinner s hs ((Widens.activate ix _).knows _ hknown)

theorem Walk.visits_ne {k : String} (h : Walk fs uri paths ix targets log depth out)
    (hk : ix.Knows k) : ∀ file ∈ visits fs log, file.uri ≠ k := by
  rintro file hfile rfl
  exact h.visits_unknown file hfile hk

/-- A file that was entered and left has its table, and so have those that were entered from it. -/
theorem Walk.indexed_entered {extraction : Extraction}
    (h : Walk fs source.uri source.importPaths (ix.activate source.uri) [] log depth out)
    (hend : conclude source out = (ix', .ok extraction))
    (hindexed : ∀ found, out.2 = .ok found →
      ∀ s ∈ visits fs log, out.1.tables.get? s.uri ≠ none) :
    ∀ s ∈ source :: visits fs log, ix'.tables.get? s.uri ≠ none := by
  rcases out with ⟨mid, fault | found⟩
  · cases hend
  · cases hend
    intro s hs
    rcases List.mem_cons.1 hs with rfl | hs
    · rw [deactivate, get?_record]
      simp
    · have hne := h.visits_ne (.inr List.mem_cons_self) s hs
      rw [deactivate, (record_sameAt found hne).table]
      exact hindexed found rfl s hs

theorem Extends.indexed {k : String} (h : Extends ix ix') (hk : ix.tables.get? k ≠ none) :
    ix'.tables.get? k ≠ none := by
  rw [(h.same k (.inl hk)).table]
  exact hk

theorem Walk.visits_indexed {found : List String}
    (h : Walk fs uri paths ix targets log depth out) (hok : out.2 = .ok found) :
    ∀ source ∈ visits fs log, out.1.tables.get? source.uri ≠ none := by
  induction h generalizing found with
  | done => exact nofun
  | fault => cases hok
  | passed _ hvisit _ ih =>
    rw [visits_cons_none hvisit]
    exact ih hok
  | entered hvisit hinner hend hrest ihinner ihrest =>
    rw [visits_cons_some hvisit, visits_append, ← List.cons_append]
    intro s hs
    rcases List.mem_append.1 hs with hs | hs
    · exact hrest.extends.indexed (hinner.indexed_entered hend (fun _ => ihinner) s hs)
    · exact ihrest hok s hs
  | abandoned => cases hok

theorem Walk.nodup_entered
    (h : Walk fs source.uri source.importPaths (ix.activate source.uri) [] log depth out)
    (hnodup : ((visits fs log).map (·.uri)).Nodup) :
    ((source :: visits fs log).map (·.uri)).Nodup := by
  refine List.nodup_cons.2 ⟨fun hmem => ?_, hnodup⟩
  obtain ⟨s, hs, heq⟩ := List.mem_map.1 hmem
  exact h.visits_ne (.inr List.mem_cons_self) s hs heq

theorem Walk.visits_nodup (h : Walk fs uri paths ix targets log depth out) :
    ((visits fs log).map (·.uri)).Nodup := by
  induction h with
  | done => exact .nil
  | fault hfile =>
    rw [visits_cons_none (Moment.visit?_of_error hfile)]
    exact .nil
  | passed _ hvisit _ ih =>
    rw [visits_cons_none hvisit]
    exact ih
  | entered hvisit hinner hend hrest ihinner ihrest =>
    rw [visits_cons_some hvisit, visits_append, ← List.cons_append, List.map_append]
    refine List.nodup_append.2 ⟨hinner.nodup_entered ihinner, ihrest, ?_⟩
    -- what was entered before has its table when the walk goes on
    rintro _ hmem _ hmem' rfl
    obtain ⟨s, hs, heq⟩ := List.mem_map.1 hmem
    obtain ⟨s', hs', heq'⟩ := List.mem_map.1 hmem'
    have hindexed := hinner.indexed_entered hend (fun _ => hinner.visits_indexed) s hs
    exact hrest.visits_unknown s' hs' (.inl (heq'.trans heq.symm ▸ hindexed))
  | abandoned hvisit hinner _ ihinner =>
    rw [visits_cons_some hvisit]
    exact hinner.nodup_entered ihinner

theorem Walk.widens (h : Walk fs uri paths ix targets log depth out) :
    ∀ m ∈ log, Widens ix m.index := by
  have hrefl : ∀ ix : Index, Widens ix ix := fun ix => (Extends.refl ix).widens
  induction h with
  | done => exact nofun
  | fault => exact fun m hm => List.mem_singleton.1 hm ▸ hrefl _
  | passed _ _ _ ih =>
    intro m hm
    rcases List.mem_cons.1 hm with rfl | hm
    · exact hrefl _
    · exact ih m hm
  | entered hvisit hinner hend _ ihinner ihrest =>
    intro m hm
    rcases List.mem_cons.1 hm with rfl | hm
    · exact hrefl _
    rcases List.mem_append.1 hm with hm | hm
    · exact (Widens.activate _ _).trans (ihinner m hm)
    · exact (hinner.extends_entered hvisit hend).widens.trans (ihrest m hm)
  | abandoned _ _ _ ihinner =>
    intro m hm
    rcases List.mem_cons.1 hm with rfl | hm
    · exact hrefl _
    · exact (Widens.activate _ _).trans (ihinner m hm)

theorem Walk.visits_files (hr : ix.Rooted) (h : Walk fs uri paths ix targets log depth out) :
    ∀ file ∈ visits fs log, ∃ place ∈ fs.files, file.uri = Uri.ofPlace place := by
  intro file hmem
  obtain ⟨m, hm, hvisit⟩ := List.mem_filterMap.1 hmem
  exact Rooted.visit (.of_widens (h.widens m hm) hr) hvisit

/-! ### Calls -/

theorem Traversal.unique {end₁ end₂ : Index × Except IndexFault Extraction}
    (h : Traversal fs ix source log depth end₁) (h' : Traversal fs ix source log' depth' end₂) :
    log' = log ∧ depth' = depth ∧ end₂ = end₁ := by
  obtain ⟨hwalk⟩ := h
  obtain ⟨hwalk'⟩ := h'
  obtain ⟨rfl, rfl, rfl⟩ := hwalk.unique hwalk'
  exact ⟨rfl, rfl, rfl⟩

theorem vacancies_lt_chainBound (fs : FileSystem) (taken : List String) :
    vacancies fs taken < chainBound fs :=
  Nat.lt_succ_of_le List.countP_le_length

/-- A call that indexes a text is a walk that ends, and the only one. Its depth, the text itself
included, is at most one more than the number of files, and no file is entered twice. -/
theorem perform_walk {call : Call} (hr : ix.Rooted) (hfs : call.fs? = some fs) :
    (call.source? = none → (ix.perform call).1 = ix) ∧
      ∀ source, call.source? = some source → ∃ log depth out,
        Traversal fs ix source log depth out ∧
        (∀ log' depth' out', Traversal fs ix source log' depth' out' →
          log' = log ∧ depth' = depth ∧ out' = out) ∧
        ix.perform call = (out.1, out.2.map fun _ => ()) ∧
        depth ≤ fs.files.length + 1 ∧
        ((visits fs log).map (·.uri)).Nodup ∧
        ∀ file ∈ visits fs log, ∃ place ∈ fs.files, file.uri = Uri.ofPlace place := by
  refine ⟨perform_of_no_source ix hfs, fun source hsource => ?_⟩
  obtain ⟨-, hperform⟩ := perform_of_source ix hfs hsource
  obtain ⟨log, depth, htraversal⟩ :=
    load_traversal source hr (vacancies_lt_chainBound fs _)
  refine ⟨log, depth, _, htraversal, fun _ _ _ h => htraversal.unique h, hperform, ?_⟩
  generalize load fs (chainBound fs) ix source.uri source.text = result at htraversal
  obtain ⟨hwalk⟩ := htraversal
  have hr' : (ix.activate source.uri).Rooted := .of_widens (.activate ix _) hr
  obtain ⟨chain, hlength, hchain⟩ := hwalk.chain hr'
  have hdepth := hchain.length_le
  exact ⟨by omega, hwalk.visits_nodup, hwalk.visits_files hr'⟩

/-- A document and two files import one another around, each in another spelling. -/
theorem perform_walk_around :
    let fs := (({} : FileSystem).install ["ws", "a.bn"] (.file (Text.Utf8.encode
      "import \"../ws/./b\"".toList))).install ["ws", "b.bn"] (.file (Text.Utf8.encode
      "import \"/a.bn\"".toList))
    let main : SourceText := ⟨"file:///ws/main.bn", "import \"a\""⟩
    let call := Call.document fs main.uri main.text
    ∃ ix log depth out, create fs (some (.ofString "/ws")) {} = .ok ix ∧ ix.Rooted ∧
      call.fs? = some fs ∧ call.source? = some main ∧
      (ix.perform call).1.uris = ["file:///ws/b.bn", "file:///ws/a.bn", main.uri] ∧
      Traversal fs ix main log depth out ∧ ix.perform call = (out.1, out.2.map fun _ => ()) ∧
      depth ≤ 3 ∧ ((visits fs log).map (·.uri)).Nodup := by
  intro fs main call
  obtain ⟨ix, hix⟩ : ∃ ix, create fs (some (.ofString "/ws")) {} = .ok ix := ⟨_, rfl⟩
  have hhere : fs.here.Proper := nofun
  have hr : ix.Rooted := create_rooted hhere hix
  have hfs : call.fs? = some fs := rfl
  have hsource : call.source? = some main := rfl
  have huris : (ix.perform call).1.uris =
      ["file:///ws/b.bn", "file:///ws/a.bn", main.uri] := by
    cases hix
    decide +kernel
  have hfiles : fs.files.length = 2 := by decide +kernel
  obtain ⟨log, depth, out, htraversal, -, hperform, hdepth, hnodup, -⟩ :=
    (perform_walk hr hfs).2 main hsource
  rw [hfiles] at hdepth
  exact ⟨ix, log, depth, out, hix, hr, hfs, hsource, huris, htraversal, hperform, hdepth, hnodup⟩

end Index

end BurnLens
