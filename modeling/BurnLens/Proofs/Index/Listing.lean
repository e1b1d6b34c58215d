import Mathlib.Data.List.Induction
import BurnLens.Proofs.Index.Walk

/-!
# What import lists name

A file met while it is still under way is listed before it has a table, so between two steps of a
walk the lists name files that are not there yet. They are there when the walk has ended
(`Walk.listed_known`). The log of a walk tells what each list that it wrote must name: the moments
that belong to a file are those at which its own imports were followed, one each, and the list has
the files that were listed then, each at its first place (`Walk.reflects`). Later calls leave the
list alone unless they index the file anew, so `after_accounted` speaks of all lists after any
calls.
-/

namespace BurnLens.Index
variable {ix ix' : Index} {fs : FileSystem} {uri : String} {targets paths found : List String}
  {log log' : List Moment} {depth : Nat} {source : SourceText}
  {out : Index × Except IndexFault (List String)}

/-! ### Lists without repetitions -/

theorem eraseDups_concat (l : List String) (a : String) :
    (l ++ [a]).eraseDups = note l.eraseDups (some a) := by
  have hone : [a].eraseDups = [a] := by simp [List.eraseDups_cons]
  rw [List.eraseDups_append, note]
  by_cases h : a ∈ l
  · simp [List.removeAll, h]
  · simp [List.removeAll, h, hone]

theorem foldl_note (l : List (Option String)) : l.foldl note [] = (l.filterMap id).eraseDups := by
  induction l using List.reverseRecOn with
  | nil => rfl
  | append_singleton l target? ih =>
    rw [List.foldl_concat, ih, List.filterMap_append]
    cases target? with
    | none => simp [note]
    | some target => exact (eraseDups_concat _ target).symm

/-! ### The moments of a file -/

/-- The moments at which the imports of a file were followed. -/
def momentsOf (uri : String) (log : List Moment) : List Moment :=
  log.filter (·.uri = uri)

theorem momentsOf_append (uri : String) (log log' : List Moment) :
    momentsOf uri (log ++ log') = momentsOf uri log ++ momentsOf uri log' :=
  List.filter_append ..

theorem momentsOf_cons_self (ix : Index) (uri importPath : String) (log : List Moment) :
    momentsOf uri (⟨ix, uri, importPath⟩ :: log) =
      ⟨ix, uri, importPath⟩ :: momentsOf uri log :=
  List.filter_cons_of_pos (by simp)

theorem momentsOf_cons_other {k importPath : String} (h : uri ≠ k) :
    momentsOf k (⟨ix, uri, importPath⟩ :: log) = momentsOf k log :=
  List.filter_cons_of_neg (by simpa using h)

theorem momentsOf_eq_nil (h : ∀ m ∈ log, m.uri ≠ uri) : momentsOf uri log = [] :=
  List.filter_eq_nil_iff.2 fun m hm => by simpa using h m hm

/-- Imports are followed for the file at hand or for one that was entered. -/
theorem Walk.uri_cases (h : Walk fs uri paths ix targets log depth out) :
    ∀ m ∈ log, m.uri = uri ∨ ∃ file ∈ visits fs log, m.uri = file.uri := by
  induction h with
  | done => exact nofun
  | fault => exact fun m hm => .inl (List.mem_singleton.1 hm ▸ rfl)
  | passed _ hvisit _ ih =>
    rw [visits_cons_none hvisit]
    intro m hm
    rcases List.mem_cons.1 hm with rfl | hm
    · exact .inl rfl
    · exact ih m hm
  | entered hvisit _ _ _ ihinner ihrest =>
    rw [visits_cons_some hvisit, visits_append]
    intro m hm
    rcases List.mem_cons.1 hm with rfl | hm
    · exact .inl rfl
    rcases List.mem_append.1 hm with hm | hm
    · rcases ihinner m hm with heq | ⟨file, hfile, heq⟩
      · exact .inr ⟨_, List.mem_cons_self, heq⟩
      · exact .inr ⟨file, by simp [hfile], heq⟩
    · rcases ihrest m hm with heq | ⟨file, hfile, heq⟩
      · exact .inl heq
      · exact .inr ⟨file, by simp [hfile], heq⟩
  | abandoned hvisit _ _ ihinner =>
    rw [visits_cons_some hvisit]
    intro m hm
    rcases List.mem_cons.1 hm with rfl | hm
    · exact .inl rfl
    rcases ihinner m hm with heq | ⟨file, hfile, heq⟩
    · exact .inr ⟨_, List.mem_cons_self, heq⟩
    · exact .inr ⟨file, by simp [hfile], heq⟩

/-- The log is silent about a file that is neither the one at hand nor entered. -/
theorem Walk.momentsOf_unvisited {k : String} (h : Walk fs uri paths ix targets log depth out)
    (hne : uri ≠ k) (hk : ∀ file ∈ visits fs log, file.uri ≠ k) : momentsOf k log = [] := by
  apply momentsOf_eq_nil
  rintro m hm rfl
  rcases h.uri_cases m hm with heq | ⟨file, hfile, heq⟩
  · exact hne heq.symm
  · exact hk file hfile heq.symm

/-- The list of a file, as far as its imports were followed. -/
theorem Walk.listing (hactive : uri ∈ ix.active)
    (h : Walk fs uri paths ix targets log depth out) (hok : out.2 = .ok found) :
    (momentsOf uri log).map (·.importPath) = paths ∧
      found = ((momentsOf uri log).map (Moment.listed? fs)).foldl note targets := by
  induction h generalizing found with
  | done => exact ⟨rfl, (Except.ok.inj hok).symm⟩
  | fault => cases hok
  | passed _ _ _ ih =>
    obtain ⟨hpaths, hfound⟩ := ih hactive hok
    rw [momentsOf_cons_self]
    exact ⟨by rw [List.map_cons, hpaths], hfound⟩
  | entered hvisit hinner hend hrest _ ihrest =>
    have hext := hinner.extends_entered hvisit hend
    obtain ⟨hpaths, hfound⟩ := ihrest (hext.active ▸ hactive) hok
    -- the walk from the file that was entered does not come back here
    obtain ⟨_, -, hunknown, -⟩ := Moment.visit?_eq_some.1 hvisit
    have hnone := hinner.momentsOf_unvisited (fun heq => hunknown (.inr (heq ▸ hactive)))
      (hinner.visits_ne (.inr (List.mem_cons_of_mem _ hactive)))
    rw [momentsOf_cons_self, momentsOf_append, hnone, List.nil_append]
    refine ⟨by rw [List.map_cons, hpaths], ?_⟩
    rw [List.map_cons, List.foldl_cons, Moment.listed?_of_visit hvisit]
    exact hfound
  | abandoned => cases hok

/-- The file is in the index with the table of its text, and its list names the files that were
listed at the given moments, one for each of its imports. -/
structure Reflects (fs : FileSystem) (ix : Index) (source : SourceText) (moments : List Moment) :
    Prop where
  table : ∃ lookup, ix.tables.get? source.uri =
    some (extract source.text source.uri lookup).table
  followed : moments.map (·.importPath) = source.importPaths
  imports : ix.imports.get? source.uri = some (moments.filterMap (Moment.listed? fs)).eraseDups

namespace Reflects
variable {moments : List Moment}

theorem of_sameAt (h : SameAt source.uri ix ix') (hr : Reflects fs ix source moments) :
    Reflects fs ix' source moments where
  table := by rw [h.table]; exact hr.table
  followed := hr.followed
  imports := by rw [h.imports]; exact hr.imports

theorem indexed (hr : Reflects fs ix source moments) : ix.tables.get? source.uri ≠ none := by
  obtain ⟨lookup, htable⟩ := hr.table
  rw [htable]
  simp

theorem of_extends (h : Extends ix ix') (hr : Reflects fs ix source moments) :
    Reflects fs ix' source moments :=
  hr.of_sameAt (h.same _ (.inl hr.indexed))

end Reflects

/-- A file that was entered and left is reflected, and so are those that were entered from it. -/
theorem Walk.reflects_entered {extraction : Extraction}
    (h : Walk fs source.uri source.importPaths (ix.activate source.uri) [] log depth out)
    (hend : conclude source out = (ix', .ok extraction))
    (hreflects : ∀ found, out.2 = .ok found →
      ∀ file ∈ visits fs log, Reflects fs out.1 file (momentsOf file.uri log)) :
    ∀ file ∈ source :: visits fs log, Reflects fs ix' file (momentsOf file.uri log) := by
  rcases out with ⟨mid, fault | found⟩
  · cases hend
  · cases hend
    intro file hmem
    rcases List.mem_cons.1 hmem with rfl | hmem
    · obtain ⟨hpaths, hfound⟩ := h.listing List.mem_cons_self rfl
      refine ⟨⟨_, get?_record found⟩, hpaths, ?_⟩
      rw [foldl_note, List.filterMap_map, Function.id_comp] at hfound
      have himports : (mid.imports.put file.uri found).get? file.uri = some found := by
        rw [OrderedMap.get?_put, if_pos rfl]
      rw [← hfound]
      exact himports
    · have hne := h.visits_ne (.inr List.mem_cons_self) file hmem
      have hsame := @record_sameAt mid source.uri source.text file.uri found hne
      exact (hreflects found rfl file hmem).of_sameAt ⟨hsame.table, hsame.imports⟩

theorem Walk.reflects (hactive : uri ∈ ix.active)
    (h : Walk fs uri paths ix targets log depth out) (hok : out.2 = .ok found) :
    ∀ file ∈ visits fs log, Reflects fs out.1 file (momentsOf file.uri log) := by
  induction h generalizing found with
  | done => exact nofun
  | fault => cases hok
  | passed _ hvisit hrest ih =>
    rw [visits_cons_none hvisit]
    intro file hmem
    rw [momentsOf_cons_other (hrest.visits_ne (.inr hactive) file hmem).symm]
    exact ih hactive hok file hmem
  | @entered uri _ _ _ _ ix' _ _ _ _ source _ _ _ hvisit hinner hend hrest ihinner ihrest =>
    have hext := hinner.extends_entered hvisit hend
    have hactive' : uri ∈ ix'.active := hext.active ▸ hactive
    have hentered := hinner.reflects_entered hend fun _ => ihinner List.mem_cons_self
    obtain ⟨_, -, hunknown, -⟩ := Moment.visit?_eq_some.1 hvisit
    have hsource : source.uri ≠ uri := fun heq => hunknown (.inr (heq ▸ hactive))
    rw [visits_cons_some hvisit, visits_append, ← List.cons_append]
    intro file hmem
    rcases List.mem_append.1 hmem with hmem | hmem
    · -- entered now: the rest of the walk is silent about it
      have hfile := hentered file hmem
      have hne : uri ≠ file.uri := by
        rcases List.mem_cons.1 hmem with rfl | hmem
        · exact hsource.symm
        · exact (hinner.visits_ne (.inr (List.mem_cons_of_mem _ hactive)) file hmem).symm
      have hnone := hrest.momentsOf_unvisited hne (hrest.visits_ne (.inl hfile.indexed))
      rw [momentsOf_cons_other hne, momentsOf_append, hnone, List.append_nil]
      exact hfile.of_extends hrest.extends
    · -- entered later: the walk so far is silent about it
      have hnew : ∀ other ∈ source :: visits fs _, other.uri ≠ file.uri := fun other hother =>
        (hrest.visits_ne (.inl (hentered other hother).indexed) file hmem).symm
      have hne : uri ≠ file.uri := (hrest.visits_ne (.inr hactive') file hmem).symm
      have hnone := hinner.momentsOf_unvisited (hnew source List.mem_cons_self)
        fun other hother => hnew other (List.mem_cons_of_mem _ hother)
      rw [momentsOf_cons_other hne, momentsOf_append, hnone, List.nil_append]
      exact ihrest hactive' hok file hmem
  | abandoned => cases hok

/-! ### What is listed is there in the end -/

theorem conclude_widens {extraction : Extraction}
    (hend : conclude source out = (ix', .ok extraction)) : Widens out.1 ix' := by
  rcases out with ⟨mid, fault | found⟩
  · cases hend
  · cases hend
    exact .finish mid source.uri source.text found

theorem Walk.widens_end (h : Walk fs uri paths ix targets log depth out) (hok : out.2 = .ok found) :
    ∀ m ∈ log, Widens m.index out.1 := by
  induction h generalizing found with
  | done => exact nofun
  | fault => cases hok
  | passed hfile hvisit hrest ih =>
    intro m hm
    rcases List.mem_cons.1 hm with rfl | hm
    · exact hrest.extends.widens
    · exact ih hok m hm
  | @entered _ _ _ _ _ _ _ _ _ _ _ _ inner _ hvisit hinner hend hrest ihinner ihrest =>
    intro m hm
    rcases List.mem_cons.1 hm with rfl | hm
    · exact (hinner.extends_entered hvisit hend).widens.trans hrest.extends.widens
    rcases List.mem_append.1 hm with hm | hm
    · have hinside : Widens m.index inner.1 := by
        rcases inner with ⟨mid, fault | targets⟩
        · cases hend
        · exact ihinner rfl m hm
      exact (hinside.trans (conclude_widens hend)).trans hrest.extends.widens
    · exact ihrest hok m hm
  | abandoned => cases hok

/-- What was listed on the way is known when the walk has ended. -/
theorem Walk.listed_known {m : Moment} {target : String}
    (h : Walk fs uri paths ix targets log depth out) (hok : out.2 = .ok found) (hm : m ∈ log)
    (hlisted : m.listed? fs = some target) : out.1.Knows target := by
  by_cases hknown : m.index.Knows target
  · exact (h.widens_end hok m hm).knows target hknown
  · obtain ⟨path, hfile, hread⟩ := Moment.listed?_eq_some.1 hlisted
    obtain ⟨text, hread⟩ := hread.resolve_right hknown
    have hvisit : m.visit? fs = some ⟨target, text⟩ :=
      Moment.visit?_eq_some.2 ⟨path, hfile, hknown, hread⟩
    exact .inl (h.visits_indexed hok ⟨target, text⟩ (List.mem_filterMap.2 ⟨m, hm, hvisit⟩))

theorem indexed_of_conclude {k : String} {r : Except IndexFault Extraction}
    (hend : conclude source out = (ix', r)) (hk : ix'.tables.get? k ≠ none) :
    source.uri = k ∨ out.1.tables.get? k ≠ none := by
  rcases out with ⟨mid, fault | found⟩
  · cases hend
    exact .inr hk
  · cases hend
    by_cases heq : source.uri = k
    · exact .inl heq
    · rw [deactivate, (record_sameAt found (Ne.symm heq)).table] at hk
      exact .inr hk

/-- No other file gets a table than those that are entered. -/
theorem Walk.indexed_cases {k : String} (h : Walk fs uri paths ix targets log depth out)
    (hk : out.1.tables.get? k ≠ none) :
    ix.tables.get? k ≠ none ∨ ∃ file ∈ visits fs log, file.uri = k := by
  induction h with
  | done => exact .inl hk
  | fault => exact .inl hk
  | passed _ hvisit _ ih =>
    rw [visits_cons_none hvisit]
    exact ih hk
  | entered hvisit _ hend _ ihinner ihrest =>
    rw [visits_cons_some hvisit, visits_append]
    rcases ihrest hk with hk | ⟨file, hfile, heq⟩
    · rcases indexed_of_conclude hend hk with heq | hk
      · exact .inr ⟨_, List.mem_cons_self, heq⟩
      rcases ihinner hk with hk | ⟨file, hfile, heq⟩
      · exact .inl hk
      · exact .inr ⟨file, by simp [hfile], heq⟩
    · exact .inr ⟨file, by simp [hfile], heq⟩
  | abandoned hvisit _ hend ihinner =>
    rw [visits_cons_some hvisit]
    rcases indexed_of_conclude hend hk with heq | hk
    · exact .inr ⟨_, List.mem_cons_self, heq⟩
    rcases ihinner hk with hk | ⟨file, hfile, heq⟩
    · exact .inl hk
    · exact .inr ⟨file, by simp [hfile], heq⟩

/-! ### Calls -/

theorem importsOf_eq {list : List String} (h : ix.imports.get? uri = some list) :
    ix.importsOf uri = list := by
  rw [importsOf, h]
  rfl

section Traversal
variable {result : Index × Except IndexFault Extraction} {extraction : Extraction}
  (h : Traversal fs ix source log depth result) (hok : result.2 = .ok extraction)
include h hok

theorem Traversal.reflects :
    ∀ file ∈ source :: visits fs log, Reflects fs result.1 file (momentsOf file.uri log) := by
  obtain @⟨_, out, hwalk⟩ := h
  have hend : conclude source out = ((conclude source out).1, .ok extraction) := by rw [← hok]
  exact hwalk.reflects_entered hend fun _ => hwalk.reflects List.mem_cons_self

theorem Traversal.listed_known {m : Moment} {target : String} (hm : m ∈ log)
    (hlisted : m.listed? fs = some target) : result.1.Knows target := by
  obtain @⟨_, ⟨mid, fault | found⟩, hwalk⟩ := h
  · cases hok
  · have hknown := hwalk.listed_known rfl hm hlisted
    exact (Widens.finish mid source.uri source.text found).knows target hknown

omit hok in
theorem Traversal.indexed_cases {k : String} (hk : result.1.tables.get? k ≠ none) :
    ix.tables.get? k ≠ none ∨ ∃ file ∈ source :: visits fs log, file.uri = k := by
  obtain @⟨_, out, hwalk⟩ := h
  rcases indexed_of_conclude rfl hk with heq | hk
  · exact .inr ⟨source, List.mem_cons_self, heq⟩
  rcases hwalk.indexed_cases hk with hk | ⟨file, hfile, heq⟩
  · exact .inl hk
  · exact .inr ⟨file, List.mem_cons_of_mem _ hfile, heq⟩

end Traversal

theorem after_concat (ix : Index) (calls : List Call) (call : Call) :
    ix.after (calls ++ [call]) = ((ix.after calls).perform call).1 :=
  List.foldl_concat ..

/-- Whether every one of the calls returns. -/
def returns (ix : Index) : List Call → Bool
  | [] => true
  | call :: rest => (ix.perform call).2.isOk && returns (ix.perform call).1 rest

theorem returns_concat (ix : Index) (calls : List Call) (call : Call) :
    ix.returns (calls ++ [call]) =
      (ix.returns calls && ((ix.after calls).perform call).2.isOk) := by
  induction calls generalizing ix with
  | nil => simp [returns, after]
  | cons first rest ih =>
    rw [List.cons_append, returns, returns, ih, Bool.and_assoc]
    rfl

/-- The file was last indexed by a call whose log is `log`, as its own text or on the way. -/
def LastIndexed (fs : FileSystem) (ix : Index) (calls : List Call) (file : SourceText)
    (log : List Moment) : Prop :=
  ∃ before call later source depth result,
    calls = before ++ call :: later ∧ call.source? = some source ∧
      Traversal fs (ix.after before) source log depth result ∧
      (ix.after before).perform call = (result.1, result.2.map fun _ => ()) ∧
      file ∈ source :: visits fs log ∧
      ∀ next ∈ later, ∀ source', next.source? = some source' → source'.uri ≠ file.uri

theorem LastIndexed.concat {calls : List Call} {call : Call} {file : SourceText}
    (h : LastIndexed fs ix calls file log)
    (hother : ∀ source, call.source? = some source → source.uri ≠ file.uri) :
    LastIndexed fs ix (calls ++ [call]) file log := by
  obtain ⟨before, call', later, source, depth, result, heq, hsource, htraversal, hperform, hfile,
    hlater⟩ := h
  refine ⟨before, call', later ++ [call], source, depth, result, by simp [heq], hsource,
    htraversal, hperform, hfile, fun next hnext => ?_⟩
  rcases List.mem_append.1 hnext with hnext | hnext
  · exact hlater next hnext
  · rw [List.mem_singleton.1 hnext]
    exact hother

/-- What is said of the import list of one file after calls: the files that it names are in the
index, and it is told by the text that the file was last indexed with and by the log of the call
that did so. -/
structure Accounted (fs : FileSystem) (ix : Index) (calls : List Call) (uri : String) : Prop where
  closed : ∀ target ∈ (ix.after calls).importsOf uri, target ∈ (ix.after calls).uris
  origin : ∃ text log, LastIndexed fs ix calls ⟨uri, text⟩ log ∧
    Reflects fs (ix.after calls) ⟨uri, text⟩ (momentsOf uri log)

namespace Accounted
variable {calls : List Call} {call : Call}

/-- A call that does not touch the file, nor loses one that its list names. -/
theorem kept (h : Accounted fs ix calls uri)
    (hother : ∀ source, call.source? = some source → source.uri ≠ uri)
    (hsame : SameAt uri (ix.after calls) (ix.after (calls ++ [call])))
    (hstay : ∀ k ∈ (ix.after calls).uris, k ∈ (ix.after (calls ++ [call])).uris) :
    Accounted fs ix (calls ++ [call]) uri := by
  obtain ⟨hclosed, text, log, hlast, hreflects⟩ := h
  refine ⟨fun target htarget => ?_, text, log, hlast.concat hother, hreflects.of_sameAt hsame⟩
  rw [importsOf, hsame.imports] at htarget
  exact hstay target (hclosed target htarget)

/-- The file of the call, or one that was entered on the way. -/
theorem entered {result : Index × Except IndexFault Extraction} {extraction : Extraction}
    {file : SourceText} (hsource : call.source? = some source)
    (htraversal : Traversal fs (ix.after calls) source log depth result)
    (hperform : (ix.after calls).perform call = (result.1, result.2.map fun _ => ()))
    (hok : result.2 = .ok extraction) (hactive : result.1.active = [])
    (hfile : file ∈ source :: visits fs log) : Accounted fs ix (calls ++ [call]) file.uri := by
  have hafter : ix.after (calls ++ [call]) = result.1 := by rw [after_concat, hperform]
  have hreflects := htraversal.reflects hok file hfile
  have hlast : LastIndexed fs ix (calls ++ [call]) file log :=
    ⟨calls, call, [], source, depth, result, rfl, hsource, htraversal, hperform, hfile, nofun⟩
  refine ⟨fun target htarget => ?_, file.text, log, hlast, by rw [hafter]; exact hreflects⟩
  rw [hafter, importsOf_eq hreflects.imports] at htarget
  obtain ⟨m, hm, hlisted⟩ := List.mem_filterMap.1 (List.mem_eraseDups.1 htarget)
  rw [hafter, mem_uris]
  -- no file is under way any more, so the target is known by its table
  rcases htraversal.listed_known hok (List.mem_filter.1 hm).1 hlisted with hk | hk
  · exact hk
  · rw [hactive] at hk
    cases hk

end Accounted

theorem Rooted.after {calls : List Call} (hr : ix.Rooted) : (ix.after calls).Rooted := by
  induction calls using List.reverseRecOn with
  | nil => exact hr
  | append_singleton calls call ih =>
    have hroot : ((ix.after calls).perform call).1.root = (ix.after calls).root := by
      cases perform_case (ix.after calls) call with
      | unchanged heq => rw [heq]
      | indexed fs uri text _ _ heq => rw [heq]; exact (load_extendsBut ..).root
      | removed uri heq => rw [heq]; rfl
      | cleared heq => rw [heq]; rfl
    rw [after_concat]
    unfold Rooted
    rw [hroot]
    exact ih

theorem Accounted.concat {calls : List Call} {call : Call} (hr : ix.Rooted) (hidle : ix.Idle)
    (hfs : call.fs? = some fs) (hok : ((ix.after calls).perform call).2.isOk = true)
    (h : ∀ uri ∈ (ix.after calls).uris, Accounted fs ix calls uri) :
    ∀ uri ∈ (ix.after (calls ++ [call])).uris, Accounted fs ix (calls ++ [call]) uri := by
  intro uri huri
  cases hsource : call.source? with
  | none =>
    have hafter : ix.after (calls ++ [call]) = ix.after calls := by
      rw [after_concat, perform_of_no_source _ hfs hsource]
    rw [hafter] at huri
    refine (h uri huri).kept (by simp [hsource]) ?_ ?_
    · rw [hafter]
      exact .refl uri _
    · rw [hafter]
      exact fun _ hk => hk
  | some source =>
    obtain ⟨-, hperform⟩ := perform_of_source (ix.after calls) hfs hsource
    obtain ⟨log, depth, htraversal⟩ :=
      load_traversal source hr.after (vacancies_lt_chainBound fs _)
    have hbut := load_extendsBut fs (chainBound fs) (ix.after calls) source.uri source.text
    generalize load fs (chainBound fs) (ix.after calls) source.uri source.text = result
      at hperform htraversal hbut
    have hafter : ix.after (calls ++ [call]) = result.1 := by rw [after_concat, hperform]
    obtain ⟨extraction, hresult⟩ : ∃ extraction, result.2 = .ok extraction := by
      rw [hperform] at hok
      cases hresult : result.2 with
      | error fault => simp [hresult, Except.map, Except.isOk, Except.toBool] at hok
      | ok extraction => exact ⟨extraction, rfl⟩
    by_cases hentered : ∃ file ∈ source :: visits fs log, file.uri = uri
    · obtain ⟨file, hfile, rfl⟩ := hentered
      have hactive := (hidle.after (calls ++ [call])).active
      rw [hafter] at hactive
      exact .entered hsource htraversal hperform hresult hactive hfile
    · rw [hafter] at huri
      have hold : (ix.after calls).tables.get? uri ≠ none :=
        (htraversal.indexed_cases (mem_uris.1 huri)).resolve_right hentered
      have hne : source.uri ≠ uri := fun heq => hentered ⟨source, List.mem_cons_self, heq⟩
      refine (h uri (mem_uris.2 hold)).kept ?_ ?_ ?_
      · intro source' hsource'
        rw [hsource] at hsource'
        cases hsource'
        exact hne
      · rw [hafter]
        exact hbut.same uri (Ne.symm hne) (.inl hold)
      · intro k hk
        rw [hafter, mem_uris]
        by_cases hself : k = source.uri
        · rw [hself]
          exact (htraversal.reflects hresult source List.mem_cons_self).indexed
        · rw [(hbut.same k hself (.inl (mem_uris.1 hk))).table]
          exact mem_uris.1 hk

/-- After calls on a new index that all return, over files that do not change, every file on a list
of imports is in the index. The list of each file names, each at its first place, the files that the
imports in its text led to, as far as they could be read or were known at the moment when the import
was followed. -/
theorem after_accounted {root : Option Path} {layout : Layout} {calls : List Call}
    (hhere : fs.here.Proper) (hnew : create fs root layout = .ok ix)
    (hfs : ∀ call ∈ calls, call.fs? = some fs) (hreturns : ix.returns calls = true) :
    ∀ uri ∈ (ix.after calls).uris, Accounted fs ix calls uri := by
  have hr := create_rooted hhere hnew
  have hidle := create_idle hnew
  induction calls using List.reverseRecOn with
  | nil =>
    intro uri huri
    obtain ⟨place, -, heq⟩ := bind_eq_ok.1 hnew
    cases heq
    cases huri
  | append_singleton calls call ih =>
    rw [returns_concat, Bool.and_eq_true] at hreturns
    refine Accounted.concat hr hidle (hfs call (by simp)) hreturns.2 ?_
    exact ih (fun call' hmem => hfs call' (by simp [hmem])) hreturns.1

/-- A file that is not UTF-8 is open with a text of its own and imports a file that imports it in
turn: it is listed there, for it was under way. Reading it as a file comes to nothing. -/
theorem after_accounted_unreadable :
    let fs := (({} : FileSystem).install ["ws", "a.bn"] (.file (Text.Utf8.encode
      "import \"raw\"".toList))).install ["ws", "raw.bn"] (.file [0xFF])
    let raw := "file:///ws/raw.bn"
    let calls := [.document fs raw "import \"./a\"", Call.file fs (.ofString "/ws/raw.bn")]
    let ix := ({} : Index).after calls
    create fs none {} = .ok {} ∧ fs.here.Proper ∧ (∀ call ∈ calls, call.fs? = some fs) ∧
      ({} : Index).returns calls = true ∧ ix.uris = ["file:///ws/a.bn", raw] ∧
      ix.importsOf "file:///ws/a.bn" = [raw] ∧
      ∀ uri ∈ ix.uris, Accounted fs {} calls uri := by
  intro fs raw calls ix
  have hnew : create fs none {} = .ok {} := rfl
  have hhere : fs.here.Proper := nofun
  have hfs : ∀ call ∈ calls, call.fs? = some fs := by
    intro call hmem
    rcases List.mem_cons.1 hmem with rfl | hmem
    · rfl
    · rw [List.mem_singleton.1 hmem]
      rfl
  have hreturns : ({} : Index).returns calls = true := by decide +kernel
  exact ⟨hnew, hhere, hfs, hreturns, by decide +kernel, by decide +kernel,
    after_accounted hhere hnew hfs hreturns⟩

end BurnLens.Index
