import BurnLens.Proofs.Index.Import

/-!
# The maps of an index agree

An index has a map of tables, a map of import lists and a list of the files being indexed. Indexing
a file writes to each of them at another moment, after the files it imports were indexed, and may be
given up at any depth. `Consistent` says how the maps belong together. `Extends` collects what
following imports does to an index, to the end or not: no file is touched that has a table or is
being indexed, and maps that agree still do. So `after_consistent`: whatever calls were made, the
maps of an index agree and nothing is left half done, and a call that fails changes nothing about
its own file.
-/

namespace BurnLens

theorem Uri.ofPlace_ne_reserved (place : Place) : Uri.ofPlace place ≠ Builtin.uri := by
  intro h
  have hlist := congrArg String.toList h
  simp [Uri.ofPlace, Builtin.uri] at hlist

theorem FileSystem.uriOf_ne_reserved {fs : FileSystem} {path : Path} {uri : String}
    (h : fs.uriOf path = .ok uri) : uri ≠ Builtin.uri := by
  unfold uriOf at h
  cases hplace : fs.resolve path with
  | error fault =>
    rw [hplace] at h
    cases h
  | ok place =>
    rw [hplace] at h
    cases h
    exact Uri.ofPlace_ne_reserved place

namespace Index

/-- Tables and import lists are those of the same files in the same order. A table stands under its
own URI, never under the reserved one, and an import list names no file twice. -/
structure Consistent (ix : Index) : Prop where
  keys : ix.imports.keys = ix.tables.keys
  nodup : ix.tables.keys.Nodup
  owned : ∀ e ∈ ix.tables.entries, e.2.uri = e.1
  unreserved : Builtin.uri ∉ ix.tables.keys
  distinct : ∀ e ∈ ix.imports.entries, e.2.Nodup

/-- Table and import list of a file, or their absence, are as they were. -/
structure SameAt (uri : String) (ix ix' : Index) : Prop where
  table : ix'.tables.get? uri = ix.tables.get? uri
  imports : ix'.imports.get? uri = ix.imports.get? uri

variable {ix ix' ix'' : Index} {fs : FileSystem} {uri text : String}

theorem SameAt.refl (uri : String) (ix : Index) : SameAt uri ix ix := ⟨rfl, rfl⟩

theorem SameAt.trans (h : SameAt uri ix ix') (h' : SameAt uri ix' ix'') : SameAt uri ix ix'' :=
  ⟨h'.table.trans h.table, h'.imports.trans h.imports⟩

/-! ### Single writes -/

namespace Consistent

theorem record {targets : List String} (hne : uri ≠ Builtin.uri) (hnodup : targets.Nodup)
    (h : ix.Consistent) : (ix.record uri text targets).1.Consistent where
  keys := by simp only [Index.record, OrderedMap.keys_put, h.keys]
  nodup := OrderedMap.nodup_keys_put _ _ h.nodup
  owned e he := by
    rcases OrderedMap.mem_of_mem_put he with rfl | he
    · rfl
    · exact h.owned e he
  unreserved hmem := by
    simp only [Index.record, OrderedMap.keys_put] at hmem
    split at hmem
    · exact h.unreserved hmem
    · rcases List.mem_append.1 hmem with hmem | hmem
      · exact h.unreserved hmem
      · exact hne (List.mem_singleton.1 hmem).symm
  distinct e he := by
    rcases OrderedMap.mem_of_mem_put he with rfl | he
    · exact hnodup
    · exact h.distinct e he

theorem remove (uri : String) (h : ix.Consistent) : (ix.remove uri).Consistent where
  keys := by simp only [Index.remove, OrderedMap.keys_erase, h.keys]
  nodup := OrderedMap.nodup_keys_erase uri h.nodup
  owned e he := h.owned e ((List.mem_filter.1 he).1)
  unreserved hmem := by
    rw [Index.remove, OrderedMap.keys_erase] at hmem
    exact h.unreserved ((List.mem_filter.1 hmem).1)
  distinct e he := h.distinct e ((List.mem_filter.1 he).1)

theorem of_empty (htables : ix.tables = .empty) (himports : ix.imports = .empty) :
    ix.Consistent := by
  constructor <;> simp [htables, himports, OrderedMap.empty, OrderedMap.keys]

end Consistent

theorem record_sameAt {k : String} (targets : List String) (hk : k ≠ uri) :
    SameAt k ix (ix.record uri text targets).1 := by
  constructor <;> rw [record, OrderedMap.get?_put, if_neg (Ne.symm hk)]

/-! ### Following imports -/

/-- What following imports does to an index. -/
structure Extends (ix ix' : Index) : Prop where
  root : ix'.root = ix.root
  layout : ix'.layout = ix.layout
  active : ix'.active = ix.active
  same : ∀ k, ix.tables.get? k ≠ none ∨ k ∈ ix.active → SameAt k ix ix'
  consistent : ix.Consistent → ix'.Consistent

/-- What indexing the file `uri` does to an index. -/
structure ExtendsBut (uri : String) (ix ix' : Index) : Prop where
  root : ix'.root = ix.root
  layout : ix'.layout = ix.layout
  active : ix'.active = ix.active
  same : ∀ k, k ≠ uri → ix.tables.get? k ≠ none ∨ k ∈ ix.active → SameAt k ix ix'
  consistent : uri ≠ Builtin.uri → ix.Consistent → ix'.Consistent

namespace Extends

theorem refl (ix : Index) : Extends ix ix :=
  ⟨rfl, rfl, rfl, fun k _ => .refl k ix, id⟩

theorem trans (h : Extends ix ix') (h' : Extends ix' ix'') : Extends ix ix'' where
  root := h'.root.trans h.root
  layout := h'.layout.trans h.layout
  active := h'.active.trans h.active
  same k hk := by
    have hsame := h.same k hk
    refine hsame.trans (h'.same k ?_)
    rw [hsame.table, h.active]
    exact hk
  consistent hc := h'.consistent (h.consistent hc)

theorem but (h : Extends ix ix') : ExtendsBut uri ix ix' :=
  ⟨h.root, h.layout, h.active, fun k _ hk => h.same k hk, fun _ hc => h.consistent hc⟩

end Extends

theorem record_extendsBut {targets : List String} (hnodup : targets.Nodup) :
    ExtendsBut uri ix (ix.record uri text targets).1 :=
  ⟨rfl, rfl, rfl, fun _ hk _ => record_sameAt targets hk, fun hne hc => hc.record hne hnodup⟩

namespace ExtendsBut

theorem record {targets : List String} (hnodup : targets.Nodup) (h : ExtendsBut uri ix ix') :
    ExtendsBut uri ix (ix'.record uri text targets).1 where
  root := h.root
  layout := h.layout
  active := h.active
  same k hk hknown := (h.same k hk hknown).trans (record_sameAt targets hk)
  consistent hne hc := (h.consistent hne hc).record hne hnodup

theorem deactivate (h : ExtendsBut uri (ix.activate uri) ix') :
    ExtendsBut uri ix (ix'.deactivate uri) where
  root := h.root
  layout := h.layout
  active := by simp [Index.deactivate, h.active, activate]
  same k hk hknown := by
    have hsame := h.same k hk (hknown.imp_right (List.mem_cons_of_mem _))
    exact ⟨hsame.table, hsame.imports⟩
  consistent hne hc := by
    have hc' := h.consistent hne ⟨hc.keys, hc.nodup, hc.owned, hc.unreserved, hc.distinct⟩
    exact ⟨hc'.keys, hc'.nodup, hc'.owned, hc'.unreserved, hc'.distinct⟩

/-- A file that has no table and is not under way may be indexed. -/
theorem of_new (h : ExtendsBut uri ix ix') (hnew : ix.tables.get? uri = none)
    (hidle : uri ∉ ix.active) (hne : uri ≠ Builtin.uri) : Extends ix ix' where
  root := h.root
  layout := h.layout
  active := h.active
  same k hk := by
    refine h.same k ?_ hk
    rintro rfl
    rcases hk with hk | hk
    · exact hk hnew
    · exact hidle hk
  consistent := h.consistent hne

end ExtendsBut

section Imports
variable (fs : FileSystem) {loader : Loader}
  (hload : ∀ ix uri text, ExtendsBut uri ix (loader ix uri text).1)
include hload

theorem loadImport_extends (ix : Index) (importPath fromUri : String) :
    Extends ix (loadImport fs loader ix importPath fromUri).1 := by
  cases loadImport_case fs loader ix importPath fromUri with
  | fault _ _ heq => rw [heq]; exact .refl ix
  | absent _ heq => rw [heq]; exact .refl ix
  | unreadable _ _ _ _ heq => rw [heq]; exact .refl ix
  | known _ _ _ _ heq => rw [heq]; exact .refl ix
  | loaded path target text hfile hnew hidle _ heq =>
    rw [heq]
    have hne := FileSystem.uriOf_ne_reserved (importFile_some hfile).2.2
    exact (hload ix target text).of_new hnew hidle hne

theorem loadImports_extends (uri : String) (targets paths : List String) (ix : Index) :
    Extends ix (loadImports fs loader uri targets paths ix).1 := by
  induction paths generalizing ix targets with
  | nil => exact .refl ix
  | cons path rest ih =>
    have hstep := loadImport_extends fs hload ix path uri
    unfold loadImports
    split <;> rename_i heq <;> rw [heq] at hstep
    · exact hstep
    · exact hstep.trans (ih targets _)
    · exact hstep.trans (ih _ _)

end Imports

theorem loadImports_nodup {loader : Loader} {targets paths found : List String} {ix : Index}
    (hnodup : targets.Nodup) (h : (loadImports fs loader uri targets paths ix).2 = .ok found) :
    found.Nodup := by
  induction paths generalizing ix targets with
  | nil =>
    cases h
    exact hnodup
  | cons path rest ih =>
    unfold loadImports at h
    split at h
    · cases h
    · exact ih hnodup h
    · refine ih ?_ h
      split
      · exact hnodup
      · rename_i target _ hnew
        refine List.nodup_append.2 ⟨hnodup, by simp, fun a ha b hb => ?_⟩
        rw [List.mem_singleton.1 hb]
        rintro rfl
        exact hnew ha

/-- Indexing a file extends the index, also when it is given up. -/
theorem load_extendsBut (fs : FileSystem) (depth : Nat) (ix : Index) (uri text : String) :
    ExtendsBut uri ix (load fs depth ix uri text).1 := by
  induction depth generalizing ix uri text with
  | zero => exact record_extendsBut List.nodup_nil
  | succ depth ih =>
    have himports := loadImports_extends fs ih uri [] (Symbol.importPaths text.toList)
      (ix.activate uri)
    have hnodup := @loadImports_nodup fs uri (load fs depth) [] (Symbol.importPaths text.toList)
    unfold load
    split <;> rename_i heq <;> rw [heq] at himports
    · exact himports.but.deactivate
    · rename_i ix' targets
      have htargets : targets.Nodup := hnodup List.nodup_nil (congrArg Prod.snd heq)
      exact (himports.but.record htargets).deactivate

theorem load_error {depth : Nat} {fault : IndexFault}
    (h : (load fs depth ix uri text).2 = .error fault) :
    SameAt uri ix (load fs depth ix uri text).1 := by
  cases depth with
  | zero => cases h
  | succ depth =>
    have himports := loadImports_extends fs (load_extendsBut fs depth) uri []
      (Symbol.importPaths text.toList) (ix.activate uri)
    unfold load at h ⊢
    split at h
    · rename_i heq
      rw [heq] at himports
      -- the file is active while its imports are followed, so none of them touches it
      have hsame := himports.same uri (.inr List.mem_cons_self)
      exact ⟨hsame.table, hsame.imports⟩
    · cases h

/-! ### Calls -/

/-- What is asked of an index. Files may change from one call to the next. -/
inductive Call where
  | document (fs : FileSystem) (uri text : String)
  | file (fs : FileSystem) (path : Path)
  | remove (uri : String)
  | clear

/-- The file that a call indexes. -/
def Call.uri? : Call → Option String
  | .document _ uri _ => some uri
  | .file fs path => (fs.uriOf path).toOption
  | .remove _ => none
  | .clear => none

def perform (ix : Index) : Call → Index × Except IndexFault Unit
  | .document fs uri text =>
    ((ix.indexDocument fs uri text).1, (ix.indexDocument fs uri text).2.map fun _ => ())
  | .file fs path => ((ix.indexFile fs path).1, (ix.indexFile fs path).2.map fun _ => ())
  | .remove uri => (ix.remove uri, .ok ())
  | .clear => (ix.clear, .ok ())

/-- The index after calls, whether they returned or failed. -/
def after (ix : Index) (calls : List Call) : Index :=
  calls.foldl (fun ix call => (ix.perform call).1) ix

/-- Everything that a call can do. -/
inductive PerformCase (ix : Index) (call : Call) : Prop where
  | unchanged (heq : (ix.perform call).1 = ix)
  | indexed (fs : FileSystem) (uri text : String) (hne : uri ≠ Builtin.uri)
      (huri : call.uri? = some uri)
      (heq : ix.perform call = ((load fs (chainBound fs) ix uri text).1,
        (load fs (chainBound fs) ix uri text).2.map fun _ => ()))
  | removed (uri : String) (heq : ix.perform call = (ix.remove uri, .ok ()))
  | cleared (heq : ix.perform call = (ix.clear, .ok ()))

theorem perform_case (ix : Index) (call : Call) : PerformCase ix call := by
  cases call with
  | document fs uri text =>
    by_cases hne : uri = Builtin.uri
    · exact .unchanged (by simp [perform, indexDocument, hne])
    · exact .indexed fs uri text hne rfl (by simp [perform, indexDocument, hne])
  | file fs path =>
    cases hread : fs.readText path with
    | error fault => exact .unchanged (by simp [perform, indexFile, hread])
    | ok text? =>
      cases text? with
      | none => exact .unchanged (by simp [perform, indexFile, hread])
      | some text =>
        cases huri : fs.uriOf path with
        | error fault => exact .unchanged (by simp [perform, indexFile, hread, huri])
        | ok uri =>
          refine .indexed fs uri text (FileSystem.uriOf_ne_reserved huri) ?_ ?_
          · simp [Call.uri?, huri, Except.toOption]
          · simp only [perform, indexFile, hread, huri]
            rcases load fs (chainBound fs) ix uri text with ⟨ix', _ | _⟩ <;> rfl
  | remove uri => exact .removed uri rfl
  | clear => exact .cleared rfl

/-- Between calls no file is under way, and the maps agree. -/
structure Idle (ix : Index) : Prop where
  active : ix.active = []
  consistent : ix.Consistent

theorem Idle.perform (h : ix.Idle) (call : Call) : (ix.perform call).1.Idle := by
  cases perform_case ix call with
  | unchanged heq =>
    rw [heq]
    exact h
  | indexed fs uri text hne _ heq =>
    rw [heq]
    have hload := load_extendsBut fs (chainBound fs) ix uri text
    exact ⟨hload.active.trans h.active, hload.consistent hne h.consistent⟩
  | removed uri heq =>
    rw [heq]
    exact ⟨h.active, h.consistent.remove uri⟩
  | cleared heq =>
    rw [heq]
    exact ⟨rfl, .of_empty rfl rfl⟩

theorem Idle.after (h : ix.Idle) (calls : List Call) : (ix.after calls).Idle := by
  induction calls generalizing ix with
  | nil => exact h
  | cons call rest ih => exact ih (h.perform call)

theorem create_idle {root : Option Path} {layout : Layout}
    (h : create fs root layout = .ok ix) : ix.Idle := by
  obtain ⟨place, -, h⟩ := bind_eq_ok.1 h
  cases h
  exact ⟨rfl, .of_empty rfl rfl⟩

end Index

end BurnLens
