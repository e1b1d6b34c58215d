import BurnLens.Index.Load

/-!
# What indexing a file leaves alone

Indexing a text under a URI records the table of that text (`load_ok`) and never rewrites the table
that another file has (`load_keeps`): an import is followed only if its file has no table yet. So
whatever the files on disk say, an index keeps what it knows of every file but the one that is
being indexed.
-/

namespace BurnLens.Index

/-- `ix'` has every table of `ix`. -/
def Keeps (ix ix' : Index) : Prop :=
  ∀ k t, ix.tables.get? k = some t → ix'.tables.get? k = some t

/-- `ix'` has every table of `ix`, except perhaps that of `uri`. -/
def KeepsBut (uri : String) (ix ix' : Index) : Prop :=
  ∀ k t, k ≠ uri → ix.tables.get? k = some t → ix'.tables.get? k = some t

variable {ix ix' ix'' : Index} {fs : FileSystem} {uri text : String}

theorem Keeps.refl (ix : Index) : Keeps ix ix := fun _ _ h => h

theorem Keeps.trans (h : Keeps ix ix') (h' : Keeps ix' ix'') : Keeps ix ix'' :=
  fun k t hk => h' k t (h k t hk)

theorem Keeps.but (h : Keeps ix ix') : KeepsBut uri ix ix' := fun k t _ hk => h k t hk

theorem KeepsBut.trans (h : KeepsBut uri ix ix') (h' : KeepsBut uri ix' ix'') :
    KeepsBut uri ix ix'' :=
  fun k t hne hk => h' k t hne (h k t hne hk)

/-- A file without a table may be indexed: no table is lost. -/
theorem KeepsBut.keeps (h : KeepsBut uri ix ix') (hnew : ix.tables.get? uri = none) :
    Keeps ix ix' := by
  intro k t hk
  refine h k t ?_ hk
  rintro rfl
  rw [hnew] at hk
  cases hk

theorem record_keepsBut (targets : List String) :
    KeepsBut uri ix (ix.record uri text targets).1 := by
  intro k t hne hk
  simp only [record]
  rw [OrderedMap.get?_put, if_neg (Ne.symm hne)]
  exact hk

theorem get?_record (targets : List String) :
    (ix.record uri text targets).1.tables.get? uri =
      some (ix.record uri text targets).2.table := by
  simp only [record]
  rw [OrderedMap.get?_put, if_pos rfl]

theorem record_extract (targets : List String) :
    ∃ lookup, (ix.record uri text targets).2 = extract text uri lookup := ⟨_, rfl⟩

section Imports
variable (fs : FileSystem) {loader : Loader}
  (hload : ∀ ix uri text, KeepsBut uri ix (loader ix uri text).1)
include hload

theorem loadImport_keeps (ix : Index) (importPath fromUri : String) :
    Keeps ix (loadImport fs loader ix importPath fromUri).1 := by
  unfold loadImport
  split
  · exact .refl ix
  · exact .refl ix
  · rename_i path target _
    split
    · exact .refl ix
    · rename_i hnew
      split
      · exact .refl ix
      · exact .refl ix
      · rename_i text _
        -- the file has no table, so none is replaced
        have hnone : ix.tables.get? target = none := by
          simp only [Bool.or_eq_true, not_or, OrderedMap.contains] at hnew
          simpa using hnew.1
        have hk := (hload ix target text).keeps hnone
        split <;> (rename_i heq; rw [heq] at hk; exact hk)

theorem loadImports_keeps (uri : String) (targets paths : List String) (ix : Index) :
    Keeps ix (loadImports fs loader uri targets paths ix).1 := by
  induction paths generalizing ix targets with
  | nil => exact .refl ix
  | cons path rest ih =>
    have hstep := loadImport_keeps fs hload ix path uri
    unfold loadImports
    split <;> rename_i heq <;> rw [heq] at hstep
    · exact hstep
    · exact hstep.trans (ih targets _)
    · exact hstep.trans (ih _ _)

end Imports

/-- Indexing a file leaves the tables of all other files. -/
theorem load_keeps (fs : FileSystem) (depth : Nat) (ix : Index) (uri text : String) :
    KeepsBut uri ix (load fs depth ix uri text).1 := by
  induction depth generalizing ix uri text with
  | zero => exact record_keepsBut []
  | succ depth ih =>
    have himports : Keeps ix _ :=
      loadImports_keeps fs ih uri [] (Symbol.importPaths text.toList) (ix.activate uri)
    unfold load
    split <;> rename_i heq <;> rw [heq] at himports
    · exact himports.but
    · exact himports.but.trans (record_keepsBut _)

/-- A file that was indexed has the table of its text. -/
theorem load_ok {depth : Nat} {extraction : Extraction}
    (h : (load fs depth ix uri text).2 = .ok extraction) :
    (load fs depth ix uri text).1.tables.get? uri = some extraction.table ∧
      ∃ lookup, extraction = extract text uri lookup := by
  cases depth with
  | zero =>
    simp only [load, Except.ok.injEq] at h ⊢
    subst h
    exact ⟨get?_record [], record_extract []⟩
  | succ depth =>
    unfold load at h ⊢
    split at h
    · cases h
    · rename_i targets _
      simp only [Except.ok.injEq] at h ⊢
      subst h
      exact ⟨get?_record targets, record_extract targets⟩

/-! ### Documents -/

theorem indexDocument_keeps (ix : Index) (fs : FileSystem) (uri text : String) :
    KeepsBut uri ix (ix.indexDocument fs uri text).1 := by
  unfold indexDocument
  split
  · exact (Keeps.refl ix).but
  · exact load_keeps fs _ ix uri text

theorem indexDocument_ok {extraction : Extraction}
    (h : (ix.indexDocument fs uri text).2 = .ok extraction) :
    (ix.indexDocument fs uri text).1.tables.get? uri = some extraction.table ∧
      ∃ lookup, extraction = extract text uri lookup := by
  unfold indexDocument at h ⊢
  split at h
  · cases h
  · rw [if_neg ‹_›]
    exact load_ok h

end BurnLens.Index
