import BurnLens.Index.Load
import BurnLens.Proofs.File.Place

/-!
# How an import is followed

`loadImport_case` lists everything that following one import can do, told by the file that it leads
to (`importFile`). A file that was found can be looked at again without a failure, so reading it
either gives its text or passes it over: the only failures are those of finding it.
-/

namespace BurnLens

namespace Index
variable {ix : Index} {fs : FileSystem} {importPath fromUri : String}

theorem importFile_some {path : Path} {target : String}
    (h : ix.importFile fs importPath fromUri = .ok (some (path, target))) :
    ix.resolveImport importPath fromUri = .ok (some path) ∧ fs.isFile path = .ok true ∧
      fs.uriOf path = .ok target := by
  obtain ⟨resolved, hresolved, h⟩ := bind_eq_ok.1 h
  cases resolved with
  | none => cases h
  | some path' =>
    obtain ⟨isFile, hfile, h⟩ := bind_eq_ok.1 h
    cases isFile with
    | false => cases h
    | true =>
      obtain ⟨uri, huri, h⟩ := bind_eq_ok.1 h
      cases h
      exact ⟨hresolved, mapError_eq_ok.1 hfile, mapError_eq_ok.1 huri⟩

/-- Everything that following one import can do. -/
inductive ImportCase (fs : FileSystem) (load : Loader) (ix : Index) (importPath fromUri : String) :
    Prop where
  | fault (fault : IndexFault) (hfile : ix.importFile fs importPath fromUri = .error fault)
      (heq : loadImport fs load ix importPath fromUri = (ix, .error fault))
  | absent (hfile : ix.importFile fs importPath fromUri = .ok none)
      (heq : loadImport fs load ix importPath fromUri = (ix, .ok none))
  | unreadable (path : Path) (target : String)
      (hfile : ix.importFile fs importPath fromUri = .ok (some (path, target)))
      (hread : fs.readText path = .ok none)
      (heq : loadImport fs load ix importPath fromUri = (ix, .ok none))
  | known (path : Path) (target : String)
      (hfile : ix.importFile fs importPath fromUri = .ok (some (path, target)))
      (hknown : ix.tables.get? target ≠ none ∨ target ∈ ix.active)
      (heq : loadImport fs load ix importPath fromUri = (ix, .ok (some target)))
  | loaded (path : Path) (target text : String)
      (hfile : ix.importFile fs importPath fromUri = .ok (some (path, target)))
      (hnew : ix.tables.get? target = none) (hidle : target ∉ ix.active)
      (hread : fs.readText path = .ok (some text))
      (heq : loadImport fs load ix importPath fromUri =
        ((load ix target text).1, (load ix target text).2.map fun _ => some target))

theorem loadImport_case (fs : FileSystem) (load : Loader) (ix : Index)
    (importPath fromUri : String) : ImportCase fs load ix importPath fromUri := by
  cases hfile : ix.importFile fs importPath fromUri with
  | error fault => exact .fault fault hfile (by simp [loadImport, hfile])
  | ok found =>
    rcases found with _ | ⟨path, target⟩
    · exact .absent hfile (by simp [loadImport, hfile])
    by_cases hknown : ix.tables.get? target ≠ none ∨ target ∈ ix.active
    · refine .known path target hfile hknown ?_
      have hyes : (ix.tables.contains target || ix.active.contains target) = true := by
        simpa [OrderedMap.contains, Option.isSome_iff_ne_none] using hknown
      simp only [loadImport, hfile, hyes, ↓reduceIte]
    · simp only [ne_eq, not_or, Decidable.not_not] at hknown
      have hno : (ix.tables.contains target || ix.active.contains target) = false := by
        simpa [OrderedMap.contains] using hknown
      obtain ⟨text?, hread⟩ := FileSystem.readText_of_isFile (importFile_some hfile).2.1
      cases text? with
      | none =>
        refine .unreadable path target hfile hread ?_
        simp only [loadImport, hfile, hno, Bool.false_eq_true, ↓reduceIte, hread]
      | some text =>
        refine .loaded path target text hfile hknown.1 hknown.2 hread ?_
        simp only [loadImport, hfile, hno, Bool.false_eq_true, ↓reduceIte, hread]
        rcases load ix target text with ⟨ix', _ | _⟩ <;> rfl

end Index

end BurnLens
