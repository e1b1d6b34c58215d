import BurnLens.Proofs.Index.Closure

/-!
# When indexing fails

An import that leads nowhere is passed over, and so is one that leads to a file that may not be
read. Yet four kinds of import make indexing fail: one that is found from a URI that cannot be read,
one that resolves to a path without any name, to which no extension can be added, and one whose path
the file system refuses, as too long or because it goes through a folder in which nothing may be
looked up. `Dead` lists them. Nothing else fails, and none of them is passed over, however deep
among the imports it stands: `indexDocument_returns_iff`.
-/

namespace BurnLens

namespace Path

theorem isName_of_slash {s : String} (hslash : '/' ∉ s.toList) (hne : s ≠ "") (hdot : s ≠ ".") :
    isName s = true := by
  have hpieces : pieces s = [s] := by
    rw [pieces, Text.splitOn_of_not_mem hslash]
    simp
  have htake : s.toList.takeWhile (· == '/') = [] := by
    cases hcs : s.toList with
    | nil => rfl
    | cons c cs =>
      have hc : c ≠ '/' := by
        rintro rfl
        exact hslash (by simp [hcs])
      simp [hc]
  have hlast : s.toList.getLast? ≠ some '/' := fun h => hslash (List.mem_of_getLast? h)
  simp [isName, ofString, hpieces, htake, hne, hdot, hlast]

theorem Proper.isName {p : Path} (h : p.Proper) : Path.isName (p.name ++ ".bn") = true := by
  have hslash : '/' ∉ p.name.toList := by
    unfold Path.name
    cases hlast : p.parts.getLast? with
    | none => simp
    | some last => exact (h last (List.mem_of_getLast? hlast)).2
  apply isName_of_slash
  · simpa using hslash
  · simp
  · intro hdot
    have hlength := congrArg (·.toList.length) hdot
    simp at hlength

end Path

theorem FileSystem.isFile_error {fs : FileSystem} {path : Path} {fault : FileFault}
    (h : fs.isFile path = .error fault) :
    fs.locate path.toString = .error .nameTooLong ∨ fs.locate path.toString = .error .denied := by
  rcases bind_eq_error.1 h with h | ⟨_, -, h⟩
  · unfold probe at h
    split at h
    · cases h
    next hdenied => exact .inr hdenied
    next hlong => exact .inl hlong
    · cases h
  · cases h

namespace Index
variable {ix : Index} {fs : FileSystem} {importPath fromUri uri text : String}

/-- Imports that cannot be followed. -/
inductive Dead (ix : Index) (fs : FileSystem) (importPath fromUri : String) : Prop where
  /-- The import is relative to a URI that cannot be read. -/
  | origin (fault : UriFault)
      (hmark : ¬ ix.layout.libraryMark.toList.isPrefixOf importPath.toList)
      (hslash : importPath.toList.head? ≠ some '/') (hfault : Uri.toPath? fromUri = .error fault)
  /-- The import means a path without any name. -/
  | nameless (path : Path) (hpath : ix.importCandidate importPath fromUri = .ok (some path))
      (hname : path.name = "")
  /-- The import means a path that is too long, or has too long a name. -/
  | tooLong (path : Path) (hpath : ix.resolveImport importPath fromUri = .ok (some path))
      (hlong : fs.locate path.toString = .error .nameTooLong)
  /-- The import means a path through a folder in which nothing may be looked up. -/
  | denied (path : Path) (hpath : ix.resolveImport importPath fromUri = .ok (some path))
      (hdenied : fs.locate path.toString = .error .denied)

theorem importCandidate_error {fault : IndexFault}
    (h : ix.importCandidate importPath fromUri = .error fault) : ix.Dead fs importPath fromUri := by
  unfold importCandidate at h
  split at h
  · cases h
  next hmark =>
    split at h
    · split at h <;> cases h
    next hslash =>
      rcases bind_eq_error.1 h with h | ⟨current, -, h⟩
      · obtain ⟨inner, hinner, -⟩ := mapError_eq_error.1 h
        exact .origin inner hmark hslash hinner
      · cases h

theorem resolveImport_error {fault : IndexFault} (hr : ix.Rooted) (hlayout : ix.layout = {})
    (h : ix.resolveImport importPath fromUri = .error fault) : ix.Dead fs importPath fromUri := by
  rcases bind_eq_error.1 h with h | ⟨candidate, hcandidate, h⟩
  · exact importCandidate_error h
  · cases candidate with
    | none => cases h
    | some path =>
      rcases bind_eq_error.1 h with h | ⟨_, -, h⟩
      · refine .nameless path hcandidate ?_
        unfold completeExtension at h
        split at h
        · cases h
        obtain ⟨inner, hinner, -⟩ := mapError_eq_error.1 h
        rw [hlayout] at hinner
        refine Decidable.byContradiction fun hname => ?_
        have hisName := (hr.importCandidate hcandidate).isName
        rw [Path.withName, if_neg hname, if_pos hisName] at hinner
        cases hinner
      · cases h

theorem importFile_error {fault : IndexFault} (hr : ix.Rooted) (hlayout : ix.layout = {})
    (h : ix.importFile fs importPath fromUri = .error fault) : ix.Dead fs importPath fromUri := by
  rcases bind_eq_error.1 h with h | ⟨resolved, hresolved, h⟩
  · exact resolveImport_error hr hlayout h
  · cases resolved with
    | none => cases h
    | some path =>
      rcases bind_eq_error.1 h with h | ⟨isFile, hisFile, h⟩
      · obtain ⟨inner, hinner, -⟩ := mapError_eq_error.1 h
        rcases FileSystem.isFile_error hinner with hlong | hdenied
        · exact .tooLong path hresolved hlong
        · exact .denied path hresolved hdenied
      · cases isFile with
        | false => cases h
        | true =>
          -- a file that was found has a URI
          obtain ⟨place, entry, hlocate, -⟩ :=
            FileSystem.locate_of_isFile (mapError_eq_ok.1 hisFile)
          obtain ⟨hresolve, -⟩ :=
            FileSystem.resolve_of_locate (hr.resolveImport hresolved) hlocate
          have huri : fs.uriOf path = .ok (Uri.ofPlace place) := by
            rw [FileSystem.uriOf, hresolve]
            rfl
          simp only [huri] at h
          cases h

/-- What the file system refuses is not passed over. -/
theorem importFile_refused {path : Path} {fault : FileFault}
    (hpath : ix.resolveImport importPath fromUri = .ok (some path))
    (hfile : fs.isFile path = .error fault) :
    ix.importFile fs importPath fromUri = .error (.file fault) :=
  bind_eq_error.2 (.inr ⟨_, hpath, bind_eq_error.2 (.inl (mapError_eq_error.2 ⟨_, hfile, rfl⟩))⟩)

theorem Dead.importFile (hlayout : ix.layout = {}) (h : ix.Dead fs importPath fromUri) :
    ∃ fault, ix.importFile fs importPath fromUri = .error fault := by
  cases h with
  | origin fault hmark hslash hfault =>
    refine ⟨.uri fault, bind_eq_error.2 (.inl (bind_eq_error.2 (.inl ?_)))⟩
    rw [importCandidate, if_neg hmark, if_neg hslash, hfault]
    rfl
  | nameless path hpath hname =>
    have hcomplete : ix.completeExtension path = .error (.path (.emptyName path.toString)) := by
      rw [completeExtension, hlayout, hname, if_neg (by decide), Path.withName, if_pos hname]
      rfl
    have hresolve : ix.resolveImport importPath fromUri = .error _ :=
      bind_eq_error.2 (.inr ⟨_, hpath, bind_eq_error.2 (.inl hcomplete)⟩)
    exact ⟨_, bind_eq_error.2 (.inl hresolve)⟩
  | tooLong path hpath hlong =>
    have hfile : fs.isFile path = .error (.nameTooLong path.toString) := by
      rw [FileSystem.isFile, FileSystem.probe, hlong]
      rfl
    exact ⟨_, importFile_refused hpath hfile⟩
  | denied path hpath hdenied =>
    have hfile : fs.isFile path = .error (.denied path.toString) := by
      rw [FileSystem.isFile, FileSystem.probe, hdenied]
      rfl
    exact ⟨_, importFile_refused hpath hfile⟩

/-- Indexing a document returns exactly if no file that it draws in, the document included, has a
dead import. -/
theorem indexDocument_returns_iff (hr : ix.Rooted) (hlayout : ix.layout = {})
    (hhere : fs.here.Proper) (hne : uri ≠ Builtin.uri) :
    (∃ extraction, (ix.indexDocument fs uri text).2 = .ok extraction) ↔
      ∀ source, (ix.activate uri).Reaches fs ⟨uri, text⟩ source →
        ∀ importPath ∈ source.importPaths, ¬ ix.Dead fs importPath source.uri := by
  constructor
  · rintro ⟨extraction, h⟩ source hreach importPath hmem hdead
    obtain ⟨found, hfound, -⟩ := indexDocument_covers hr hhere h hreach importPath hmem
    obtain ⟨fault, hfault⟩ := hdead.importFile hlayout
    have hext := load_extendsBut fs (chainBound fs) ix uri text
    rw [indexDocument, if_neg hne, importFile_congr hext.root hext.layout, hfault] at hfound
    cases hfound
  · intro h
    cases hresult : (ix.indexDocument fs uri text).2 with
    | ok extraction => exact ⟨extraction, rfl⟩
    | error fault =>
      rw [indexDocument, if_neg hne] at hresult
      obtain ⟨source, hreach, importPath, hmem, hfault⟩ := load_error_of_reached hresult
      exact absurd (importFile_error hr hlayout hfault) (h source hreach importPath hmem)

/-- Two files that import each other, one of them by a path below the root. -/
theorem indexDocument_returns_cyclic :
    let fs := ({} : FileSystem).install ["ws", "a.bn"] (.file (Text.Utf8.encode
      "import \"main\"".toList))
    let main : SourceText := ⟨"file:///ws/main.bn", "import \"/a\""⟩
    ∃ ix, create fs (some (.ofString "/ws")) {} = .ok ix ∧ ix.Rooted ∧ fs.here.Proper ∧
      main.uri ≠ Builtin.uri ∧ ∀ source, (ix.activate main.uri).Reaches fs main source →
        ∀ importPath ∈ source.importPaths, ¬ ix.Dead fs importPath source.uri := by
  intro fs main
  obtain ⟨ix, hix⟩ : ∃ ix, create fs (some (.ofString "/ws")) {} = .ok ix := ⟨_, rfl⟩
  have hhere : fs.here.Proper := nofun
  have hr := create_rooted hhere hix
  have hlayout : ix.layout = {} := by
    cases hix
    rfl
  have hne : main.uri ≠ Builtin.uri := by decide
  have hreturns : (ix.indexDocument fs main.uri main.text).2.toOption.isSome = true := by
    cases hix
    decide +kernel
  refine ⟨ix, hix, hr, hhere, hne, (indexDocument_returns_iff hr hlayout hhere hne).1 ?_⟩
  cases hresult : (ix.indexDocument fs main.uri main.text).2 with
  | ok extraction => exact ⟨extraction, rfl⟩
  | error fault =>
    rw [hresult] at hreturns
    cases hreturns

/-- An import fails that goes through a folder in which nothing may be looked up. -/
example :
    let fs := { ({} : FileSystem).install ["ws", "lib", "a.bn"] (.file []) with
      unsearchable := [["ws", "lib"]] }
    (match (({} : Index).indexDocument fs "file:///ws/main.bn" "import \"lib/a\"").2 with
      | .error fault => fault.message
      | .ok _ => "") = "[Errno 13] Permission denied: '/ws/lib/a.bn'" := by decide +kernel

/-- A document whose only import is a slash cannot be indexed, by an empty index over no files. -/
theorem indexDocument_fails :
    "file:///ws/main.bn" ≠ Builtin.uri ∧
      ∃ fault, (({} : Index).indexDocument {} "file:///ws/main.bn" "import \"/\"").2 =
        .error fault ∧ fault.message = "PosixPath('/') has an empty name" := by
  have hfault : (match (({} : Index).indexDocument {} "file:///ws/main.bn" "import \"/\"").2 with
      | .error fault => fault.message
      | .ok _ => "") = "PosixPath('/') has an empty name" := by decide +kernel
  refine ⟨by decide, ?_⟩
  split at hfault
  · exact ⟨_, ‹_›, hfault⟩
  · exact absurd hfault (by decide)

end Index

end BurnLens
