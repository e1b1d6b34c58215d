import BurnLens.Proofs.Index.Listing
import BurnLens.Proofs.Index.Reindex

/-!
# Indexing the same text again

The first call may draw in files and may be given up half way. The second meets another index: files
that were drawn in have tables now, so nothing is entered where the first call entered a file and
came back. What it lists there is the same, for a walk makes no file known that cannot be read
(`Later`). Where the first call was given up, the files on the way down have no table yet and are
entered again, down to the import that fails (`Walk.again_failed`). So the second call ends as the
first did and changes nothing: `indexDocument_again`.
-/

namespace BurnLens

theorem FileSystem.length_files_le (fs : FileSystem) : fs.files.length ≤ fs.entries.length := by
  calc fs.files.length ≤ ((fs.entries.map (·.1)).dedup).length := List.length_filter_le ..
    _ ≤ (fs.entries.map (·.1)).length := (List.dedup_sublist _).length_le
    _ = fs.entries.length := List.length_map ..

namespace Index
variable {ix ix' ix'' : Index} {fs : FileSystem} {uri text importPath : String}
  {targets paths found : List String} {log : List Moment} {depth : Nat} {source : SourceText}
  {out : Index × Except IndexFault (List String)}

/-- `ix'` follows imports as `ix` does and knows what `ix` knows. What it knows beyond that are
files that an import leads to and that can be read. -/
structure Later (fs : FileSystem) (ix ix' : Index) : Prop where
  widens : Widens ix ix'
  found : ∀ k, ix'.Knows k → ix.Knows k ∨ ∃ text, ix.Finds fs ⟨k, text⟩

namespace Later

theorem refl (fs : FileSystem) (ix : Index) : Later fs ix ix :=
  ⟨⟨rfl, rfl, fun _ => id⟩, fun _ => .inl⟩

theorem trans (h : Later fs ix ix') (h' : Later fs ix' ix'') : Later fs ix ix'' := by
  refine ⟨h.widens.trans h'.widens, fun k hk => ?_⟩
  rcases h'.found k hk with hk | ⟨text, hfinds⟩
  · exact h.found k hk
  · exact .inr ⟨text, h.widens.finds hfinds⟩

section Looks
variable (h : Later fs ix ix')
include h

/-- An import that led into no file leads into none later. -/
theorem visit (hvisit : Moment.visit? fs ⟨ix, uri, importPath⟩ = none) :
    Moment.visit? fs ⟨ix', uri, importPath⟩ = none := by
  refine Option.eq_none_iff_forall_ne_some.2 fun source hsource => ?_
  obtain ⟨path, hfile, hunknown, hread⟩ := Moment.visit?_eq_some.1 hsource
  have hearlier : Moment.visit? fs ⟨ix, uri, importPath⟩ = some source :=
    Moment.visit?_eq_some.2 ⟨path, (h.widens.importFile ..).symm.trans hfile,
      fun hk => hunknown (h.widens.knows _ hk), hread⟩
  rw [hvisit] at hearlier
  cases hearlier

/-- An import lists the same file as before: one that cannot be read did not become known. -/
theorem listed (hr : ix.Rooted) (hhere : fs.here.Proper) :
    Moment.listed? fs ⟨ix', uri, importPath⟩ = Moment.listed? fs ⟨ix, uri, importPath⟩ := by
  refine Option.ext fun target => ?_
  rw [Moment.listed?_eq_some, Moment.listed?_eq_some]
  simp only [h.widens.importFile]
  refine exists_congr fun path => and_congr_right fun hfile => ⟨?_, ?_⟩
  · rintro (hread | hknown)
    · exact .inl hread
    rcases h.found target hknown with hknown | ⟨text, hfinds⟩
    · exact .inr hknown
    -- the file was read by another path, so it can be read by this one
    obtain ⟨_, _, path', hfile', hread'⟩ := hfinds
    obtain ⟨hresolve, hisFile, huri⟩ := importFile_some hfile
    obtain ⟨hresolve', hisFile', huri'⟩ := importFile_some hfile'
    have hsame := FileSystem.readText_eq hhere (hr.resolveImport hresolve)
      (hr.resolveImport hresolve') hisFile hisFile' huri huri'
    exact .inl ⟨text, hsame.trans hread'⟩
  · exact Or.imp_right (h.widens.knows target)

end Looks

end Later

/-! ### A walk repeated at its end -/

theorem Walk.later (h : Walk fs uri paths ix targets log depth out) : Later fs ix out.1 := by
  refine ⟨h.extends.widens, fun k hk => ?_⟩
  rcases hk with hk | hk
  · rcases h.indexed_cases hk with hk | ⟨file, hfile, rfl⟩
    · exact .inl (.inl hk)
    obtain ⟨m, hm, hvisit⟩ := List.mem_filterMap.1 hfile
    obtain ⟨path, hpath, -, hread⟩ := Moment.visit?_eq_some.1 hvisit
    exact .inr ⟨file.text, (h.widens m hm).finds ⟨m.importPath, m.uri, path, hpath, hread⟩⟩
  · rw [h.extends.active] at hk
    exact .inl (.inr hk)

/-- A file that was entered and left is listed from then on, and not entered again. -/
theorem loadImport_entered {ix₁ : Index} (loader : Loader) (hext : Widens ix ix₁)
    (hvisit : Moment.visit? fs ⟨ix, uri, importPath⟩ = some source)
    (hknown : ix₁.Knows source.uri) :
    loadImport fs loader ix₁ importPath uri = (ix₁, .ok (some source.uri)) := by
  obtain ⟨path, hfile, -, -⟩ := Moment.visit?_eq_some.1 hvisit
  have hfile₁ : ix₁.importFile fs importPath uri = .ok (some (path, source.uri)) :=
    (hext.importFile ..).trans hfile
  simp only [loadImport, hfile₁, contains_eq_knows, hknown, decide_true, ↓reduceIte]

theorem knows_of_conclude {extraction : Extraction}
    (hend : conclude source out = (ix', .ok extraction)) : ix'.Knows source.uri := by
  obtain ⟨_, -, htable, -⟩ := conclude_holds (congrArg Prod.snd hend)
  rw [hend] at htable
  exact .inl (by rw [htable]; simp)

theorem Walk.later_entered {r : Except IndexFault Extraction}
    (hvisit : Moment.visit? fs ⟨ix, uri, importPath⟩ = some source)
    (h : Walk fs source.uri source.importPaths (ix.activate source.uri) [] log depth out)
    (hend : conclude source out = (ix', r)) : Later fs ix ix' := by
  obtain ⟨path, hfile, -, hread⟩ := Moment.visit?_eq_some.1 hvisit
  have hext := h.extends_entered hvisit hend
  refine ⟨hext.widens, fun k hk => ?_⟩
  by_cases hself : k = source.uri
  · subst hself
    exact .inr ⟨source.text, importPath, uri, path, hfile, hread⟩
  rcases hk with hk | hk
  · rcases indexed_of_conclude hend hk with heq | hk
    · exact absurd heq.symm hself
    rcases h.later.found k (.inl hk) with hk | ⟨text, hfinds⟩
    · exact .inl (hk.imp_right fun hmem => (List.mem_cons.1 hmem).resolve_left hself)
    · exact .inr ⟨text, (Widens.activate ix source.uri).finds hfinds⟩
  · rw [hext.active] at hk
    exact .inl (.inr hk)

/-- Imports that were followed to the end are passed over later, and list the same files. -/
theorem Walk.again_done (h : Walk fs uri paths ix targets log depth out) (loader : Loader)
    (hok : out.2 = .ok found) (hlater : Later fs out.1 ix') (hr : ix.Rooted)
    (hhere : fs.here.Proper) :
    loadImports fs loader uri targets paths ix' = (ix', .ok found) := by
  induction h with
  | done => rw [loadImports, Except.ok.inj hok]
  | fault => cases hok
  | passed hfile hvisit hrest ih =>
    have hafter := hrest.later.trans hlater
    rw [loadImports_cons_ok (loadImport_passed loader
      ((hafter.widens.importFile ..).trans hfile) (hafter.visit hvisit)), hafter.listed hr hhere]
    exact ih hok hlater hr
  | entered hvisit hinner hend hrest _ ihrest =>
    have hentered := hinner.later_entered hvisit hend
    have hafter := hrest.later.trans hlater
    have hknown := hafter.widens.knows _ (knows_of_conclude hend)
    rw [loadImports_cons_ok (loadImport_entered loader (hentered.trans hafter).widens hvisit
      hknown)]
    exact ihrest hok hlater (.of_widens hentered.widens hr)
  | abandoned => cases hok

theorem activate_deactivate {active : List String} (h : ix.active = uri :: active) :
    (ix.deactivate uri).activate uri = ix := by
  cases ix
  cases h
  simp [deactivate, activate]

/-- Imports that led to a failure lead there again. -/
theorem Walk.again_failed (h : Walk fs uri paths ix targets log depth out) {fault : IndexFault}
    {fuel : Nat} (hfail : out.2 = .error fault) (hfuel : depth ≤ fuel) (hr : ix.Rooted)
    (hhere : fs.here.Proper) :
    loadImports fs (load fs fuel) uri targets paths out.1 = (out.1, .error fault) := by
  induction h generalizing fuel fault with
  | done => cases hfail
  | fault hfile =>
    cases hfail
    exact loadImports_cons_error (loadImport_fault _ hfile)
  | passed hfile hvisit hrest ih =>
    have hafter := hrest.later
    rw [loadImports_cons_ok (loadImport_passed _
      ((hafter.widens.importFile ..).trans hfile) (hafter.visit hvisit)), hafter.listed hr hhere]
    exact ih hfail hfuel hr
  | entered hvisit hinner hend hrest _ ihrest =>
    have hentered := hinner.later_entered hvisit hend
    have hknown := hrest.later.widens.knows _ (knows_of_conclude hend)
    rw [loadImports_cons_ok (loadImport_entered _ (hentered.trans hrest.later).widens hvisit
      hknown)]
    exact ihrest hfail (by omega) (.of_widens hentered.widens hr)
  | @abandoned uri importPath _ _ ix ix' _ depth source _ inner hvisit hinner hend ihinner =>
    cases hfail
    obtain ⟨fuel, rfl⟩ : ∃ n, fuel = n + 1 := ⟨fuel - 1, by omega⟩
    obtain ⟨path, hfile, hunknown, hread⟩ := Moment.visit?_eq_some.1 hvisit
    have hext := hinner.extends_entered hvisit hend
    rcases inner with ⟨mid, fault' | _⟩
    · cases hend
      have hactive : mid.active = source.uri :: ix.active := hinner.extends.active
      have hsame := hinner.extends.same source.uri (.inr List.mem_cons_self)
      -- the file that was given up has no table, so it is entered once more
      have hunknown' : ¬ (mid.deactivate source.uri).Knows source.uri := by
        intro hk
        refine hunknown (hk.imp (fun htable => ?_) fun hmem => hext.active ▸ hmem)
        rw [← show mid.tables.get? source.uri = ix.tables.get? source.uri from hsame.table]
        exact htable
      have hvisit' : Moment.visit? fs ⟨mid.deactivate source.uri, uri, importPath⟩ = some source :=
        Moment.visit?_eq_some.2
          ⟨path, (importFile_congr hext.root hext.layout ..).trans hfile, hunknown', hread⟩
      have hload := loadImport_visited (load fs (fuel + 1)) hvisit'
      rw [load_succ, activate_deactivate hactive,
        ihinner rfl (by omega) (.of_widens (.activate ix source.uri) hr), conclude] at hload
      exact loadImports_cons_error hload
    · cases hend

/-! ### The second call -/

/-- A file that is under way is known before it has its table. -/
theorem knows_record {k : String} (hactive : uri ∈ ix.active) :
    (ix.record uri text targets).1.Knows k ↔ ix.Knows k := by
  by_cases hself : k = uri
  · subst hself
    exact iff_of_true (.inr hactive) (.inr hactive)
  · have hsame : SameAt k ix (ix.record uri text targets).1 := record_sameAt targets hself
    rw [Knows, hsame.table]
    rfl

/-- Recording a file once more changes nothing. -/
theorem record_again (h : ix.Consistent) (hne : uri ≠ Builtin.uri) (hnodup : targets.Nodup) :
    (ix.record uri text targets).1.record uri text targets = ix.record uri text targets := by
  have halike : Alike uri ix (ix.record uri text targets).1 :=
    ⟨rfl, rfl, rfl, by simp only [record, OrderedMap.erase_put_self],
      by simp only [record, OrderedMap.erase_put_self]⟩
  have hextraction := halike.record_extraction h (h.record hne hnodup) hne text targets
  have himports : (ix.record uri text targets).1.imports.put uri targets =
      (ix.record uri text targets).1.imports :=
    OrderedMap.put_eq_self_iff.2 (by rw [record, OrderedMap.get?_put, if_pos rfl])
  have htables : (ix.record uri text targets).1.tables.put uri
      (ix.record uri text targets).2.table = (ix.record uri text targets).1.tables :=
    OrderedMap.put_eq_self_iff.2 (get?_record targets)
  refine Prod.ext ?_ hextraction
  calc ((ix.record uri text targets).1.record uri text targets).1
      = { (ix.record uri text targets).1 with
          imports := (ix.record uri text targets).1.imports.put uri targets
          tables := (ix.record uri text targets).1.tables.put uri
            ((ix.record uri text targets).1.record uri text targets).2.table } := rfl
    _ = (ix.record uri text targets).1 := by rw [hextraction, himports, htables]

/-- Indexing a text a second time, over the same files, returns the same extraction or fails for the
same reason, and leaves the index exactly as it is: every table, every list of imports and the order
of the files. -/
theorem indexDocument_again (h : ix.Idle) (hr : ix.Rooted) (hhere : fs.here.Proper)
    (uri text : String) :
    (ix.indexDocument fs uri text).1.indexDocument fs uri text = ix.indexDocument fs uri text := by
  by_cases hne : uri = Builtin.uri
  · simp [indexDocument, hne]
  let source : SourceText := ⟨uri, text⟩
  have hrun : ∀ ix : Index, ix.indexDocument fs uri text =
      conclude source (loadImports fs (load fs fs.entries.length) uri [] source.importPaths
        (ix.activate uri)) := by
    intro ix
    rw [indexDocument, if_neg hne]
    exact load_succ fs fs.entries.length ix source
  have hr' : (ix.activate uri).Rooted := .of_widens (.activate ix uri) hr
  have hroom : vacancies fs (ix.activate uri).active ≤ fs.entries.length := List.countP_le_length
  obtain ⟨log, depth, hwalk⟩ : ∃ log depth, Walk fs uri source.importPaths (ix.activate uri) [] log
      depth (loadImports fs (load fs fs.entries.length) uri [] source.importPaths
        (ix.activate uri)) :=
    loadImports_walk (fun {_ _} => load_traversal _) hr' hroom
  have hactive := hwalk.extends.active
  rw [hrun ix, hrun]
  rcases hfollowed : loadImports fs (load fs fs.entries.length) uri [] source.importPaths
    (ix.activate uri) with ⟨mid, fault | found⟩ <;> rw [hfollowed] at hwalk hactive
  · obtain ⟨chain, rfl, hchain⟩ := hwalk.chain hr'
    have hfuel : chain.length ≤ fs.entries.length :=
      Nat.le_trans hchain.length_le fs.length_files_le
    rw [conclude, activate_deactivate hactive, hwalk.again_failed rfl hfuel hr' hhere, conclude]
  · have hself : uri ∈ mid.active := hactive ▸ List.mem_cons_self
    have hlater : Later fs mid (mid.record uri text found).1 :=
      ⟨⟨rfl, rfl, fun _ => (knows_record hself).2⟩, fun _ hk => .inl ((knows_record hself).1 hk)⟩
    have hconsistent : mid.Consistent :=
      hwalk.extends.consistent (h.consistent.activate uri)
    have hnodup : found.Nodup := loadImports_nodup List.nodup_nil (congrArg Prod.snd hfollowed)
    have hactive' : (mid.record uri text found).1.active = uri :: ix.active := hactive
    rw [conclude, activate_deactivate hactive',
      hwalk.again_done _ rfl hlater hr' hhere, conclude, record_again hconsistent hne hnodup]

/-- A document is indexed anew with an import of a file that imports it back and is typed by what
the document declared before. Another new text has an import that fails two files down. -/
theorem indexDocument_again_cyclic :
    let fs := (({} : FileSystem).install ["ws", "a.bn"] (.file (Text.Utf8.encode
      "import \"main\"\nvar x = f()".toList))).install ["ws", "b.bn"] (.file (Text.Utf8.encode
      "import \"/\"".toList))
    let main := "file:///ws/main.bn"
    let ix := ({} : Index).after [.document fs main "fun f(): int \x7b"]
    let good := "import \"a\"\nvar y = f()"
    let bad := "import \"b\""
    ix.Idle ∧ ix.Rooted ∧ fs.here.Proper ∧
      (ix.indexDocument fs main good).2.isOk = true ∧
      (ix.indexDocument fs main good).1.uris = [main, "file:///ws/a.bn"] ∧
      (ix.indexDocument fs main good).1.indexDocument fs main good =
        ix.indexDocument fs main good ∧
      (ix.indexDocument fs main bad).2.isOk = false ∧
      (ix.indexDocument fs main bad).1.indexDocument fs main bad =
        ix.indexDocument fs main bad := by
  intro fs main ix good bad
  have hnew : ({} : Index).Idle := ⟨rfl, .of_empty rfl rfl⟩
  have hidle : ix.Idle := hnew.after _
  have hr : ix.Rooted := by
    have hroot : ix.root = none := by decide +kernel
    intro root hmem
    rw [hroot] at hmem
    cases hmem
  have hhere : fs.here.Proper := nofun
  exact ⟨hidle, hr, hhere, by decide +kernel, by decide +kernel,
    indexDocument_again hidle hr hhere main good, by decide +kernel,
    indexDocument_again hidle hr hhere main bad⟩

end Index

end BurnLens
