import BurnLens.Proofs.Index.Closure

/-!
# Where new files come in

The order in which files came to an index decides which of two declarations of one name is seen, so
indexing a file must not disturb it. `perform_population`: a call leaves every other file that has a
table as it is and every file in its place; behind them come the files that were drawn in, and last
the file of the call, if it is new. A file is drawn in while the one that imports it is still under
way, so it comes before that one; a call that fails keeps what was drawn in until then.
-/

namespace BurnLens.Index
variable {ix ix' ix'' : Index} {fs : FileSystem} {uri text : String}

/-! ### What a call indexes -/

/-- The files that an indexing call looks at. -/
def Call.fs? : Call → Option FileSystem
  | .document fs _ _ => some fs
  | .file fs _ => some fs
  | .remove _ => none
  | .clear => none

/-- The text that a call indexes: none under the reserved URI or when the file cannot be read. -/
def Call.source? : Call → Option SourceText
  | .document _ uri text => if uri = Builtin.uri then none else some ⟨uri, text⟩
  | .file fs path =>
    match fs.readText path, fs.uriOf path with
    | .ok (some text), .ok uri => some ⟨uri, text⟩
    | _, _ => none
  | .remove _ => none
  | .clear => none

theorem perform_of_source {call : Call} {source : SourceText} (ix : Index)
    (hfs : call.fs? = some fs) (hsource : call.source? = some source) :
    source.uri ≠ Builtin.uri ∧
      ix.perform call = ((load fs (chainBound fs) ix source.uri source.text).1,
        (load fs (chainBound fs) ix source.uri source.text).2.map fun _ => ()) := by
  cases call with
  | document fs' uri text =>
    cases hfs
    simp only [Call.source?] at hsource
    split at hsource
    · cases hsource
    next hne =>
      cases hsource
      exact ⟨hne, by simp [perform, indexDocument, hne]⟩
  | file fs' path =>
    cases hfs
    simp only [Call.source?] at hsource
    split at hsource
    next text uri hread huri =>
      cases hsource
      refine ⟨FileSystem.uriOf_ne_reserved huri, ?_⟩
      simp only [perform, indexFile, hread, huri]
      rcases load fs (chainBound fs) ix uri text with ⟨ix', _ | _⟩ <;> rfl
    · cases hsource
  | remove uri => cases hfs
  | clear => cases hfs

theorem perform_of_no_source {call : Call} (ix : Index) (hfs : call.fs? = some fs)
    (hsource : call.source? = none) : (ix.perform call).1 = ix := by
  cases call with
  | document fs' uri text =>
    simp only [Call.source?, ite_eq_left_iff, reduceCtorEq, imp_false, Decidable.not_not]
      at hsource
    simp [perform, indexDocument, hsource]
  | file fs' path =>
    simp only [Call.source?] at hsource
    split at hsource
    · cases hsource
    next hnone =>
      simp only [perform, indexFile]
      split
      · rfl
      · rfl
      · rfl
      next text uri hread huri => exact absurd huri (hnone text uri hread)
  | remove uri => cases hfs
  | clear => cases hfs

theorem mem_uris {k : String} : k ∈ ix.uris ↔ ix.tables.get? k ≠ none := by
  rw [ne_eq, OrderedMap.get?_eq_none_iff, Decidable.not_not]
  rfl

/-! ### What following imports appends -/

/-- `k` is the URI of a file that the imports of `source` lead to, in one step or more. -/
def Brings (ix : Index) (fs : FileSystem) (source : SourceText) (k : String) : Prop :=
  ∃ file, file.uri = k ∧ Relation.TransGen (ix.Draws fs) source file

theorem Brings.unknown {source : SourceText} {k : String} (h : ix.Brings fs source k) :
    ¬ ix.Knows k := by
  obtain ⟨file, rfl, hdraws⟩ := h
  obtain ⟨_, -, _, -, _, -, -, hnew⟩ := Relation.TransGen.tail'_iff.1 hdraws
  exact hnew

theorem Brings.isFile {source : SourceText} {k : String} (h : ix.Brings fs source k) :
    ∃ path, fs.isFile path = .ok true ∧ fs.uriOf path = .ok k := by
  obtain ⟨file, rfl, hdraws⟩ := h
  obtain ⟨_, -, _, -, path, hfile, -⟩ := Relation.TransGen.tail'_iff.1 hdraws
  obtain ⟨-, hisFile, huri⟩ := importFile_some hfile
  exact ⟨path, hisFile, huri⟩

theorem Brings.of_widens {source : SourceText} {k : String} (hwide : Widens ix ix')
    (h : ix'.Brings fs source k) : ix.Brings fs source k := by
  obtain ⟨file, huri, hdraws⟩ := h
  exact ⟨file, huri, hdraws.lift id fun _ _ => hwide.draws⟩

/-- The files of `ix` keep their places in `ix'`, and behind them come files that `source`
brings. -/
def Appends (fs : FileSystem) (source : SourceText) (ix ix' : Index) : Prop :=
  ∃ drawn, ix'.uris = ix.uris ++ drawn ∧ ∀ k ∈ drawn, ix.Brings fs source k

namespace Appends
variable {source : SourceText}

theorem refl (ix : Index) : Appends fs source ix ix := ⟨[], by simp, nofun⟩

theorem trans (hwide : Widens ix ix') (h : Appends fs source ix ix')
    (h' : Appends fs source ix' ix'') : Appends fs source ix ix'' := by
  obtain ⟨drawn, huris, hdrawn⟩ := h
  obtain ⟨drawn', huris', hdrawn'⟩ := h'
  refine ⟨drawn ++ drawn', by rw [huris', huris, List.append_assoc], fun k hk => ?_⟩
  rcases List.mem_append.1 hk with hk | hk
  · exact hdrawn k hk
  · exact (hdrawn' k hk).of_widens hwide

end Appends

/-- What indexing `source` does to the order of files: the imports are followed while the file is
under way, and it comes behind them unless it has its place or is given up. -/
structure Populates (fs : FileSystem) (source : SourceText) (ix : Index)
    (out : Index × Except IndexFault Extraction) (drawn : List String) : Prop where
  brings : ∀ k ∈ drawn, (ix.activate source.uri).Brings fs source k
  last : ∀ extraction, source.uri ∉ ix.uris → out.2 = .ok extraction →
    out.1.uris = ix.uris ++ drawn ++ [source.uri]
  kept : source.uri ∈ ix.uris → out.1.uris = ix.uris ++ drawn
  failed : ∀ fault, out.2 = .error fault → out.1.uris = ix.uris ++ drawn

theorem uris_record (ix : Index) (uri text : String) (targets : List String) :
    (ix.record uri text targets).1.uris = if uri ∈ ix.uris then ix.uris else ix.uris ++ [uri] :=
  OrderedMap.keys_put ix.tables uri _

section Imports
variable {loader : Loader} (hext : ∀ ix uri text, ExtendsBut uri ix (loader ix uri text).1)
  (hload : ∀ ix source, ∃ drawn,
    Populates fs source ix (loader ix source.uri source.text) drawn)
include hload

theorem loadImport_appends {source : SourceText} {importPath : String} (ix : Index)
    (hmem : importPath ∈ source.importPaths) :
    Appends fs source ix (loadImport fs loader ix importPath source.uri).1 := by
  cases loadImport_case fs loader ix importPath source.uri with
  | fault _ _ heq => rw [heq]; exact .refl ix
  | absent _ heq => rw [heq]; exact .refl ix
  | unreadable _ _ _ _ heq => rw [heq]; exact .refl ix
  | known _ _ _ _ heq => rw [heq]; exact .refl ix
  | loaded path target text hfile hnew hidle hread heq =>
    rw [heq]
    have hunknown : ¬ ix.Knows target := by
      rintro (h | h)
      · exact h hnew
      · exact hidle h
    have hdraws : ix.Draws fs source ⟨target, text⟩ :=
      ⟨importPath, hmem, path, hfile, hread, hunknown⟩
    obtain ⟨drawn, hpop⟩ := hload ix ⟨target, text⟩
    -- what the file brings in its turn, the source brings through it
    have hinner : ∀ k ∈ drawn, ix.Brings fs source k := by
      intro k hk
      obtain ⟨file, huri, hreach⟩ := (hpop.brings k hk).of_widens (Widens.activate ix target)
      exact ⟨file, huri, .head hdraws hreach⟩
    cases hresult : (loader ix target text).2 with
    | error fault => exact ⟨drawn, hpop.failed fault hresult, hinner⟩
    | ok extraction =>
      have habsent : target ∉ ix.uris := OrderedMap.get?_eq_none_iff.1 hnew
      refine ⟨drawn ++ [target], ?_, fun k hk => ?_⟩
      · rw [hpop.last extraction habsent hresult, List.append_assoc]
      · rcases List.mem_append.1 hk with hk | hk
        · exact hinner k hk
        · rw [List.mem_singleton.1 hk]
          exact ⟨⟨target, text⟩, rfl, .single hdraws⟩

include hext in
theorem loadImports_appends {source : SourceText} {targets paths : List String} (ix : Index)
    (hpaths : ∀ importPath ∈ paths, importPath ∈ source.importPaths) :
    Appends fs source ix (loadImports fs loader source.uri targets paths ix).1 := by
  induction paths generalizing ix targets with
  | nil => exact .refl ix
  | cons path rest ih =>
    have hwide := (loadImport_extends fs hext ix path source.uri).widens
    have hstep := loadImport_appends hload ix (hpaths path List.mem_cons_self)
    have hrest : ∀ importPath ∈ rest, importPath ∈ source.importPaths :=
      fun importPath hmem => hpaths importPath (List.mem_cons_of_mem _ hmem)
    unfold loadImports
    split <;> rename_i heq <;> rw [heq] at hwide hstep
    · exact hstep
    · exact hstep.trans hwide (ih _ hrest)
    · exact hstep.trans hwide (ih _ hrest)

end Imports

theorem Populates.of_record {source : SourceText} {drawn targets : List String}
    {out : Index × Except IndexFault Extraction} {extraction : Extraction}
    (hbrings : ∀ k ∈ drawn, (ix.activate source.uri).Brings fs source k)
    (huris : ix'.uris = ix.uris ++ drawn)
    (hout : out.1.uris = (ix'.record source.uri source.text targets).1.uris)
    (hok : out.2 = .ok extraction) : Populates fs source ix out drawn := by
  -- the file is under way while its imports are followed, so they do not bring it
  have hself : source.uri ∉ drawn := fun h => (hbrings _ h).unknown (.inr List.mem_cons_self)
  rw [uris_record, huris] at hout
  refine ⟨hbrings, fun _ hnew _ => ?_, fun hold => ?_, fun fault herror => ?_⟩
  · rw [hout, if_neg (by simp [hnew, hself])]
  · rw [hout, if_pos (by simp [hold])]
  · rw [hok] at herror
    cases herror

theorem load_populates (fs : FileSystem) (depth : Nat) (ix : Index) (source : SourceText) :
    ∃ drawn, Populates fs source ix (load fs depth ix source.uri source.text) drawn := by
  induction depth generalizing ix source with
  | zero => exact ⟨[], .of_record nofun (List.append_nil _).symm rfl rfl⟩
  | succ depth ih =>
    have happends : Appends fs source (ix.activate source.uri)
        (loadImports fs (load fs depth) source.uri [] source.importPaths
          (ix.activate source.uri)).1 :=
      loadImports_appends (load_extendsBut fs depth) ih _ fun _ hmem => hmem
    obtain ⟨drawn, huris, hbrings⟩ := happends
    refine ⟨drawn, ?_⟩
    unfold load
    split <;> rename_i heq <;> rw [SourceText.importPaths, heq] at huris
    · exact ⟨hbrings, nofun, fun _ => huris, fun _ _ => huris⟩
    · exact .of_record hbrings huris rfl rfl

/-- A call that indexes nothing leaves the index as it is. One that indexes `source` leaves table
and import list of every other file, and every file in its place. Behind them come the URIs of
existing files that its imports lead to, and last, if it is new and the call returns, its own. -/
theorem perform_population (ix : Index) {call : Call} (hfs : call.fs? = some fs) :
    (call.source? = none → (ix.perform call).1 = ix) ∧
      ∀ source, call.source? = some source →
        (∀ k ∈ ix.uris, k ≠ source.uri → SameAt k ix (ix.perform call).1) ∧
        ∃ drawn, source.uri ∉ drawn ∧
          (∀ k ∈ drawn, (ix.activate source.uri).Brings fs source k ∧
            ∃ path, fs.isFile path = .ok true ∧ fs.uriOf path = .ok k) ∧
          (source.uri ∉ ix.uris → (ix.perform call).2 = .ok () →
            (ix.perform call).1.uris = ix.uris ++ drawn ++ [source.uri]) ∧
          (source.uri ∈ ix.uris ∨ (ix.perform call).2 ≠ .ok () →
            (ix.perform call).1.uris = ix.uris ++ drawn) := by
  refine ⟨perform_of_no_source ix hfs, fun source hsource => ?_⟩
  obtain ⟨-, hperform⟩ := perform_of_source ix hfs hsource
  have hext := load_extendsBut fs (chainBound fs) ix source.uri source.text
  obtain ⟨drawn, hpop⟩ := load_populates fs (chainBound fs) ix source
  rw [hperform]
  refine ⟨fun k hk hne => ?_, drawn, fun h => ?_, fun k hk => ?_, ?_, ?_⟩
  · exact hext.same k hne (.inl (mem_uris.1 hk))
  · exact (hpop.brings _ h).unknown (.inr List.mem_cons_self)
  · exact ⟨hpop.brings k hk, (hpop.brings k hk).isFile⟩
  · intro hnew hok
    cases hresult : (load fs (chainBound fs) ix source.uri source.text).2 with
    | error fault => rw [hresult] at hok; cases hok
    | ok extraction => exact hpop.last extraction hnew hresult
  · rintro (hold | hfail)
    · exact hpop.kept hold
    · cases hresult : (load fs (chainBound fs) ix source.uri source.text).2 with
      | error fault => exact hpop.failed fault hresult
      | ok extraction => rw [hresult] at hfail; exact absurd rfl hfail

/-- A new file is drawn in whose own import has unsaved text: that one keeps its table and its
place. -/
theorem perform_population_unsaved :
    let fs := (({} : FileSystem).install ["ws", "a.bn"] (.file (Text.Utf8.encode
      "import \"main\"".toList))).install ["ws", "b.bn"] (.file (Text.Utf8.encode
      "import \"a\"".toList))
    let main : SourceText := ⟨"file:///ws/main.bn", "import \"b\""⟩
    let ix := ({} : Index).after [.document fs "file:///ws/a.bn" "var x = 1"]
    let call := Call.document fs main.uri main.text
    call.fs? = some fs ∧ call.source? = some main ∧
      SameAt "file:///ws/a.bn" ix (ix.perform call).1 ∧
      (ix.perform call).1.uris = ["file:///ws/a.bn", "file:///ws/b.bn", main.uri] ∧
      (ix.activate main.uri).Brings fs main "file:///ws/b.bn" := by
  intro fs main ix call
  have hfs : call.fs? = some fs := rfl
  have hsource : call.source? = some main := rfl
  have hold : ix.uris = ["file:///ws/a.bn"] := by decide +kernel
  have huris : (ix.perform call).1.uris = ["file:///ws/a.bn", "file:///ws/b.bn", main.uri] := by
    decide +kernel
  have hok : (ix.perform call).2.toOption.isSome = true := by decide +kernel
  obtain ⟨hsame, drawn, -, hbrings, hlast, -⟩ := (perform_population ix hfs).2 main hsource
  refine ⟨hfs, hsource, hsame _ (by simp [hold]) (by decide), huris, (hbrings _ ?_).1⟩
  cases hresult : (ix.perform call).2 with
  | error fault => rw [hresult] at hok; cases hok
  | ok _ =>
    have hnew : main.uri ∉ ix.uris := by rw [hold]; decide
    have hdrawn := hlast hnew hresult
    rw [huris, hold] at hdrawn
    have heq : ["file:///ws/b.bn"] ++ [main.uri] = drawn ++ [main.uri] := (List.cons.inj hdrawn).2
    rw [← List.append_cancel_right heq]
    exact List.mem_singleton_self _

end BurnLens.Index
