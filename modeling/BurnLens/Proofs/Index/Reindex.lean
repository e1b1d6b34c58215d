import BurnLens.Proofs.Index.Walk
import BurnLens.Proofs.Symbol.Lookup

/-!
# Indexing a file anew

While a file is indexed anew its old table is still in the index. The file itself does not ask it,
but files drawn in on the way do: they may import the file and type their variables by its old
functions. Nothing of that comes back. Two indexes that differ in one file only stay `Alike` while
that file is under way: the same files are drawn in, and their tables differ at most in the types of
variables, which no lookup of a function sees (`externalFunction_eq`). So the new table, its
findings and its list are the same whatever was known of the file before:
`indexDocument_independent`.
-/

namespace BurnLens

namespace OrderedMap
variable {α β : Type}

theorem filter_store_self (key : String) (value : α) (es : List (String × α)) :
    (store key value es).filter (fun e => e.1 ≠ key) = es.filter fun e => e.1 ≠ key := by
  induction es with
  | nil => simp [store]
  | cons e es ih =>
    obtain ⟨k, v⟩ := e
    by_cases h : k = key
    · simp [store, h]
    · rw [store, if_neg h, List.filter_cons_of_pos (by simpa using h), ih,
        List.filter_cons_of_pos (by simpa using h)]

theorem filter_store_of_ne {key k : String} (hne : k ≠ key) (value : α) (es : List (String × α)) :
    (store k value es).filter (fun e => e.1 ≠ key) =
      store k value (es.filter fun e => e.1 ≠ key) := by
  induction es with
  | nil => simp [store, hne]
  | cons e es ih =>
    obtain ⟨a, v⟩ := e
    by_cases hk : a = k
    · subst hk
      simp [store, hne]
    · rw [store, if_neg hk]
      by_cases hkey : a = key
      · rw [List.filter_cons_of_neg (by simpa using hkey), ih,
          List.filter_cons_of_neg (by simpa using hkey)]
      · rw [List.filter_cons_of_pos (by simpa using hkey), ih,
          List.filter_cons_of_pos (by simpa using hkey), store, if_neg hk]

theorem erase_put_self (m : OrderedMap α) (key : String) (value : α) :
    (m.put key value).erase key = m.erase key :=
  congrArg mk (filter_store_self key value m.entries)

theorem erase_put_of_ne {key k : String} (hne : k ≠ key) (m : OrderedMap α) (value : α) :
    (m.put k value).erase key = (m.erase key).put k value :=
  congrArg mk (filter_store_of_ne hne value m.entries)

theorem get?_mapValues (f : α → β) (m : OrderedMap α) (key : String) :
    (m.mapValues f).get? key = (m.get? key).map f := by
  obtain ⟨es⟩ := m
  simp only [mapValues, get?]
  induction es with
  | nil => rfl
  | cons e es ih =>
    by_cases h : e.1 = key
    · simp [lookup, h]
    · simp only [List.map_cons, lookup, h, ↓reduceIte, ih]

theorem keys_mapValues (f : α → β) (m : OrderedMap α) : (m.mapValues f).keys = m.keys := by
  simp [mapValues, keys]

end OrderedMap

namespace Index
variable {ix ix₁ ix₂ : Index} {fs : FileSystem} {uri k text importPath : String}
  {source : SourceText}

/-! ### What a file sees of the others -/

/-- The tables that stand in for the functions of other files, in the order in which they are
asked. -/
def outsideTables (tables : OrderedMap SymbolTable) (imported : List String) : List SymbolTable :=
  Builtin.table :: (imported.filterMap tables.get? ++
    (tables.entries.filter fun e => e.1 ∉ imported).map (·.2))

/-- A file does not ask its own table. -/
theorem externalFunction_eq (howned : ∀ e ∈ ix.tables.entries, e.2.uri = e.1)
    (hne : uri ≠ Builtin.uri) (name : String) :
    ix.externalFunction uri name =
      (outsideTables (ix.tables.erase uri) ((ix.importsOf uri).filter (· ≠ uri))).findSome?
        (·.functions.get? name) := by
  have hfound : ∀ {k t}, ix.tables.get? k = some t → t.uri = k :=
    fun h => howned _ (OrderedMap.mem_of_get? h)
  have hown : (ix.tables.get? uri).toList.filter (fun t => t.uri ≠ uri) = [] := by
    cases htable : ix.tables.get? uri with
    | none => rfl
    | some t => simp [hfound htable]
  have hbuiltin : [Builtin.table].filter (fun t => t.uri ≠ uri) = [Builtin.table] :=
    List.filter_cons_of_pos (decide_eq_true (Ne.symm hne))
  unfold externalFunction tablesFor outsideTables
  generalize himported : (ix.importsOf uri).filter (· ≠ uri) = imported
  have hother : ∀ k ∈ imported, k ≠ uri := by
    intro k hk
    rw [← himported] at hk
    simpa using (List.mem_filter.1 hk).2
  have hget :
      imported.filterMap (ix.tables.erase uri).get? = imported.filterMap ix.tables.get? := by
    refine List.filterMap_congr fun k hk => ?_
    rw [OrderedMap.get?_erase, if_neg (Ne.symm (hother k hk))]
  have hseen : (imported.filterMap ix.tables.get?).filter (fun t => t.uri ≠ uri) =
      imported.filterMap ix.tables.get? := by
    refine List.filter_eq_self.2 fun t ht => ?_
    obtain ⟨k, hk, htable⟩ := List.mem_filterMap.1 ht
    simpa [hfound htable] using hother k hk
  have hrest : ((ix.tables.entries.filter fun e => e.1 ≠ uri ∧ e.1 ∉ imported).map (·.2)).filter
      (fun t => t.uri ≠ uri) =
        ((ix.tables.erase uri).entries.filter fun e => e.1 ∉ imported).map (·.2) := by
    rw [List.filter_map, List.filter_filter, OrderedMap.erase, List.filter_filter]
    refine congrArg _ (List.filter_congr fun e he => ?_)
    by_cases hself : e.1 = uri <;> simp [howned e he, hself]
  rw [hget, List.filter_append, List.filter_append, List.filter_append, hown, hbuiltin, hseen,
    hrest]
  simp

theorem map_outsideTables (f : SymbolTable → SymbolTable) (tables : OrderedMap SymbolTable)
    (imported : List String) :
    (outsideTables tables imported).map f =
      f Builtin.table :: (imported.filterMap (tables.mapValues f).get? ++
        ((tables.mapValues f).entries.filter fun e => e.1 ∉ imported).map (·.2)) := by
  have hget : (imported.filterMap tables.get?).map f =
      imported.filterMap (tables.mapValues f).get? := by
    rw [List.map_filterMap]
    exact List.filterMap_congr fun k _ => (OrderedMap.get?_mapValues f tables k).symm
  have hrest : ((tables.entries.filter fun e => e.1 ∉ imported).map (·.2)).map f =
      ((tables.mapValues f).entries.filter fun e => e.1 ∉ imported).map (·.2) := by
    rw [OrderedMap.mapValues, List.filter_map, List.map_map, List.map_map]
    rfl
  rw [outsideTables, List.map_cons, List.map_append, hget, hrest]

/-- Functions are found alike in tables that differ only in the types of variables. -/
theorem findSome?_outsideTables {tables₁ tables₂ : OrderedMap SymbolTable}
    (h : tables₂.mapValues SymbolTable.untyped = tables₁.mapValues SymbolTable.untyped)
    (imported : List String) (name : String) :
    (outsideTables tables₂ imported).findSome? (·.functions.get? name) =
      (outsideTables tables₁ imported).findSome? (·.functions.get? name) := by
  have huntyped : ∀ l : List SymbolTable, l.findSome? (·.functions.get? name) =
      (l.map SymbolTable.untyped).findSome? (·.functions.get? name) := by
    intro l
    rw [List.findSome?_map]
    rfl
  have hmap : (outsideTables tables₂ imported).map SymbolTable.untyped =
      (outsideTables tables₁ imported).map SymbolTable.untyped := by
    rw [map_outsideTables, map_outsideTables, h]
  rw [huntyped, hmap, ← huntyped]

/-! ### Indexes that differ in one file -/

/-- The indexes have the same tables and lists, in the same order, of every file but `uri`. -/
structure SameBut (uri : String) (ix₁ ix₂ : Index) : Prop where
  root : ix₂.root = ix₁.root
  layout : ix₂.layout = ix₁.layout
  tables : ix₂.tables.erase uri = ix₁.tables.erase uri
  imports : ix₂.imports.erase uri = ix₁.imports.erase uri

/-- The indexes agree about every file but `uri`, except for the types of variables. -/
structure Alike (uri : String) (ix₁ ix₂ : Index) : Prop where
  root : ix₂.root = ix₁.root
  layout : ix₂.layout = ix₁.layout
  active : ix₂.active = ix₁.active
  tables : (ix₂.tables.erase uri).mapValues SymbolTable.untyped =
    (ix₁.tables.erase uri).mapValues SymbolTable.untyped
  imports : ix₂.imports.erase uri = ix₁.imports.erase uri

namespace Alike

theorem of_sameBut (hactive : ix₂.active = ix₁.active) (h : SameBut uri ix₁ ix₂) :
    Alike uri ix₁ ix₂ :=
  ⟨h.root, h.layout, hactive, by rw [h.tables], h.imports⟩

theorem uris (h : Alike uri ix₁ ix₂) : ix₂.uris.filter (· ≠ uri) = ix₁.uris.filter (· ≠ uri) := by
  have hkeys := congrArg OrderedMap.keys h.tables
  rw [OrderedMap.keys_mapValues, OrderedMap.keys_mapValues, OrderedMap.keys_erase,
    OrderedMap.keys_erase] at hkeys
  exact hkeys

theorem mem_uris_iff (h : Alike uri ix₁ ix₂) (hne : k ≠ uri) : k ∈ ix₂.uris ↔ k ∈ ix₁.uris := by
  have hmem : k ∈ ix₂.uris.filter (· ≠ uri) ↔ k ∈ ix₁.uris.filter (· ≠ uri) := by rw [h.uris]
  simpa [List.mem_filter, hne] using hmem

theorem activate (h : Alike uri ix₁ ix₂) (k : String) :
    Alike uri (ix₁.activate k) (ix₂.activate k) :=
  ⟨h.root, h.layout, by simp [Index.activate, h.active], h.tables, h.imports⟩

theorem deactivate (h : Alike uri ix₁ ix₂) (k : String) :
    Alike uri (ix₁.deactivate k) (ix₂.deactivate k) :=
  ⟨h.root, h.layout, by simp [Index.deactivate, h.active], h.tables, h.imports⟩

/-- A file is recorded alike, whatever its variables are typed by. -/
theorem record (h : Alike uri ix₁ ix₂) (k text : String) (targets : List String) :
    Alike uri (ix₁.record k text targets).1 (ix₂.record k text targets).1 := by
  by_cases hself : k = uri
  · subst hself
    refine ⟨h.root, h.layout, h.active, ?_, ?_⟩
    · simp only [Index.record, OrderedMap.erase_put_self]
      exact h.tables
    · simp only [Index.record, OrderedMap.erase_put_self]
      exact h.imports
  · refine ⟨h.root, h.layout, h.active, ?_, ?_⟩
    · simp only [Index.record, OrderedMap.erase_put_of_ne hself, OrderedMap.mapValues_put, h.tables]
      exact congrArg _ (extract_untyped _ _)
    · simp only [Index.record, OrderedMap.erase_put_of_ne hself, h.imports]

section UnderWay
variable (h : Alike uri ix₁ ix₂) (hactive : uri ∈ ix₁.active)
include h hactive

theorem knows : ix₂.Knows k ↔ ix₁.Knows k := by
  by_cases hself : k = uri
  · subst hself
    exact iff_of_true (.inr (h.active ▸ hactive)) (.inr hactive)
  · rw [Knows, Knows, h.active, ← mem_uris, ← mem_uris, h.mem_uris_iff hself]

theorem visit (fs : FileSystem) (k importPath : String) :
    Moment.visit? fs ⟨ix₂, k, importPath⟩ = Moment.visit? fs ⟨ix₁, k, importPath⟩ := by
  simp only [Moment.visit?, importFile_congr h.root h.layout, h.knows hactive]

theorem listed (fs : FileSystem) (k importPath : String) :
    Moment.listed? fs ⟨ix₂, k, importPath⟩ = Moment.listed? fs ⟨ix₁, k, importPath⟩ := by
  simp only [Moment.listed?, importFile_congr h.root h.layout, h.knows hactive]

end UnderWay

end Alike

/-! ### Two runs side by side -/

/-- Two runs leave the indexes alike, and both return or both fail for the same reason. -/
structure Parallel (uri : String) (out₁ out₂ : Index × Except IndexFault Extraction) : Prop where
  alike : Alike uri out₁.1 out₂.1
  outcome : out₂.2.map (fun _ => ()) = out₁.2.map fun _ => ()

theorem conclude_parallel {out₁ out₂ : Index × Except IndexFault (List String)}
    (h : Alike uri out₁.1 out₂.1) (hresult : out₂.2 = out₁.2) :
    Parallel uri (conclude source out₁) (conclude source out₂) := by
  obtain ⟨mid₁, result⟩ := out₁
  obtain ⟨mid₂, _⟩ := out₂
  cases hresult
  cases result with
  | error fault => exact ⟨h.deactivate source.uri, rfl⟩
  | ok targets =>
    refine ⟨(h.record source.uri source.text targets).deactivate source.uri, ?_⟩
    simp only [conclude, Except.map]

theorem loadImport_alike (fs : FileSystem) (importPath k : String) {loader : Loader}
    (hload : ∀ k text, Parallel uri (loader ix₁ k text) (loader ix₂ k text))
    (h : Alike uri ix₁ ix₂) (hactive : uri ∈ ix₁.active) :
    Alike uri (loadImport fs loader ix₁ importPath k).1 (loadImport fs loader ix₂ importPath k).1 ∧
      (loadImport fs loader ix₂ importPath k).2 = (loadImport fs loader ix₁ importPath k).2 := by
  have hfile₂ := importFile_congr h.root h.layout fs importPath k
  have hvisit₂ := h.visit hactive fs k importPath
  cases hfile : ix₁.importFile fs importPath k with
  | error fault =>
    rw [loadImport_fault _ hfile, loadImport_fault _ (hfile₂.trans hfile)]
    exact ⟨h, rfl⟩
  | ok found =>
    cases hvisit : Moment.visit? fs ⟨ix₁, k, importPath⟩ with
    | none =>
      rw [loadImport_passed _ hfile hvisit,
        loadImport_passed _ (hfile₂.trans hfile) (hvisit₂.trans hvisit), h.listed hactive]
      exact ⟨h, rfl⟩
    | some source =>
      obtain ⟨halike, houtcome⟩ := hload source.uri source.text
      rw [loadImport_visited _ hvisit, loadImport_visited _ (hvisit₂.trans hvisit)]
      refine ⟨halike, ?_⟩
      have hlist : ∀ r : Except IndexFault Extraction, r.map (fun _ => some source.uri) =
          (r.map fun _ => ()).map fun _ => some source.uri := by
        rintro (_ | _) <;> rfl
      rw [hlist, houtcome, ← hlist]

theorem loadImports_alike (fs : FileSystem) (k : String) (targets paths : List String)
    {loader : Loader} (hext : ∀ ix k text, ExtendsBut k ix (loader ix k text).1)
    (hload : ∀ {ix₁ ix₂}, Alike uri ix₁ ix₂ → uri ∈ ix₁.active →
      ∀ k text, Parallel uri (loader ix₁ k text) (loader ix₂ k text))
    (h : Alike uri ix₁ ix₂) (hactive : uri ∈ ix₁.active) :
    Alike uri (loadImports fs loader k targets paths ix₁).1
        (loadImports fs loader k targets paths ix₂).1 ∧
      (loadImports fs loader k targets paths ix₂).2 =
        (loadImports fs loader k targets paths ix₁).2 := by
  induction paths generalizing ix₁ ix₂ targets with
  | nil => exact ⟨h, rfl⟩
  | cons importPath rest ih =>
    obtain ⟨halike, hresult⟩ := loadImport_alike fs importPath k (hload h hactive) h hactive
    have hactive' := (loadImport_extends fs hext ix₁ importPath k).active ▸ hactive
    rcases hstep₁ : loadImport fs loader ix₁ importPath k with ⟨ix₁', result⟩
    rcases hstep₂ : loadImport fs loader ix₂ importPath k with ⟨ix₂', result₂⟩
    rw [hstep₁] at halike hresult hactive'
    rw [hstep₂] at halike hresult
    cases hresult
    cases result with
    | error fault =>
      rw [loadImports_cons_error hstep₁, loadImports_cons_error hstep₂]
      exact ⟨halike, rfl⟩
    | ok target? =>
      rw [loadImports_cons_ok hstep₁, loadImports_cons_ok hstep₂]
      exact ih _ halike hactive'

/-- While one file is under way, the others are indexed alike whatever was known of it. -/
theorem load_parallel (fs : FileSystem) (depth : Nat) (h : Alike uri ix₁ ix₂)
    (hactive : uri ∈ ix₁.active) (k text : String) :
    Parallel uri (load fs depth ix₁ k text) (load fs depth ix₂ k text) := by
  induction depth generalizing ix₁ ix₂ k text with
  | zero =>
    refine ⟨h.record k text [], ?_⟩
    simp only [load, Except.map]
  | succ depth ih =>
    rw [load_succ fs depth ix₁ ⟨k, text⟩, load_succ fs depth ix₂ ⟨k, text⟩]
    obtain ⟨halike, hresult⟩ := loadImports_alike fs k [] (Symbol.importPaths text.toList)
      (load_extendsBut fs depth) ih (h.activate k) (List.mem_cons_of_mem k hactive)
    exact conclude_parallel halike hresult

/-! ### The file itself -/

/-- What is extracted from a text does not depend on the table that its file had before. -/
theorem Alike.record_extraction (h : Alike uri ix₁ ix₂) (h₁ : ix₁.Consistent) (h₂ : ix₂.Consistent)
    (hne : uri ≠ Builtin.uri) (text : String) (targets : List String) :
    (ix₂.record uri text targets).2 = (ix₁.record uri text targets).2 := by
  have hseen : ∀ {ix : Index}, ix.Consistent → ∀ name,
      externalFunction { ix with imports := ix.imports.put uri targets } uri name =
        (outsideTables (ix.tables.erase uri) (targets.filter (· ≠ uri))).findSome?
          (·.functions.get? name) := by
    intro ix hc name
    rw [@externalFunction_eq { ix with imports := ix.imports.put uri targets } uri hc.owned hne,
      importsOf, OrderedMap.get?_put, if_pos rfl]
    rfl
  refine congrArg (extract text uri) (funext fun name => ?_)
  rw [hseen h₁, hseen h₂]
  exact findSome?_outsideTables h.tables _ name

/-- Under the URI of a file the index holds what was extracted from its text. -/
theorem conclude_holds {out : Index × Except IndexFault (List String)} {extraction : Extraction}
    (hok : (conclude source out).2 = .ok extraction) : ∃ targets, out.2 = .ok targets ∧
      (conclude source out).1.tables.get? source.uri = some extraction.table ∧
      (conclude source out).1.imports.get? source.uri = some targets := by
  rcases out with ⟨mid, fault | targets⟩
  · cases hok
  · cases hok
    refine ⟨targets, rfl, ?_, ?_⟩ <;>
      rw [conclude, deactivate, record, OrderedMap.get?_put, if_pos rfl]

theorem conclude_result {out₁ out₂ : Index × Except IndexFault (List String)}
    (h : Alike source.uri out₁.1 out₂.1) (hresult : out₂.2 = out₁.2) (h₁ : out₁.1.Consistent)
    (h₂ : out₂.1.Consistent) (hne : source.uri ≠ Builtin.uri) :
    (conclude source out₂).2 = (conclude source out₁).2 := by
  obtain ⟨mid₁, result⟩ := out₁
  obtain ⟨mid₂, _⟩ := out₂
  cases hresult
  cases result with
  | error fault => rfl
  | ok targets => exact congrArg Except.ok (h.record_extraction h₁ h₂ hne source.text targets)

theorem Consistent.activate (h : ix.Consistent) (uri : String) : (ix.activate uri).Consistent :=
  ⟨h.keys, h.nodup, h.owned, h.unreserved, h.distinct⟩

/-- Two indexes differ only in whether and how one file was indexed before. Indexing it anew gives
the same extraction, or the same fault, for both. They then hold the same table and the same list of
imports for it, and no other file has come to one of them and not to the other. -/
theorem indexDocument_independent (fs : FileSystem) (text : String) (h₁ : ix₁.Idle) (h₂ : ix₂.Idle)
    (h : SameBut uri ix₁ ix₂) :
    (ix₂.indexDocument fs uri text).2 = (ix₁.indexDocument fs uri text).2 ∧
      (∀ extraction, (ix₁.indexDocument fs uri text).2 = .ok extraction →
        (ix₁.indexDocument fs uri text).1.tables.get? uri = some extraction.table ∧
        (ix₁.indexDocument fs uri text).1.imports.get? uri ≠ none ∧
        SameAt uri (ix₁.indexDocument fs uri text).1 (ix₂.indexDocument fs uri text).1) ∧
      ∀ k, k ≠ uri →
        (k ∈ (ix₂.indexDocument fs uri text).1.uris ∧ k ∉ ix₂.uris ↔
          k ∈ (ix₁.indexDocument fs uri text).1.uris ∧ k ∉ ix₁.uris) := by
  have hstart : Alike uri ix₁ ix₂ := .of_sameBut (h₂.active.trans h₁.active.symm) h
  by_cases hne : uri = Builtin.uri
  · simp [indexDocument, hne]
  let source : SourceText := ⟨uri, text⟩
  let follow (ix : Index) := loadImports fs (load fs fs.entries.length) uri [] source.importPaths
    (ix.activate uri)
  have hrun : ∀ ix : Index, ix.indexDocument fs uri text = conclude source (follow ix) := by
    intro ix
    rw [indexDocument, if_neg hne]
    exact load_succ fs fs.entries.length ix source
  have hconsistent : ∀ {ix : Index}, ix.Idle → (follow ix).1.Consistent := fun hidle =>
    (loadImports_extends fs (load_extendsBut fs _) uri [] _ _).consistent
      (hidle.consistent.activate uri)
  -- the file is under way while its imports are followed
  obtain ⟨halike, hfound⟩ : Alike uri (follow ix₁).1 (follow ix₂).1 ∧
      (follow ix₂).2 = (follow ix₁).2 :=
    loadImports_alike fs uri [] source.importPaths (load_extendsBut fs _) (load_parallel fs _)
      (hstart.activate uri) List.mem_cons_self
  have hresult : (conclude source (follow ix₂)).2 = (conclude source (follow ix₁)).2 :=
    conclude_result halike hfound (hconsistent h₁) (hconsistent h₂) hne
  rw [hrun, hrun]
  refine ⟨hresult, fun extraction hok => ?_, fun k hk => ?_⟩
  · obtain ⟨targets₁, hfound₁, htable₁, himports₁⟩ := conclude_holds hok
    obtain ⟨targets₂, hfound₂, htable₂, himports₂⟩ := conclude_holds (hresult.trans hok)
    cases hfound₁.symm.trans (hfound.symm.trans hfound₂)
    refine ⟨htable₁, ?_, htable₂.trans htable₁.symm, himports₂.trans himports₁.symm⟩
    rw [himports₁]
    simp
  · have hend : Alike uri (conclude source (follow ix₁)).1 (conclude source (follow ix₂)).1 :=
      (conclude_parallel halike hfound).alike
    rw [hend.mem_uris_iff hk, hstart.mem_uris_iff hk]

/-- A file drawn in on the way imports the file that is indexed anew, and is typed by the function
that this one had before. The function is gone from the new text, and no type comes from it. -/
theorem indexDocument_independent_cyclic :
    let fs := ({} : FileSystem).install ["ws", "a.bn"] (.file (Text.Utf8.encode
      "import \"main\"\nvar x = f()".toList))
    let main := "file:///ws/main.bn"
    let old := ({} : Index).after [.document fs main "fun f(): int \x7b"]
    let text := "import \"a\"\nvar y = f()"
    let anew (ix : Index) := ix.indexDocument fs main text
    old.Idle ∧ SameBut main {} old ∧
      (anew old).1.variableType "x" "file:///ws/a.bn" = some "int" ∧
      (anew {}).1.variableType "x" "file:///ws/a.bn" = some "" ∧
      (anew old).2 = (anew {}).2 ∧ (anew {}).2.isOk = true := by
  intro fs main old text anew
  have hnew : ({} : Index).Idle := ⟨rfl, .of_empty rfl rfl⟩
  have hold : old.Idle := hnew.after _
  have hsame : SameBut main {} old :=
    ⟨by decide +kernel, by decide +kernel, by decide +kernel, by decide +kernel⟩
  exact ⟨hold, hsame, by decide +kernel, by decide +kernel,
    (indexDocument_independent fs text hnew hold hsame).1, by decide +kernel⟩

end Index

end BurnLens
