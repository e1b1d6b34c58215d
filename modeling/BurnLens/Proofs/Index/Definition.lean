import BurnLens.Proofs.Index.Visible
import BurnLens.Proofs.Symbol.Agreement

/-!
# Where a name is declared

A name has a place if some file declares it, and predeclared names have none. Both questions, for
the function and for its place, go through the same tiers, but the second one goes past the
predeclared table instead of ending there. So for a name that is only ever a function the answers
belong together unless the function that is found is a predeclared one and a file declares the name
as well, which the file that asks does not: then the place is that of another function
(`definition_agrees_iff`).

Every table of an index was extracted from some text (`after_extracted`), so each of its functions
knows its file and its range.
-/

namespace BurnLens

/-- The place of a function; predeclared functions have none. -/
def Signature.location? (s : Signature) : Option Location :=
  s.uri.bind fun uri => s.range.map fun range => ⟨uri, range⟩

theorem location?_of_extract {text uri name : String} {lookup : FunctionLookup} {s : Signature}
    (h : (extract text uri lookup).table.functions.get? name = some s) :
    s.location? = s.range.map (⟨uri, ·⟩) ∧ s.range ≠ none := by
  obtain ⟨hit, -, rfl⟩ := List.mem_map.1 (Symbol.mem_of_get?_byName h)
  exact ⟨rfl, nofun⟩

theorem Builtin.location?_eq_none {name : String} {s : Signature}
    (h : table.functions.get? name = some s) : s.location? = none := by
  have hall : ∀ s ∈ functions, s.location? = none := by
    simp [functions, function, Signature.location?]
  obtain ⟨s', hs, heq⟩ := List.mem_map.1 (OrderedMap.mem_of_mem_ofList (OrderedMap.mem_of_get? h))
  cases heq
  exact hall s hs

namespace Index
variable {ix : Index} {fs : FileSystem} {uri text name : String}

/-! ### Every table was extracted -/

section Induction
variable {P : Index → Prop}
  (hrecord : ∀ ix uri text targets, P ix → P (ix.record uri text targets).1)
  (hactive : ∀ ix active, P ix → P { ix with active })
include hrecord hactive

/-- What every write keeps, indexing a file keeps, to the end or not. -/
theorem load_induction (depth : Nat) (h : P ix) : P (load fs depth ix uri text).1 := by
  induction depth generalizing ix uri text with
  | zero => exact hrecord ix uri text [] h
  | succ depth ih =>
    have himport : ∀ ix importPath fromUri, P ix →
        P (loadImport fs (load fs depth) ix importPath fromUri).1 := by
      intro ix importPath fromUri h
      rcases loadImport_case fs (load fs depth) ix importPath fromUri with
        ⟨_, _, heq⟩ | ⟨_, heq⟩ | ⟨_, _, _, _, heq⟩ | ⟨_, _, _, _, heq⟩ |
          ⟨_, _, _, _, _, _, _, heq⟩ <;>
        rw [heq]
      iterate 4 exact h
      exact ih h
    have himports : ∀ paths ix targets, P ix →
        P (loadImports fs (load fs depth) uri targets paths ix).1 := by
      intro paths
      induction paths with
      | nil => exact fun ix targets h => h
      | cons path rest ihrest =>
        intro ix targets h
        have hstep := himport ix path uri h
        unfold loadImports
        split <;> rename_i heq <;> rw [heq] at hstep
        · exact hstep
        · exact ihrest _ targets hstep
        · exact ihrest _ _ hstep
    have hlisted : P (loadImports fs (load fs depth) uri [] (Symbol.importPaths text.toList)
        (ix.activate uri)).1 := himports _ _ _ (hactive ix (uri :: ix.active) h)
    unfold load
    split <;> rename_i heq <;> rw [heq] at hlisted
    · exact hactive _ _ hlisted
    · exact hactive _ _ (hrecord _ uri text _ hlisted)

end Induction

/-- Every table is that of some text. -/
def Extracted (ix : Index) : Prop :=
  ∀ k t, ix.tables.get? k = some t → ∃ text lookup, t = (extract text k lookup).table

theorem Extracted.load (h : ix.Extracted) (depth : Nat) :
    (load fs depth ix uri text).1.Extracted := by
  refine load_induction ?_ (fun _ _ h => h) depth h
  intro ix uri text targets h k t ht
  rw [record, OrderedMap.get?_put] at ht
  split at ht
  · rename_i heq
    subst heq
    cases ht
    exact ⟨text, _, rfl⟩
  · exact h k t ht

theorem Extracted.perform (h : ix.Extracted) (call : Call) : (ix.perform call).1.Extracted := by
  rcases perform_case ix call with heq | ⟨fs, uri, text, -, -, heq⟩ | ⟨uri, heq⟩ | heq <;> rw [heq]
  · exact h
  · exact h.load (chainBound fs)
  · intro k t ht
    rw [remove, OrderedMap.get?_erase] at ht
    split at ht
    · cases ht
    · exact h k t ht
  · intro k t ht
    cases ht

theorem after_extracted {root : Option Path} {layout : Layout}
    (hnew : create fs root layout = .ok ix) (calls : List Call) : (ix.after calls).Extracted := by
  have hempty : ix.Extracted := by
    obtain ⟨place, -, heq⟩ := bind_eq_ok.1 hnew
    cases heq
    intro k t ht
    cases ht
  clear hnew
  induction calls generalizing ix with
  | nil => exact hempty
  | cons call rest ih => exact ih (hempty.perform call)

/-! ### The place of a function -/

/-- No file declares the name but as a function. -/
def OnlyFunction (ix : Index) (name : String) : Prop :=
  ∀ t ∈ ix.tables.values, name ∉ t.vars.keys ∧ name ∉ t.types.keys ∧ name ∉ t.classes.keys

instance (ix : Index) (name : String) : Decidable (ix.OnlyFunction name) :=
  inferInstanceAs (Decidable (∀ t ∈ ix.tables.values, _))

theorem OnlyFunction.location?_eq {t : SymbolTable} (h : ix.OnlyFunction name)
    (ht : t ∈ ix.tables.values) : t.location? name =
      ((t.functions.get? name).bind (·.range)).map (⟨t.uri, ·⟩) := by
  obtain ⟨hvars, htypes, hclasses⟩ := h t ht
  simp only [SymbolTable.location?, OrderedMap.get?_eq_none_iff.2 hvars,
    OrderedMap.get?_eq_none_iff.2 htypes, OrderedMap.get?_eq_none_iff.2 hclasses]
  cases (t.functions.get? name).bind (·.range) <;> rfl

section Lookup
variable (hc : ix.Consistent)
include hc

theorem Consistent.function_own {s : Signature}
    (hs : (ix.tables.get? uri).bind (·.functions.get? name) = some s) :
    ix.function name uri = some s := by
  rw [function, hc.lookup_eq, hs, Option.some_or]

theorem Consistent.function_predeclared {s : Signature}
    (hown : (ix.tables.get? uri).bind (·.functions.get? name) = none)
    (hs : Builtin.table.functions.get? name = some s) : ix.function name uri = some s := by
  rw [function, hc.lookup_eq, hown, hs, Option.none_or, Option.some_or]

theorem Consistent.ne_reserved {t : SymbolTable} (ht : t ∈ ix.tables.values) :
    t.uri ≠ Builtin.uri := by
  obtain ⟨k, hk⟩ := (OrderedMap.mem_values_iff hc.nodup).1 ht
  rintro heq
  have hkey : k ∈ ix.tables.keys := OrderedMap.mem_keys_iff.2 (by simp [hk])
  rw [← hc.uri_of_get? hk, heq] at hkey
  exact hc.unreserved hkey

/-- Without the predeclared table a file sees what it sees with nothing in its place. -/
theorem Consistent.filter_tablesFor (uri : String) :
    (ix.tablesFor uri).filter (·.uri ≠ Builtin.uri) = ix.tiers uri [] := by
  have hfiles : ∀ t ∈ ix.tiers uri [], decide (t.uri ≠ Builtin.uri) = true := by
    intro t ht
    rcases hc.mem_tiers.1 ht with ht | ht
    · cases ht
    · exact decide_eq_true (hc.ne_reserved ht)
  have hsplit : ix.tablesFor uri = (ix.tables.get? uri).toList ++ (Builtin.table ::
      ((ix.importsSeen uri).filterMap ix.tables.get? ++
        (ix.tables.entries.filter fun e => e.1 ≠ uri ∧ e.1 ∉ ix.importsSeen uri).map (·.2))) :=
    tablesFor_eq ix uri
  rw [tiers, List.nil_append] at hfiles ⊢
  rw [hsplit, List.filter_append, List.filter_cons_of_neg (by simp [Builtin.table]),
    ← List.filter_append]
  exact List.filter_eq_self.2 hfiles

variable (hx : ix.Extracted)
include hx

theorem Consistent.located {t : SymbolTable} {s : Signature} (ht : t ∈ ix.tables.values)
    (hs : t.functions.get? name = some s) :
    s.location? = s.range.map (⟨t.uri, ·⟩) ∧ s.range ≠ none := by
  obtain ⟨k, hk⟩ := (OrderedMap.mem_values_iff hc.nodup).1 ht
  obtain ⟨text, lookup, rfl⟩ := hx k t hk
  exact location?_of_extract hs

/-- The place of a name is that of the first function that a file declares. -/
theorem Consistent.definition_eq (hname : ix.OnlyFunction name) :
    ix.definition name uri =
      ((ix.tiers uri []).findSome? (·.functions.get? name)).bind Signature.location? := by
  have hfile : ∀ t ∈ ix.tiers uri [], t ∈ ix.tables.values := fun t ht =>
    (hc.mem_tiers.1 ht).resolve_left List.not_mem_nil
  rw [definition, hc.filter_tablesFor, ← findSome?_bind]
  · refine findSome?_congr fun t ht => ?_
    rw [hname.location?_eq (hfile t ht)]
    rcases hs : t.functions.get? name with _ | s
    · rfl
    · exact (hc.located hx (hfile t ht) hs).1.symm
  · intro t ht s hs
    obtain ⟨hlocation, hrange⟩ := hc.located hx (hfile t ht) hs
    rw [hlocation, ne_eq, Option.map_eq_none_iff]
    exact hrange

theorem Consistent.definition_eq_none_iff (uri : String) (hname : ix.OnlyFunction name) :
    ix.definition name uri = none ↔ ∀ t ∈ ix.tables.values, name ∉ t.functions.keys := by
  have hfound : (ix.tiers uri []).findSome? (·.functions.get? name) = none ↔
      ∀ t ∈ ix.tables.values, name ∉ t.functions.keys := by
    simp only [List.findSome?_eq_none_iff, hc.mem_tiers, List.not_mem_nil, false_or,
      OrderedMap.get?_eq_none_iff]
  rw [hc.definition_eq hx hname, ← hfound]
  refine ⟨fun hplace => ?_, fun hsilent => by rw [hsilent, Option.bind_none]⟩
  refine Option.eq_none_iff_forall_ne_some.2 fun s hs => ?_
  obtain ⟨t, ht, hdeclared⟩ := List.exists_of_findSome?_eq_some hs
  have ht : t ∈ ix.tables.values := (hc.mem_tiers.1 ht).resolve_left List.not_mem_nil
  obtain ⟨hlocation, hrange⟩ := hc.located hx ht hdeclared
  rw [hs, Option.bind_some, hlocation, Option.map_eq_none_iff] at hplace
  exact hrange hplace

theorem Consistent.location?_eq_none_iff {s : Signature} (hs : ix.function name uri = some s) :
    s.location? = none ↔ Builtin.table.functions.get? name = some s := by
  refine ⟨fun hnone => ?_, Builtin.location?_eq_none⟩
  obtain ⟨t, ht, hs⟩ := List.exists_of_findSome?_eq_some hs
  rcases List.mem_cons.1 (hc.mem_tablesFor.1 ht) with rfl | ht
  · exact hs
  · obtain ⟨hlocation, hrange⟩ := hc.located hx ht hs
    rw [hlocation, Option.map_eq_none_iff] at hnone
    exact absurd hnone hrange

end Lookup

/-- After any calls on a new index, for a name that files declare only as a function: its place is
that of the first function that a file declares, the predeclared one being left out. It is the place
of the function that a question about the name finds, and none if that one is predeclared, unless
there is a predeclared function of the name, the file that asks declares none, and another does. -/
theorem definition_agrees_iff {root : Option Path} {layout : Layout}
    (hnew : create fs root layout = .ok ix) (calls : List Call) (uri : String)
    (hname : (ix.after calls).OnlyFunction name) :
    let ix := ix.after calls
    (∀ s, ix.function name uri = some s →
      (s.location? = none ↔ Builtin.table.functions.get? name = some s)) ∧
    ix.definition name uri =
      (((ix.tables.get? uri).bind (·.functions.get? name)).or
        (((ix.importsOf uri).findSome? fun target =>
            (ix.tables.get? target).bind (·.functions.get? name)).or
          (ix.tables.values.findSome? (·.functions.get? name)))).bind Signature.location? ∧
    (ix.definition name uri = (ix.function name uri).bind Signature.location? ↔
      (name ∈ Builtin.table.functions.keys →
        (∃ t, ix.tables.get? uri = some t ∧ name ∈ t.functions.keys) ∨
          ∀ t ∈ ix.tables.values, name ∉ t.functions.keys)) := by
  intro ix
  have hc : ix.Consistent := ((create_idle hnew).after calls).consistent
  have hx : ix.Extracted := after_extracted hnew calls
  have hplace : ix.definition name uri =
      (((ix.tables.get? uri).bind (·.functions.get? name)).or
        (((ix.importsOf uri).findSome? fun target =>
            (ix.tables.get? target).bind (·.functions.get? name)).or
          (ix.tables.values.findSome? (·.functions.get? name)))).bind Signature.location? := by
    rw [hc.definition_eq hx hname, hc.findSome?_tiers]
    rfl
  refine ⟨fun s hs => hc.location?_eq_none_iff hx hs, hplace, ?_⟩
  rcases hown : (ix.tables.get? uri).bind (·.functions.get? name) with _ | s
  case some =>
    obtain ⟨t, ht, hs⟩ := Option.bind_eq_some_iff.1 hown
    rw [hplace, hc.function_own hown, hown, Option.some_or]
    exact iff_of_true rfl fun _ => .inl ⟨t, ht, OrderedMap.mem_keys_iff.2 (by simp [hs])⟩
  -- the file itself does not declare the name
  have hsilent : ¬ ∃ t, ix.tables.get? uri = some t ∧ name ∈ t.functions.keys := by
    rintro ⟨t, ht, hs⟩
    rw [ht, Option.bind_some] at hown
    exact OrderedMap.get?_eq_none_iff.1 hown hs
  rcases hbuiltin : Builtin.table.functions.get? name with _ | s
  · have hfunction : ix.function name uri = _ := hc.lookup_eq uri (·.functions.get? name)
    rw [hplace, hfunction, hown, hbuiltin, Option.none_or, Option.none_or]
    exact iff_of_true rfl fun h => absurd h (OrderedMap.get?_eq_none_iff.1 hbuiltin)
  · have hkey : name ∈ Builtin.table.functions.keys :=
      OrderedMap.mem_keys_iff.2 (by simp [hbuiltin])
    rw [hc.function_predeclared hown hbuiltin, Option.bind_some, Builtin.location?_eq_none hbuiltin,
      hc.definition_eq_none_iff hx uri hname, or_iff_right hsilent, forall_prop_of_true hkey]

/-- A file declares a function that is predeclared as well. Another file that asks for the name
finds the predeclared function, but the place is that of the first file. -/
theorem definition_past_predeclared :
    let other := "file:///ws/other.bn"
    let main := "file:///ws/main.bn"
    let ix := ({} : Index).after [.document {} other "fun print(v: int) \x7b\n\x7d"]
    create {} none {} = .ok {} ∧ ix.OnlyFunction "print" ∧
      "print" ∈ Builtin.table.functions.keys ∧
      ix.function "print" main = Builtin.table.functions.get? "print" ∧
      ix.definition "print" main = some ⟨other, ⟨⟨0, 0⟩, ⟨0, 19⟩⟩⟩ := by
  decide +kernel

/-- A file that imports one that declares the name, and one that declares it itself. -/
theorem definition_agrees_iff_own :
    let fs := ({} : FileSystem).install ["ws", "a.bn"] (.file (Text.Utf8.encode
      "\nfun print(v: int) \x7b\n\x7d".toList))
    let main := "file:///ws/main.bn"
    let calls := [Call.document fs main "import \"a\"\nfun print() \x7b\n\x7d"]
    let ix := ({} : Index).after calls
    create fs none {} = .ok {} ∧ ix.OnlyFunction "print" ∧
      ix.definition "print" main = some ⟨main, ⟨⟨1, 0⟩, ⟨1, 13⟩⟩⟩ ∧
      ix.definition "print" main = (ix.function "print" main).bind Signature.location? := by
  intro fs main calls ix
  have hnew : create fs none {} = .ok {} := rfl
  have hname : ix.OnlyFunction "print" := by decide +kernel
  obtain ⟨-, -, hiff⟩ := definition_agrees_iff hnew calls main hname
  refine ⟨hnew, hname, by decide +kernel, hiff.2 fun _ => .inl ?_⟩
  have hown : (ix.tables.get? main).any fun t => "print" ∈ t.functions.keys := by decide +kernel
  simpa [Option.any_eq_true] using hown

end Index

end BurnLens
