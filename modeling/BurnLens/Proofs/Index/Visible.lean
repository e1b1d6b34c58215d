import Mathlib.Data.List.Nodup
import BurnLens.Proofs.Index.Consistent

/-!
# What a file sees

`tablesFor` goes through four tiers that overlap: a file may import itself, an import is also one of
the other files, a list of imports may name files that were removed since, and the file that asks
need not be in the index. For an index whose maps agree the overlaps are taken out just so that
every table comes once (`tablesFor_perm`), and an answer does not depend on how they are taken out
(`lookup_eq`). A listing keeps the first declaration of a name on that walk, as a question about the
name does (`get?_visible`).
-/

namespace BurnLens

namespace OrderedMap
variable {α β : Type}

theorem lookup_append (key : String) (es es' : List (String × α)) :
    lookup key (es ++ es') = (lookup key es).or (lookup key es') := by
  induction es with
  | nil => rfl
  | cons e es ih =>
    obtain ⟨k, v⟩ := e
    rw [List.cons_append, lookup, lookup, ih]
    split <;> rfl

theorem lookup_flatMap (key : String) (f : β → List (String × α)) (bs : List β) :
    lookup key (bs.flatMap f) = bs.findSome? fun b => lookup key (f b) := by
  induction bs with
  | nil => rfl
  | cons b bs ih =>
    rw [List.flatMap_cons, lookup_append, ih, List.findSome?_cons]
    cases lookup key (f b) <;> rfl

theorem get?_putNew (m : OrderedMap α) (key k : String) (value : α) :
    (m.putNew key value).get? k = (m.get? k).or (lookup k [(key, value)]) := by
  unfold putNew contains
  split
  · rename_i hkey
    by_cases hk : key = k
    · subst hk
      obtain ⟨v, hv⟩ := Option.isSome_iff_exists.1 hkey
      rw [hv, Option.some_or]
    · rw [lookup, if_neg hk, lookup, Option.or_none]
  · exact lookup_append k m.entries _

theorem get?_foldl_putNew (es : List (String × α)) (m : OrderedMap α) (k : String) :
    (es.foldl (fun m e => m.putNew e.1 e.2) m).get? k = (m.get? k).or (lookup k es) := by
  induction es generalizing m with
  | nil => exact (Option.or_none).symm
  | cons e es ih =>
    rw [List.foldl_cons, ih, get?_putNew, Option.or_assoc, ← lookup_append, List.singleton_append]

theorem mem_keys_iff {m : OrderedMap α} {key : String} : key ∈ m.keys ↔ m.get? key ≠ none := by
  rw [ne_eq, get?_eq_none_iff, Decidable.not_not]

theorem mem_values_iff {m : OrderedMap α} (hn : m.keys.Nodup) {value : α} :
    value ∈ m.values ↔ ∃ key, m.get? key = some value := by
  constructor
  · intro h
    obtain ⟨⟨k, v⟩, he, rfl⟩ := List.mem_map.1 h
    exact ⟨k, get?_of_mem hn he⟩
  · rintro ⟨key, h⟩
    exact List.mem_map.2 ⟨_, mem_of_get? h, rfl⟩

end OrderedMap

theorem findSome?_filterMap {α β γ : Type} (f : α → Option β) (g : β → Option γ) (l : List α) :
    (l.filterMap f).findSome? g = l.findSome? fun a => (f a).bind g := by
  induction l with
  | nil => rfl
  | cons a l ih =>
    rw [List.findSome?_cons, List.filterMap_cons]
    rcases f a with _ | b
    · exact ih
    · rw [List.findSome?_cons, ih]
      rfl

theorem findSome?_filter_of_silent {α β : Type} {p : α → Bool} {f : α → Option β} {l : List α}
    (h : ∀ a ∈ l, p a = false → f a = none) : (l.filter p).findSome? f = l.findSome? f := by
  induction l with
  | nil => rfl
  | cons a l ih =>
    have hrest := ih fun b hb => h b (List.mem_cons_of_mem _ hb)
    by_cases ha : p a = true
    · rw [List.filter_cons_of_pos ha, List.findSome?_cons, List.findSome?_cons, hrest]
    · rw [List.filter_cons_of_neg ha, List.findSome?_cons,
        h a List.mem_cons_self (by simpa using ha), hrest]

theorem findSome?_congr {α β : Type} {f g : α → Option β} {l : List α} (h : ∀ a ∈ l, f a = g a) :
    l.findSome? f = l.findSome? g := by
  induction l with
  | nil => rfl
  | cons a l ih =>
    rw [List.findSome?_cons, List.findSome?_cons, h a List.mem_cons_self,
      ih fun b hb => h b (List.mem_cons_of_mem _ hb)]

theorem findSome?_bind {α β γ : Type} {f : α → Option β} {g : β → Option γ} {l : List α}
    (h : ∀ a ∈ l, ∀ b, f a = some b → g b ≠ none) :
    (l.findSome? fun a => (f a).bind g) = (l.findSome? f).bind g := by
  induction l with
  | nil => rfl
  | cons a l ih =>
    rw [List.findSome?_cons, List.findSome?_cons, ih fun b hb => h b (List.mem_cons_of_mem _ hb)]
    rcases ha : f a with _ | b
    · rfl
    · obtain ⟨c, hc⟩ := Option.ne_none_iff_exists'.1 (h a List.mem_cons_self b ha)
      simp only [Option.bind_some, hc]

namespace Index

variable {ix : Index} {uri name : String} {α : Type}

/-- The imports of a file that the walk follows. -/
def importsSeen (ix : Index) (uri : String) : List String :=
  (ix.importsOf uri).filter (· ≠ uri)

/-- The tables that a file sees, with something in the place of the predeclared table. -/
def tiers (ix : Index) (uri : String) (predeclared : List SymbolTable) : List SymbolTable :=
  (ix.tables.get? uri).toList ++ (predeclared ++
    ((ix.importsSeen uri).filterMap ix.tables.get? ++
      (ix.tables.entries.filter fun e => e.1 ≠ uri ∧ e.1 ∉ ix.importsSeen uri).map (·.2)))

theorem tablesFor_eq (ix : Index) (uri : String) :
    ix.tablesFor uri = ix.tiers uri [Builtin.table] := by
  simp only [tablesFor, tiers, importsSeen, List.append_assoc]
  rfl

/-! ### Every table once -/

namespace Consistent
variable (h : ix.Consistent)
include h

theorem uri_of_get? {k : String} {t : SymbolTable} (ht : ix.tables.get? k = some t) : t.uri = k :=
  h.owned _ (OrderedMap.mem_of_get? ht)

theorem get?_of_mem {e : String × SymbolTable} (he : e ∈ ix.tables.entries) :
    ix.tables.get? e.1 = some e.2 :=
  OrderedMap.get?_of_mem h.nodup he

theorem nodup_importsSeen (uri : String) : (ix.importsSeen uri).Nodup := by
  refine List.Nodup.filter _ ?_
  unfold importsOf
  cases hlist : ix.imports.get? uri with
  | none => exact List.nodup_nil
  | some list => exact h.distinct _ (OrderedMap.mem_of_get? hlist)

theorem mem_tiers {predeclared : List SymbolTable} {t : SymbolTable} :
    t ∈ ix.tiers uri predeclared ↔ t ∈ predeclared ∨ t ∈ ix.tables.values := by
  rw [OrderedMap.mem_values_iff h.nodup]
  simp only [tiers, List.mem_append, Option.mem_toList, List.mem_filterMap, List.mem_map,
    List.mem_filter, decide_eq_true_eq]
  constructor
  · rintro (ht | ht | ⟨k, -, ht⟩ | ⟨e, ⟨he, -⟩, rfl⟩)
    · exact .inr ⟨uri, ht⟩
    · exact .inl ht
    · exact .inr ⟨k, ht⟩
    · exact .inr ⟨e.1, h.get?_of_mem he⟩
  · rintro (ht | ⟨k, ht⟩)
    · exact .inr (.inl ht)
    · by_cases hown : k = uri
      · exact .inl (hown ▸ ht)
      by_cases himport : k ∈ ix.importsSeen uri
      · exact .inr (.inr (.inl ⟨k, himport, ht⟩))
      · exact .inr (.inr (.inr ⟨(k, t), ⟨OrderedMap.mem_of_get? ht, hown, himport⟩, rfl⟩))

theorem mem_tablesFor {t : SymbolTable} :
    t ∈ ix.tablesFor uri ↔ t ∈ Builtin.table :: ix.tables.values := by
  rw [tablesFor_eq, h.mem_tiers, List.mem_singleton, List.mem_cons]

/-- The files whose tables the walk meets, tier by tier. -/
theorem uris_tablesFor :
    (ix.tablesFor uri).map (·.uri) = [uri].filter (· ∈ ix.tables.keys) ++ ([Builtin.uri] ++
      ((ix.importsSeen uri).filter (· ∈ ix.tables.keys) ++
        ix.tables.keys.filter fun k => k ≠ uri ∧ k ∉ ix.importsSeen uri)) := by
  have hfound : ∀ ks : List String,
      (ks.filterMap ix.tables.get?).map (·.uri) = ks.filter (· ∈ ix.tables.keys) := by
    intro ks
    induction ks with
    | nil => rfl
    | cons k ks ih =>
      cases ht : ix.tables.get? k with
      | none =>
        have hk : k ∉ ix.tables.keys := OrderedMap.get?_eq_none_iff.1 ht
        rw [List.filterMap_cons_none ht, ih, List.filter_cons_of_neg (by simpa using hk)]
      | some t =>
        have hk : k ∈ ix.tables.keys := OrderedMap.mem_keys_iff.2 (by simp [ht])
        rw [List.filterMap_cons_some ht, List.map_cons, h.uri_of_get? ht, ih,
          List.filter_cons_of_pos (by simpa using hk)]
  have hown : (ix.tables.get? uri).toList = [uri].filterMap ix.tables.get? := by
    cases ht : ix.tables.get? uri <;> simp [ht]
  have hrest : ((ix.tables.entries.filter fun e => e.1 ≠ uri ∧ e.1 ∉ ix.importsSeen uri).map
      (·.2)).map (·.uri) = ix.tables.keys.filter fun k => k ≠ uri ∧ k ∉ ix.importsSeen uri := by
    rw [OrderedMap.keys, List.filter_map, List.map_map]
    exact List.map_congr_left fun e he => h.owned e (List.mem_filter.1 he).1
  rw [tablesFor_eq, tiers, hown]
  simp only [List.map_append, hfound, hrest]
  rfl

theorem nodup_uris_tablesFor (uri : String) : ((ix.tablesFor uri).map (·.uri)).Nodup := by
  have hreserved := h.unreserved
  rw [h.uris_tablesFor]
  simp only [List.nodup_append, List.mem_append, List.mem_filter, List.mem_singleton,
    decide_eq_true_eq]
  refine ⟨List.Nodup.filter _ (List.nodup_singleton uri), ⟨List.nodup_singleton _,
    ⟨(h.nodup_importsSeen uri).filter _, h.nodup.filter _, ?_⟩, ?_⟩, ?_⟩
  · rintro k ⟨himport, -⟩ l ⟨-, -, hother⟩ rfl
    exact hother himport
  · rintro k rfl l (⟨-, hl⟩ | ⟨hl, -⟩) rfl <;> exact hreserved hl
  · rintro k ⟨rfl, hk⟩ l (rfl | ⟨hseen, -⟩ | ⟨-, hne, -⟩) rfl
    · exact hreserved hk
    · simp [importsSeen] at hseen
    · exact hne rfl

theorem tablesFor_perm (uri : String) :
    (ix.tablesFor uri).Perm (Builtin.table :: ix.tables.values) := by
  have hvalues : (ix.tables.values.map (·.uri)) = ix.tables.keys := by
    rw [OrderedMap.values, List.map_map]
    exact List.map_congr_left h.owned
  have hnodup : (Builtin.table :: ix.tables.values).Nodup := by
    refine List.Nodup.of_map (·.uri) ?_
    rw [List.map_cons, hvalues]
    exact List.nodup_cons.2 ⟨h.unreserved, h.nodup⟩
  refine (List.perm_ext_iff_of_nodup ?_ hnodup).2 fun t => h.mem_tablesFor
  exact List.Nodup.of_map (·.uri) (h.nodup_uris_tablesFor uri)

/-! ### Answers -/

/-- The first answer is that of the file itself, else a predeclared one, else that of the first file
on its list of imports, else that of the first file of all. -/
theorem findSome?_tiers (uri : String) (predeclared : List SymbolTable)
    (ask : SymbolTable → Option α) :
    (ix.tiers uri predeclared).findSome? ask =
      ((ix.tables.get? uri).bind ask).or ((predeclared.findSome? ask).or
        (((ix.importsOf uri).findSome? fun k => (ix.tables.get? k).bind ask).or
          (ix.tables.values.findSome? ask))) := by
  have hown : (ix.tables.get? uri).toList.findSome? ask = (ix.tables.get? uri).bind ask := by
    cases ht : ix.tables.get? uri with
    | none => rfl
    | some t => cases ha : ask t <;> simp [ha]
  rw [tiers, List.findSome?_append, List.findSome?_append, List.findSome?_append, hown,
    findSome?_filterMap, OrderedMap.values, List.findSome?_map, List.findSome?_map]
  -- a tier that is asked at all comes behind tiers without an answer
  rcases hsilent : (ix.tables.get? uri).bind ask with _ | a
  case some => rfl
  have himports : (ix.importsSeen uri).findSome? (fun k => (ix.tables.get? k).bind ask) =
      (ix.importsOf uri).findSome? fun k => (ix.tables.get? k).bind ask := by
    refine findSome?_filter_of_silent fun k _ hk => ?_
    obtain rfl : k = uri := by simpa using hk
    exact hsilent
  rw [himports]
  rcases hnone : (ix.importsOf uri).findSome? fun k => (ix.tables.get? k).bind ask with _ | a
  case some => rfl
  have hothers : (ix.tables.entries.filter fun e =>
      e.1 ≠ uri ∧ e.1 ∉ ix.importsSeen uri).findSome? (ask ∘ (·.2)) =
        ix.tables.entries.findSome? (ask ∘ (·.2)) := by
    refine findSome?_filter_of_silent fun e he hout => ?_
    have hget : (ix.tables.get? e.1).bind ask = ask e.2 := by rw [h.get?_of_mem he]; rfl
    rw [Function.comp_apply, ← hget]
    by_cases hself : e.1 = uri
    · rw [hself, hsilent]
    · have hseen : e.1 ∈ ix.importsSeen uri := by simpa [hself] using hout
      exact List.findSome?_eq_none_iff.1 hnone e.1 (List.mem_filter.1 hseen).1
  rw [hothers]

theorem lookup_eq (uri : String) (ask : SymbolTable → Option α) :
    ix.lookup uri ask =
      ((ix.tables.get? uri).bind ask).or ((ask Builtin.table).or
        (((ix.importsOf uri).findSome? fun k => (ix.tables.get? k).bind ask).or
          (ix.tables.values.findSome? ask))) := by
  rw [lookup, tablesFor_eq, h.findSome?_tiers, List.findSome?_singleton]

theorem lookup_ne_none_iff {ask : SymbolTable → Option α} :
    ix.lookup uri ask ≠ none ↔ ∃ t ∈ Builtin.table :: ix.tables.values, ask t ≠ none := by
  rw [lookup, ne_eq, List.findSome?_eq_none_iff]
  simp only [h.mem_tablesFor, not_forall, exists_prop, ne_eq]

end Consistent

/-- A listing shows the declaration that a question about the name finds. -/
theorem get?_visible (ix : Index) (uri : String) (kind : SymbolTable → OrderedMap α)
    (name : String) :
    (ix.visible uri kind).get? name = ix.lookup uri fun t => (kind t).get? name := by
  rw [visible, OrderedMap.get?_foldl_putNew, OrderedMap.get?_empty, Option.none_or,
    OrderedMap.lookup_flatMap]
  rfl

/-- After any calls on a new index every file, in the index or not, sees the predeclared table and
the table of each indexed file once. The functions that it lists are those that some table declares,
each with the signature that a question about the name finds; the types that it lists are those that
a question about the name finds, with the same fields. A function is that of the file itself, else
the predeclared one, else that of the first import that declares it, else that of the first file. -/
theorem after_visible {fs : FileSystem} {root : Option Path} {layout : Layout}
    (hnew : create fs root layout = .ok ix) (calls : List Call) (uri : String) :
    let ix := ix.after calls
    ((ix.tablesFor uri).Perm (Builtin.table :: ix.tables.values) ∧
      ((ix.tablesFor uri).map (·.uri)).Nodup) ∧
    ∀ name,
      ((name ∈ (ix.allFunctions uri).keys ↔
          ∃ t ∈ Builtin.table :: ix.tables.values, name ∈ t.functions.keys) ∧
        (ix.allFunctions uri).get? name = ix.function name uri) ∧
      ((name ∈ (ix.allTypes uri).keys ↔ ix.typeFields name uri ≠ none) ∧
        ((ix.allTypes uri).get? name).map (·.fields) = ix.typeFields name uri) ∧
      ix.function name uri =
        ((ix.tables.get? uri).bind (·.functions.get? name)).or
          ((Builtin.table.functions.get? name).or
            (((ix.importsOf uri).findSome? fun target =>
                (ix.tables.get? target).bind (·.functions.get? name)).or
              (ix.tables.values.findSome? (·.functions.get? name)))) := by
  intro ix
  have hc : ix.Consistent := ((create_idle hnew).after calls).consistent
  refine ⟨⟨hc.tablesFor_perm uri, hc.nodup_uris_tablesFor uri⟩, fun name => ?_⟩
  have hfunctions : (ix.allFunctions uri).get? name = ix.function name uri :=
    get?_visible ix uri _ name
  have htypes : (ix.allTypes uri).get? name = ix.typeDefinition name uri :=
    get?_visible ix uri _ name
  refine ⟨⟨?_, hfunctions⟩, ⟨?_, by rw [htypes]; rfl⟩, hc.lookup_eq uri _⟩
  · rw [OrderedMap.mem_keys_iff, hfunctions]
    simp only [OrderedMap.mem_keys_iff]
    exact hc.lookup_ne_none_iff
  · rw [OrderedMap.mem_keys_iff, htypes, typeFields, ne_eq, ne_eq, Option.map_eq_none_iff]

/-- A file that imports itself, one whose import was removed again, and the removed file. -/
theorem after_visible_removed :
    let fs := (({} : FileSystem).install ["ws", "a.bn"] (.file (Text.Utf8.encode
      "fun f() \x7b\n\x7d".toList))).install ["ws", "b.bn"] (.file [])
    let main := "file:///ws/main.bn"
    let a := "file:///ws/a.bn"
    let b := "file:///ws/b.bn"
    let calls := [.document fs b "import \"b\"\nfun f(x: int) \x7b\n\x7d",
      .document fs main "import \"a\"", Call.remove a]
    let ix := ({} : Index).after calls
    create fs none {} = .ok {} ∧ ix.importsOf b = [b] ∧ ix.importsOf main = [a] ∧
      (ix.tablesFor b).map (·.uri) = [b, Builtin.uri, main] ∧
      (ix.tablesFor main).map (·.uri) = [main, Builtin.uri, b] ∧
      (ix.tablesFor a).map (·.uri) = [Builtin.uri, b, main] ∧
      (ix.tablesFor a).Perm (Builtin.table :: ix.tables.values) ∧
      (ix.function "f" main).bind (·.uri) = some b ∧
      (ix.allFunctions main).get? "f" = ix.function "f" main := by
  intro fs main a b calls ix
  have hnew : create fs none {} = .ok {} := rfl
  obtain ⟨-, hnames⟩ := after_visible hnew calls main
  obtain ⟨⟨hperm, -⟩, -⟩ := after_visible hnew calls a
  exact ⟨hnew, by decide +kernel, by decide +kernel, by decide +kernel, by decide +kernel,
    by decide +kernel, hperm, by decide +kernel, (hnames "f").1.2⟩

end Index

end BurnLens
