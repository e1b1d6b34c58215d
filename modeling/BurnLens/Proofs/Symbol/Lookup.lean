import BurnLens.Symbol.Extract

/-!
# What a lookup can change in an extraction

A table is extracted with the help of a lookup that knows the functions of other files. The lookup
serves to type variables and nothing else: two extractions of one text report the same
(`extract_diagnostics`), and their tables differ at most in the types of variables
(`extract_untyped`).
-/

namespace BurnLens

namespace OrderedMap
variable {α β : Type}

/-- Changes every value in its place. -/
def mapValues (f : α → β) (m : OrderedMap α) : OrderedMap β :=
  ⟨m.entries.map fun e => (e.1, f e.2)⟩

theorem map_store (f : α → β) (key : String) (value : α) (es : List (String × α)) :
    (store key value es).map (fun e => (e.1, f e.2)) =
      store key (f value) (es.map fun e => (e.1, f e.2)) := by
  induction es with
  | nil => rfl
  | cons e es ih =>
    obtain ⟨k, v⟩ := e
    by_cases h : k = key
    · simp [store, h]
    · simp only [store, h, ↓reduceIte, List.map_cons, ih]

theorem mapValues_put (f : α → β) (m : OrderedMap α) (key : String) (value : α) :
    (m.put key value).mapValues f = (m.mapValues f).put key (f value) := by
  simp only [mapValues, put, map_store]

theorem mapValues_ofList (f : α → β) (es : List (String × α)) :
    (ofList es).mapValues f = ofList (es.map fun e => (e.1, f e.2)) := by
  have hfold : ∀ m : OrderedMap α,
      (es.foldl (fun m e => m.put e.1 e.2) m).mapValues f =
        (es.map fun e => (e.1, f e.2)).foldl (fun m e => m.put e.1 e.2) (m.mapValues f) := by
    induction es with
    | nil => intro m; rfl
    | cons e es ih =>
      intro m
      rw [List.foldl_cons, List.map_cons, List.foldl_cons, ih, mapValues_put]
  exact hfold empty

end OrderedMap

def Variable.untyped (v : Variable) : Variable :=
  { v with type := "" }

/-- A table without the types of its variables. -/
def SymbolTable.untyped (t : SymbolTable) : SymbolTable :=
  { t with vars := t.vars.mapValues Variable.untyped }

variable {text uri : String}

/-- What is malformed in a text does not depend on other files. -/
theorem extract_diagnostics (lookup lookup' : FunctionLookup) :
    (extract text uri lookup).diagnostics = (extract text uri lookup').diagnostics := rfl

/-- Of a table only the types of variables depend on other files. -/
theorem extract_untyped (lookup lookup' : FunctionLookup) :
    (extract text uri lookup).table.untyped = (extract text uri lookup').table.untyped := by
  have hvars : ∀ l : FunctionLookup, (extract text uri l).table.untyped.vars =
      .ofList ((Text.hits (Text.anywhere Pattern.initialisedVariable) text.toList).map fun h =>
        (String.ofList h.value.name,
          (Symbol.variableOf ⟨uri, 0, text⟩ (fun _ => none) h).untyped)) := by
    intro l
    simp only [SymbolTable.untyped, extract, Symbol.byName, OrderedMap.mapValues_ofList,
      List.map_map]
    rfl
  have hrest : ∀ l : FunctionLookup, (extract text uri l).table.untyped =
      { (extract text uri fun _ => none).table with
        vars := (extract text uri l).table.untyped.vars } := fun _ => rfl
  rw [hrest lookup, hrest lookup', hvars lookup, hvars lookup']

end BurnLens
