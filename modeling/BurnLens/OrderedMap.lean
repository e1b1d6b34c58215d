/-! # Maps that remember insertion order

Listings, outlines and lookups show their entries in the order in which the keys first came.
Writing to a key that is present keeps its place; a key that was erased comes back at the end. -/

namespace BurnLens

/-- A map from strings that lists its entries in insertion order. -/
structure OrderedMap (α : Type) where
  entries : List (String × α) := []
  deriving Repr, DecidableEq

namespace OrderedMap

variable {α : Type}

def empty : OrderedMap α := ⟨[]⟩

/-- The value of a key in a list of entries. -/
def lookup (key : String) : List (String × α) → Option α
  | [] => none
  | (k, v) :: rest => if k = key then some v else lookup key rest

/-- Overwrites the entry of a key, or appends one. -/
def store (key : String) (value : α) : List (String × α) → List (String × α)
  | [] => [(key, value)]
  | (k, v) :: rest => if k = key then (k, value) :: rest else (k, v) :: store key value rest

def get? (m : OrderedMap α) (key : String) : Option α :=
  lookup key m.entries

def contains (m : OrderedMap α) (key : String) : Bool :=
  (m.get? key).isSome

/-- Writes a value; a key that is present keeps its place. -/
def put (m : OrderedMap α) (key : String) (value : α) : OrderedMap α :=
  ⟨store key value m.entries⟩

/-- Writes a value unless the key is present. -/
def putNew (m : OrderedMap α) (key : String) (value : α) : OrderedMap α :=
  if m.contains key then m else ⟨m.entries ++ [(key, value)]⟩

def erase (m : OrderedMap α) (key : String) : OrderedMap α :=
  ⟨m.entries.filter fun e => e.1 ≠ key⟩

def keys (m : OrderedMap α) : List String :=
  m.entries.map (·.1)

def values (m : OrderedMap α) : List α :=
  m.entries.map (·.2)

def size (m : OrderedMap α) : Nat :=
  m.entries.length

/-- Writes the entries one after another; of equal keys the last value stays, at the first place. -/
def ofList (entries : List (String × α)) : OrderedMap α :=
  entries.foldl (fun m e => m.put e.1 e.2) empty

/-! ### Laws -/

theorem lookup_store (key k : String) (value : α) (es : List (String × α)) :
    lookup k (store key value es) = if key = k then some value else lookup k es := by
  induction es with
  | nil => simp [store, lookup]
  | cons e es ih =>
    obtain ⟨a, v⟩ := e
    by_cases h : a = key
    · subst h
      by_cases h' : a = k <;> simp [store, lookup, h']
    · by_cases h' : a = k
      · subst h'
        simp [store, lookup, h, Ne.symm h]
      · simp [store, lookup, h, h', ih]

/-- Reading after a write sees the written value and nothing else changes. -/
theorem get?_put (m : OrderedMap α) (key k : String) (value : α) :
    (m.put key value).get? k = if key = k then some value else m.get? k :=
  lookup_store key k value m.entries

@[simp] theorem get?_empty (k : String) : (empty : OrderedMap α).get? k = none := rfl

theorem lookup_filter_ne (key k : String) (es : List (String × α)) :
    lookup k (es.filter fun e => e.1 ≠ key) = if key = k then none else lookup k es := by
  induction es with
  | nil => simp [lookup]
  | cons e es ih =>
    obtain ⟨a, v⟩ := e
    by_cases h : a = key
    · subst h
      rw [List.filter_cons_of_neg (by simp), ih]
      by_cases h' : a = k <;> simp [lookup, h']
    · rw [List.filter_cons_of_pos (by simp [h])]
      by_cases h' : a = k
      · subst h'
        simp [lookup, Ne.symm h]
      · simp only [lookup, h', ↓reduceIte, ih]

/-- Erasing a key forgets its value and no other. -/
theorem get?_erase (m : OrderedMap α) (key k : String) :
    (m.erase key).get? k = if key = k then none else m.get? k :=
  lookup_filter_ne key k m.entries

theorem lookup_eq_none_iff {key : String} {es : List (String × α)} :
    lookup key es = none ↔ key ∉ es.map (·.1) := by
  induction es with
  | nil => simp [lookup]
  | cons e es ih =>
    obtain ⟨a, v⟩ := e
    by_cases h : a = key
    · simp [lookup, h]
    · simp only [lookup, h, ↓reduceIte, ih, List.map_cons, List.mem_cons, not_or]
      exact ⟨fun hn => ⟨Ne.symm h, hn⟩, fun hn => hn.2⟩

theorem get?_eq_none_iff {m : OrderedMap α} {key : String} : m.get? key = none ↔ key ∉ m.keys :=
  lookup_eq_none_iff

theorem mem_of_lookup {key : String} {value : α} {es : List (String × α)}
    (h : lookup key es = some value) : (key, value) ∈ es := by
  induction es with
  | nil => simp [lookup] at h
  | cons e es ih =>
    obtain ⟨a, v⟩ := e
    by_cases ha : a = key
    · simp only [lookup, ha, ↓reduceIte, Option.some.injEq] at h
      simp [ha, h]
    · simp only [lookup, ha, ↓reduceIte] at h
      exact List.mem_cons_of_mem _ (ih h)

/-- A value that is found stands in the listing. -/
theorem mem_of_get? {m : OrderedMap α} {key : String} {value : α} (h : m.get? key = some value) :
    (key, value) ∈ m.entries :=
  mem_of_lookup h

theorem lookup_of_mem {key : String} {value : α} {es : List (String × α)}
    (hn : (es.map (·.1)).Nodup) (h : (key, value) ∈ es) : lookup key es = some value := by
  induction es with
  | nil => cases h
  | cons e es ih =>
    obtain ⟨a, v⟩ := e
    rw [List.map_cons] at hn
    obtain ⟨hnotin, hn⟩ := List.nodup_cons.1 hn
    rcases List.mem_cons.1 h with heq | h
    · cases heq
      simp [lookup]
    · have hne : a ≠ key := by
        rintro rfl
        exact hnotin (List.mem_map.2 ⟨_, h, rfl⟩)
      simp only [lookup, hne, ↓reduceIte]
      exact ih hn h

/-- With one entry per key, what stands in the listing is found. -/
theorem get?_of_mem {m : OrderedMap α} {key : String} {value : α} (hn : m.keys.Nodup)
    (h : (key, value) ∈ m.entries) : m.get? key = some value :=
  lookup_of_mem hn h

theorem keys_store (key : String) (value : α) (es : List (String × α)) :
    (store key value es).map (·.1) =
      if key ∈ es.map (·.1) then es.map (·.1) else es.map (·.1) ++ [key] := by
  induction es with
  | nil => simp [store]
  | cons a es ih =>
    obtain ⟨k, v⟩ := a
    by_cases hk : k = key
    · simp [store, hk]
    · simp only [store, hk, ↓reduceIte, List.map_cons, ih, List.mem_cons, Ne.symm hk, false_or]
      split <;> rfl

/-- A key that is present keeps its place, a new one comes last. -/
theorem keys_put (m : OrderedMap α) (key : String) (value : α) :
    (m.put key value).keys = if key ∈ m.keys then m.keys else m.keys ++ [key] :=
  keys_store key value m.entries

theorem nodup_keys_put {m : OrderedMap α} (key : String) (value : α) (h : m.keys.Nodup) :
    (m.put key value).keys.Nodup := by
  rw [keys_put]
  split
  · exact h
  · exact List.nodup_append.2 ⟨h, by simp, by simp; intro a ha hk; exact ‹key ∉ m.keys› (hk ▸ ha)⟩

theorem nodup_keys_erase {m : OrderedMap α} (key : String) (h : m.keys.Nodup) :
    (m.erase key).keys.Nodup :=
  h.sublist (List.filter_sublist.map _)

theorem mem_of_mem_store {key : String} {value : α} {es : List (String × α)} {e : String × α}
    (h : e ∈ store key value es) : e = (key, value) ∨ e ∈ es := by
  induction es with
  | nil => exact .inl (List.mem_singleton.1 h)
  | cons a es ih =>
    obtain ⟨k, v⟩ := a
    by_cases hk : k = key
    · simp only [store, hk, ↓reduceIte] at h
      rcases List.mem_cons.1 h with rfl | h
      · exact .inl rfl
      · exact .inr (List.mem_cons_of_mem _ h)
    · simp only [store, hk, ↓reduceIte] at h
      rcases List.mem_cons.1 h with rfl | h
      · exact .inr List.mem_cons_self
      · exact (ih h).imp_right (List.mem_cons_of_mem _)

/-- A write brings in no entry but its own. -/
theorem mem_of_mem_put {m : OrderedMap α} {key : String} {value : α} {e : String × α}
    (h : e ∈ (m.put key value).entries) : e = (key, value) ∨ e ∈ m.entries :=
  mem_of_mem_store h

theorem store_eq_self_iff {key : String} {value : α} {es : List (String × α)} :
    store key value es = es ↔ lookup key es = some value := by
  induction es with
  | nil => simp [store, lookup]
  | cons e es ih =>
    obtain ⟨k, v⟩ := e
    by_cases hk : k = key
    · simp [store, lookup, hk, eq_comm]
    · simp [store, lookup, hk, ih]

/-- A write changes nothing exactly if the value is there already. -/
theorem put_eq_self_iff {m : OrderedMap α} {key : String} {value : α} :
    m.put key value = m ↔ m.get? key = some value := by
  rw [get?, ← store_eq_self_iff]
  exact ⟨congrArg entries, congrArg mk⟩

theorem keys_erase (m : OrderedMap α) (key : String) :
    (m.erase key).keys = m.keys.filter (· ≠ key) := by
  simp only [erase, keys, List.filter_map]
  rfl

theorem store_of_notMem {key : String} {es : List (String × α)} (h : key ∉ es.map (·.1))
    (value : α) : store key value es = es ++ [(key, value)] := by
  induction es with
  | nil => rfl
  | cons e es ih =>
    obtain ⟨k, v⟩ := e
    rw [List.map_cons, List.mem_cons, not_or] at h
    rw [store, if_neg (Ne.symm h.1), ih h.2, List.cons_append]

theorem ofList_of_nodup {es : List (String × α)} (h : (es.map (·.1)).Nodup) : ofList es = ⟨es⟩ := by
  have hfold : ∀ front, ((front ++ es).map (·.1)).Nodup →
      es.foldl (fun (m : OrderedMap α) e => m.put e.1 e.2) ⟨front⟩ = ⟨front ++ es⟩ := by
    clear h
    induction es with
    | nil => intro front _; rw [List.foldl_nil, List.append_nil]
    | cons e es ih =>
      intro front hnodup
      have hfresh : e.1 ∉ front.map (·.1) := by
        rw [List.map_append, List.map_cons] at hnodup
        exact fun hmem => (List.nodup_append.1 hnodup).2.2 _ hmem _ List.mem_cons_self rfl
      have hsplit : front ++ e :: es = front ++ [e] ++ es := by simp
      rw [List.foldl_cons, put, store_of_notMem hfresh, hsplit]
      exact ih (front ++ [e]) (hsplit ▸ hnodup)
  exact hfold [] h

theorem get?_map {β : Type} (key : β → String) (value : β → α) (bs : List β) (k : String) :
    get? ⟨bs.map fun b => (key b, value b)⟩ k = (bs.find? (key · = k)).map value := by
  induction bs with
  | nil => rfl
  | cons b bs ih =>
    by_cases hb : key b = k
    · simp [get?, lookup, hb]
    · simp only [get?, List.map_cons, lookup, hb, ↓reduceIte, List.find?_cons, decide_false]
      exact ih

end OrderedMap

end BurnLens
