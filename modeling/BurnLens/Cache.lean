import BurnLens.Diagnostic

/-! # The diagnostics cache

At most one entry per document, for exactly one version of it. Entries are ordered by last touch; a
hit and an accepted write are touches. When there are too many, the entries touched least recently
go. A write for an older version than the cached one is ignored. A cache of negative capacity is not
usable: there is no room even for nothing, and every write fails. -/

namespace BurnLens

structure CacheEntry where
  uri : String
  version : Int
  diagnostics : List Diagnostic
  deriving DecidableEq, Repr

structure Cache where
  capacity : Int
  /-- The entry touched least recently comes first. -/
  entries : List CacheEntry := []
  deriving DecidableEq, Repr

/-- Why a write fails. -/
inductive CacheFault where
  | negativeCapacity
  deriving DecidableEq, Repr

def CacheFault.message : CacheFault → String
  | .negativeCapacity => "'dictionary is empty'"

namespace Cache

def find? (c : Cache) (uri : String) : Option CacheEntry :=
  c.entries.find? (·.uri = uri)

def contains (c : Cache) (uri : String) : Bool :=
  (c.find? uri).isSome

def size (c : Cache) : Nat :=
  c.entries.length

/-- Drops the entry of a document. -/
def invalidate (c : Cache) (uri : String) : Cache :=
  { c with entries := c.entries.filter (·.uri ≠ uri) }

def clear (c : Cache) : Cache :=
  { c with entries := [] }

/-- Makes an entry the one touched last. -/
def touch (c : Cache) (e : CacheEntry) : Cache :=
  { c with entries := c.entries.filter (·.uri ≠ e.uri) ++ [e] }

/-- Drops the entries touched least recently until the rest fits. -/
def evict (c : Cache) : Cache :=
  { c with entries := c.entries.drop (c.entries.length - c.capacity.toNat) }

/-- The diagnostics of exactly this version. -/
def get (c : Cache) (uri : String) (version : Int) : Cache × Option (List Diagnostic) :=
  match c.find? uri with
  | none => (c, none)
  | some e => if e.version = version then (c.touch e, some e.diagnostics) else (c, none)

/-- Stores the diagnostics of a version unless a newer version is cached. -/
def put (c : Cache) (uri : String) (version : Int) (diagnostics : List Diagnostic) : Cache :=
  if (c.find? uri).any fun e => version < e.version then c
  else (c.touch ⟨uri, version, diagnostics⟩).evict

/-- Whether writes succeed. -/
def isUsable (c : Cache) : Bool :=
  0 ≤ c.capacity

/-- Stores the diagnostics of a version and tells whether that failed. -/
def tryPut (c : Cache) (uri : String) (version : Int) (diagnostics : List Diagnostic) :
    Cache × Except CacheFault Unit :=
  (c.put uri version diagnostics, if c.isUsable then .ok () else .error .negativeCapacity)

/-! ### Laws -/

variable {c : Cache} {e e' : CacheEntry} {uri : String} {version : Int} {ds : List Diagnostic}

@[simp] theorem capacity_invalidate : (c.invalidate uri).capacity = c.capacity := rfl

@[simp] theorem capacity_clear : c.clear.capacity = c.capacity := rfl

@[simp] theorem capacity_touch : (c.touch e).capacity = c.capacity := rfl

@[simp] theorem capacity_put : (c.put uri version ds).capacity = c.capacity := by
  unfold put
  split <;> rfl

theorem find?_mem (h : c.find? uri = some e) : e ∈ c.entries :=
  List.mem_of_find?_eq_some h

theorem find?_uri (h : c.find? uri = some e) : e.uri = uri := by
  simpa using List.find?_some h

theorem mem_invalidate : e ∈ (c.invalidate uri).entries ↔ e ∈ c.entries ∧ e.uri ≠ uri := by
  simp [invalidate]

theorem mem_touch : e' ∈ (c.touch e).entries ↔ (e' ∈ c.entries ∧ e'.uri ≠ e.uri) ∨ e' = e := by
  simp [touch]

theorem mem_of_mem_touch (he : e ∈ c.entries) (h : e' ∈ (c.touch e).entries) : e' ∈ c.entries := by
  rcases mem_touch.1 h with h | rfl
  · exact h.1
  · exact he

/-- An accepted write leaves nothing older of its document. -/
theorem mem_put_of_le (hle : ∀ e ∈ c.entries, e.uri = uri → e.version ≤ version)
    (h : e ∈ (c.put uri version ds).entries) :
    (e ∈ c.entries ∧ e.uri ≠ uri) ∨ e = ⟨uri, version, ds⟩ := by
  unfold put at h
  split at h
  next hn =>
    obtain ⟨old, hold, hlt⟩ := (Option.any_eq_true ..).1 hn
    have hge := hle old (find?_mem hold) (find?_uri hold)
    simp only [decide_eq_true_eq] at hlt
    omega
  next => exact mem_touch.1 (List.mem_of_mem_drop h)

/-- A write brings in no entry but its own. -/
theorem mem_put (h : e ∈ (c.put uri version ds).entries) :
    e ∈ c.entries ∨ e = ⟨uri, version, ds⟩ := by
  unfold put at h
  split at h
  · exact .inl h
  · exact (mem_touch.1 (List.mem_of_mem_drop h)).imp_left (·.1)

/-- Reading one version: a hit is an entry of exactly that version, a miss changes nothing. -/
theorem get_cases (c : Cache) (uri : String) (version : Int) :
    (∃ e, c.find? uri = some e ∧ e.version = version ∧
      c.get uri version = (c.touch e, some e.diagnostics)) ∨
    ((∀ e, c.find? uri = some e → e.version ≠ version) ∧ c.get uri version = (c, none)) := by
  cases he : c.find? uri with
  | none => exact .inr ⟨by simp, by simp [get, he]⟩
  | some e =>
    by_cases hv : e.version = version
    · exact .inl ⟨e, rfl, hv, by simp [get, he, hv]⟩
    · refine .inr ⟨fun e' he' => ?_, by simp [get, he, hv]⟩
      cases he'
      exact hv

end Cache

end BurnLens
