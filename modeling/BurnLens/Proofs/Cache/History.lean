import Mathlib.Data.List.Induction
import Mathlib.Data.List.Nodup
import BurnLens.Cache

/-!
# Histories of the cache

A history is a list of operations on a new cache, oldest first. What a hit means can only be said of
the whole history: a write for an older version than the cached one is ignored, but an eviction
forgets the newer version, and then the older one comes in. So every entry is the `Latest` write of
its version, with nothing newer of its document behind it, and a hit gives that (`get_latest`).
-/

namespace BurnLens.Cache

/-- What can be done to a cache. -/
inductive Op where
  | get (uri : String) (version : Int)
  | put (uri : String) (version : Int) (diagnostics : List Diagnostic)
  | invalidate (uri : String)
  | clear
  deriving DecidableEq

def perform (c : Cache) : Op → Cache
  | .get uri version => (c.get uri version).1
  | .put uri version ds => c.put uri version ds
  | .invalidate uri => c.invalidate uri
  | .clear => c.clear

def new (capacity : Int) : Cache :=
  { capacity }

/-- The cache after a history. -/
def after (c : Cache) (ops : List Op) : Cache :=
  ops.foldl perform c

/-- The documents with an entry, the one touched least recently first. -/
def uris (c : Cache) : List String :=
  c.entries.map (·.uri)

/-- A newer version of the document is cached. -/
def hasNewer (c : Cache) (uri : String) (version : Int) : Bool :=
  (c.find? uri).any fun e => version < e.version

variable {c : Cache} {e : CacheEntry} {op : Op} {ops : List Op} {uri : String} {version : Int}
  {ds : List Diagnostic}

@[simp] theorem after_nil : c.after [] = c := rfl

@[simp] theorem after_cons : c.after (op :: ops) = (c.perform op).after ops := rfl

theorem after_append (ops ops' : List Op) : c.after (ops ++ ops') = (c.after ops).after ops' :=
  List.foldl_append

theorem after_concat (ops : List Op) (op : Op) : c.after (ops ++ [op]) = (c.after ops).perform op :=
  after_append ops [op]

theorem put_of_newer (h : c.hasNewer uri version = true) : c.put uri version ds = c :=
  if_pos h

theorem put_of_not_newer (h : c.hasNewer uri version = false) :
    c.put uri version ds = (c.touch ⟨uri, version, ds⟩).evict :=
  if_neg (Bool.eq_false_iff.1 h)

/-! ### One operation -/

/-- Everything that an operation can do. -/
inductive PerformCase (c : Cache) (op : Op) : Prop where
  | missed (uri : String) (version : Int) (hop : op = .get uri version)
      (hget : c.get uri version = (c, none)) (heq : c.perform op = c)
  | hit (e : CacheEntry) (hop : op = .get e.uri e.version) (hentry : c.find? e.uri = some e)
      (hget : c.get e.uri e.version = (c.touch e, some e.diagnostics))
      (heq : c.perform op = c.touch e)
  | ignored (uri : String) (version : Int) (ds : List Diagnostic) (hop : op = .put uri version ds)
      (hnewer : c.hasNewer uri version = true) (heq : c.perform op = c)
  | stored (e : CacheEntry) (hop : op = .put e.uri e.version e.diagnostics)
      (hnewer : c.hasNewer e.uri e.version = false) (heq : c.perform op = (c.touch e).evict)
  | invalidated (uri : String) (hop : op = .invalidate uri)
      (heq : c.perform op = c.invalidate uri)
  | cleared (hop : op = .clear) (heq : c.perform op = c.clear)

theorem perform_case (c : Cache) (op : Op) : PerformCase c op := by
  cases op with
  | get uri version =>
    rcases c.get_cases uri version with ⟨e, hentry, rfl, hget⟩ | ⟨-, hget⟩
    · obtain rfl := find?_uri hentry
      exact .hit e rfl hentry hget (congrArg Prod.fst hget)
    · exact .missed uri version rfl hget (congrArg Prod.fst hget)
  | put uri version ds =>
    cases hnewer : c.hasNewer uri version with
    | true => exact .ignored uri version ds rfl hnewer (put_of_newer hnewer)
    | false => exact .stored ⟨uri, version, ds⟩ rfl hnewer (put_of_not_newer hnewer)
  | invalidate uri => exact .invalidated uri rfl rfl
  | clear => exact .cleared rfl rfl

theorem uris_touch : (c.touch e).uris = c.uris.filter (· ≠ e.uri) ++ [e.uri] := by
  simp only [uris, touch, List.map_append, List.map_cons, List.map_nil, List.filter_map]
  rfl

theorem uris_evict : c.evict.uris = c.uris.drop (c.size - c.capacity.toNat) := by
  simp [uris, evict, size]

theorem length_uris (c : Cache) : c.uris.length = c.size :=
  List.length_map _

theorem mem_uris_of_find? (h : c.find? uri = some e) : uri ∈ c.uris :=
  List.mem_map.2 ⟨e, find?_mem h, find?_uri h⟩

@[simp] theorem capacity_perform (c : Cache) (op : Op) : (c.perform op).capacity = c.capacity := by
  cases perform_case c op with
  | missed uri version _ _ heq => rw [heq]
  | hit e _ _ _ heq => rw [heq, capacity_touch]
  | ignored uri version ds _ _ heq => rw [heq]
  | stored e _ _ heq => rw [heq]; rfl
  | invalidated uri _ heq => rw [heq, capacity_invalidate]
  | cleared _ heq => rw [heq, capacity_clear]

@[simp] theorem capacity_after (c : Cache) (ops : List Op) :
    (c.after ops).capacity = c.capacity := by
  induction ops generalizing c with
  | nil => rfl
  | cons op ops ih => rw [after_cons, ih, capacity_perform]

/-- No document has two entries, and there are no more entries than there is room. -/
structure Tidy (c : Cache) : Prop where
  nodup : c.uris.Nodup
  fits : c.size ≤ c.capacity.toNat

namespace Tidy

theorem nodup_touch (ht : c.Tidy) (e : CacheEntry) : (c.touch e).uris.Nodup := by
  rw [uris_touch]
  refine List.nodup_append.2 ⟨ht.nodup.filter _, List.nodup_singleton _, ?_⟩
  intro a ha b hb hab
  rw [List.mem_singleton.1 hb] at hab
  simp [hab] at ha

theorem evict (h : c.uris.Nodup) : c.evict.Tidy := by
  constructor
  · rw [uris_evict]
    exact h.sublist (List.drop_sublist _ _)
  · have hlength : c.evict.size = c.size - (c.size - c.capacity.toNat) := by
      simp [size, Cache.evict]
    have hcapacity : c.evict.capacity = c.capacity := rfl
    omega

/-- The entry of a document that is touched again takes no room. -/
theorem size_touch (ht : c.Tidy) (h : e.uri ∈ c.uris) : (c.touch e).size = c.size := by
  have herase : c.uris.filter (· ≠ e.uri) = c.uris.erase e.uri := by
    rw [ht.nodup.erase_eq_filter]
    exact List.filter_congr fun uri _ => Bool.eq_iff_iff.2 (by simp)
  have hpos := List.length_pos_of_mem h
  rw [← length_uris, ← length_uris, uris_touch, List.length_append, List.length_singleton, herase,
    List.length_erase_of_mem h]
  omega

theorem evict_touch (ht : c.Tidy) (h : e.uri ∈ c.uris) : (c.touch e).evict = c.touch e := by
  have hsize := ht.size_touch h
  have hfits := ht.fits
  have hzero : (c.touch e).size - c.capacity.toNat = 0 := by omega
  rw [Cache.evict, capacity_touch]
  show ({ c.touch e with entries := (c.touch e).entries.drop ((c.touch e).size - _) } : Cache) = _
  rw [hzero, List.drop_zero]

theorem perform (ht : c.Tidy) (op : Op) : (c.perform op).Tidy := by
  cases perform_case c op with
  | missed uri version _ _ heq => rwa [heq]
  | hit e _ hentry _ heq =>
    rw [heq, ← ht.evict_touch (mem_uris_of_find? hentry)]
    exact .evict (ht.nodup_touch e)
  | ignored uri version ds _ _ heq => rwa [heq]
  | stored e _ _ heq =>
    rw [heq]
    exact .evict (ht.nodup_touch e)
  | invalidated uri _ heq =>
    rw [heq]
    exact ⟨ht.nodup.sublist (List.filter_sublist.map _),
      Nat.le_trans (List.length_filter_le _ _) ht.fits⟩
  | cleared _ heq =>
    rw [heq]
    exact ⟨List.nodup_nil, Nat.zero_le _⟩

theorem after (ht : c.Tidy) (ops : List Op) : (c.after ops).Tidy := by
  induction ops generalizing c with
  | nil => exact ht
  | cons op ops ih => exact ih (ht.perform op)

theorem new (capacity : Int) : (Cache.new capacity).Tidy :=
  ⟨List.nodup_nil, Nat.zero_le _⟩

/-- The entry of a document is the one that is found. -/
theorem find?_of_mem (ht : c.Tidy) (h : e ∈ c.entries) : c.find? e.uri = some e := by
  cases hentry : c.find? e.uri with
  | none => simpa using List.find?_eq_none.1 hentry e h
  | some e' =>
    rw [List.inj_on_of_nodup_map ht.nodup (find?_mem hentry) h (find?_uri hentry)]

end Tidy

/-! ### The latest write -/

/-- The list was written for this version of the document, and since then the document was not
dropped, nor was anything written for this version of it or a newer one. -/
def Latest (ops : List Op) (uri : String) (version : Int) (ds : List Diagnostic) : Prop :=
  ∃ before later, ops = before ++ .put uri version ds :: later ∧
    .invalidate uri ∉ later ∧ .clear ∉ later ∧
    ∀ version' ds', .put uri version' ds' ∈ later → version' < version

theorem Latest.concat (h : Latest ops uri version ds) (hinvalidate : op ≠ .invalidate uri)
    (hclear : op ≠ .clear)
    (hput : ∀ version' ds', op = .put uri version' ds' → version' < version) :
    Latest (ops ++ [op]) uri version ds := by
  obtain ⟨before, later, rfl, hi, hc, hp⟩ := h
  refine ⟨before, later ++ [op], by simp, ?_, ?_, ?_⟩
  · simpa [hi] using hinvalidate.symm
  · simpa [hc] using hclear.symm
  · intro version' ds' hmem
    rcases List.mem_append.1 hmem with hmem | hmem
    · exact hp version' ds' hmem
    · exact hput version' ds' (List.mem_singleton.1 hmem).symm

/-- Every entry is the latest write of its version. -/
def Current (ops : List Op) (c : Cache) : Prop :=
  ∀ e ∈ c.entries, Latest ops e.uri e.version e.diagnostics

theorem Current.perform (hc : Current ops c) (ht : c.Tidy) (op : Op) :
    Current (ops ++ [op]) (c.perform op) := by
  intro e he
  cases perform_case c op with
  | missed uri version hop _ heq =>
    rw [heq] at he
    subst hop
    exact (hc e he).concat nofun nofun nofun
  | hit e' hop hentry _ heq =>
    rw [heq] at he
    subst hop
    exact (hc e (mem_of_mem_touch (find?_mem hentry) he)).concat nofun nofun nofun
  | ignored uri version ds hop hnewer heq =>
    rw [heq] at he
    subst hop
    refine (hc e he).concat nofun nofun fun version' ds' hput => ?_
    cases hput
    -- The entry is the only one of its document, so it is the newer one.
    rw [hasNewer, ht.find?_of_mem he] at hnewer
    simpa using hnewer
  | stored e' hop hnewer heq =>
    rw [heq] at he
    subst hop
    rcases mem_touch.1 (List.mem_of_mem_drop he) with ⟨he, hne⟩ | rfl
    · refine (hc e he).concat nofun nofun fun version' ds' hput => ?_
      exact absurd (Op.put.inj hput).1.symm hne
    · exact ⟨ops, [], rfl, List.not_mem_nil, List.not_mem_nil, nofun⟩
  | invalidated uri hop heq =>
    rw [heq] at he
    subst hop
    obtain ⟨he, hne⟩ := mem_invalidate.1 he
    exact (hc e he).concat (fun h => hne (Op.invalidate.inj h).symm) nofun nofun
  | cleared hop heq =>
    rw [heq] at he
    cases he

theorem current_after (capacity : Int) (ops : List Op) :
    Current ops ((new capacity).after ops) := by
  induction ops using List.reverseRecOn with
  | nil => exact fun e he => nomatch he
  | append_singleton ops op ih =>
    rw [after_concat]
    exact ih.perform ((Tidy.new capacity).after ops) op

/-- Where there is room for an entry, reading what was just written finds it, unless a newer version
was cached. -/
theorem get_put (hroom : 1 ≤ c.capacity) (uri : String) (version : Int) (ds : List Diagnostic) :
    ((c.put uri version ds).get uri version).2 =
      if c.hasNewer uri version then none else some ds := by
  cases hnewer : c.hasNewer uri version with
  | true =>
    rw [put_of_newer hnewer, if_pos rfl]
    obtain ⟨e, hentry, hlt⟩ := (Option.any_eq_true ..).1 hnewer
    have hne : e.version ≠ version := Int.ne_of_gt (of_decide_eq_true hlt)
    simp [get, hentry, hne]
  | false =>
    rw [put_of_not_newer hnewer, if_neg Bool.false_ne_true]
    -- The entry is the last one, and the room is for at least one.
    have hentries : (c.touch ⟨uri, version, ds⟩).evict.entries =
        (c.entries.filter (·.uri ≠ uri)).drop
          ((c.touch ⟨uri, version, ds⟩).entries.length - c.capacity.toNat) ++
            [⟨uri, version, ds⟩] := by
      simp only [evict, touch]
      rw [List.drop_append_of_le_length]
      simp only [List.length_append, List.length_singleton]
      omega
    have hentry : (c.touch ⟨uri, version, ds⟩).evict.find? uri = some ⟨uri, version, ds⟩ := by
      rw [find?, hentries, List.find?_append, List.find?_eq_none.2]
      · simp
      · intro e he
        simpa using (List.mem_filter.1 (List.mem_of_mem_drop he)).2
    simp [get, hentry]

/-- After any history of a cache with room for an entry, a hit gives the latest write of the version
asked for. A version that is written is found directly afterwards, unless a newer one was cached. -/
theorem get_latest {capacity : Int} (hroom : 1 ≤ capacity) (ops : List Op) (uri : String)
    (version : Int) (ds : List Diagnostic) :
    ((((new capacity).after ops).get uri version).2 = some ds → Latest ops uri version ds) ∧
      (((new capacity).after (ops ++ [.put uri version ds])).get uri version).2 =
        if ((new capacity).after ops).hasNewer uri version then none else some ds := by
  constructor
  · intro hget
    rcases get_cases ((new capacity).after ops) uri version with ⟨e, hentry, rfl, heq⟩ | ⟨-, heq⟩
    · rw [heq] at hget
      obtain rfl := find?_uri hentry
      cases hget
      exact current_after capacity ops e (find?_mem hentry)
    · rw [heq] at hget
      cases hget
  · rw [after_concat]
    exact get_put (by rw [capacity_after]; exact hroom) uri version ds

/-- With room for one document, a second one makes the cache forget version 2 of the first, and
version 1 comes in. As long as version 2 was cached, it did not. -/
theorem get_latest_forgotten :
    let late : List Diagnostic := [⟨.error, .onLine 0 0 1, "late", .syntactic, none⟩]
    let ops : List Op := [.put "a" 2 [], .put "b" 1 [], .put "a" 1 late]
    ((((new 1).after ops).get "a" 1).2 = some late ∧ Latest ops "a" 1 late) ∧
      (((new 1).after ([.put "a" 2 []] ++ [.put "a" 1 late])).get "a" 1).2 = none := by
  intro late ops
  have hget : (((new 1).after ops).get "a" 1).2 = some late := by decide +kernel
  refine ⟨⟨hget, (get_latest (by decide) ops "a" 1 late).1 hget⟩, ?_⟩
  rw [(get_latest (by decide) [.put "a" 2 []] "a" 1 late).2]
  decide +kernel

end BurnLens.Cache
