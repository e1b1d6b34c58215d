import Mathlib.Data.List.Dedup
import Mathlib.Data.List.Perm.Subperm
import BurnLens.Proofs.Cache.History

/-!
# Recency

A hit and an accepted write touch a document. The entries stand in the order of their last touches,
and an eviction takes the first of them. So a document stays cached while the others touched since
are too few to fill the cache. The touches of a history are a list, `touches`; without its
repetitions, of which the last one counts, it gives the order. What stands behind a document in the
cache has been touched since (`Behind`), which keeps the document from the front as long as the
touches are few. The main statement is `after_recency`.
-/

namespace BurnLens.Cache

/-- The document that an operation touches: that of a hit or of an accepted write. -/
def touched? (c : Cache) : Op → Option String
  | .get uri version => (c.get uri version).2.map fun _ => uri
  | .put uri version _ => if c.hasNewer uri version then none else some uri
  | .invalidate _ => none
  | .clear => none

/-- The documents that are touched in a history, in order. -/
def touches (c : Cache) : List Op → List String
  | [] => []
  | op :: ops => (c.touched? op).toList ++ (c.perform op).touches ops

variable {c : Cache} {e : CacheEntry} {op : Op} {ops : List Op} {uri u : String}

theorem touches_append (ops ops' : List Op) :
    c.touches (ops ++ ops') = c.touches ops ++ (c.after ops).touches ops' := by
  induction ops generalizing c with
  | nil => rfl
  | cons op ops ih => rw [List.cons_append, touches, touches, ih, List.append_assoc, after_cons]

theorem touches_concat (ops : List Op) (op : Op) :
    c.touches (ops ++ [op]) = c.touches ops ++ ((c.after ops).touched? op).toList := by
  rw [touches_append, touches, touches, List.append_nil]

/-- Everything that an operation can do to the documents of the cache. -/
inductive UrisCase (c : Cache) (op : Op) : Prop where
  | kept (htouched : c.touched? op = none) (heq : (c.perform op).uris = c.uris)
  | touched (e : CacheEntry) (htouched : c.touched? op = some e.uri)
      (hop : e.uri ∉ c.uris → op = .put e.uri e.version e.diagnostics)
      (heq : c.perform op = (c.touch e).evict)
  | invalidated (uri : String) (hop : op = .invalidate uri) (htouched : c.touched? op = none)
      (heq : (c.perform op).uris = c.uris.filter (· ≠ uri))
  | cleared (hop : op = .clear) (htouched : c.touched? op = none) (heq : (c.perform op).uris = [])

theorem uris_case (ht : c.Tidy) (op : Op) : UrisCase c op := by
  cases perform_case c op with
  | missed uri version hop hget heq =>
    subst hop
    exact .kept (by rw [touched?, hget]; rfl) (congrArg uris heq)
  | hit e hop hentry hget heq =>
    subst hop
    have hmem := mem_uris_of_find? hentry
    exact .touched e (by rw [touched?, hget]; rfl) (absurd hmem)
      (heq.trans (ht.evict_touch hmem).symm)
  | ignored uri version ds hop hnewer heq =>
    subst hop
    exact .kept (if_pos hnewer) (congrArg uris heq)
  | stored e hop hnewer heq =>
    subst hop
    exact .touched e (if_neg (Bool.eq_false_iff.1 hnewer)) (fun _ => rfl) heq
  | invalidated uri hop heq =>
    subst hop
    refine .invalidated uri rfl rfl ?_
    rw [heq, uris, invalidate, uris, List.filter_map]
    rfl
  | cleared hop heq =>
    subst hop
    exact .cleared rfl rfl (congrArg uris heq)

/-! ### The order -/

/-- A touch moves its document to the end. -/
theorem dedup_concat (l : List String) (uri : String) :
    (l ++ [uri]).dedup = l.dedup.filter (· ≠ uri) ++ [uri] := by
  induction l with
  | nil => rfl
  | cons a l ih =>
    rw [List.cons_append, List.dedup_cons, List.dedup_cons, ih]
    by_cases hl : a ∈ l
    · simp [hl]
    · by_cases ha : a = uri
      · subst ha
        simp [hl]
      · simp [hl, ha]

example : (["a", "b"] ++ ["a"]).dedup = ["b", "a"] := by decide

theorem uris_sublist (capacity : Int) (ops : List Op) :
    ((new capacity).after ops).uris.Sublist ((new capacity).touches ops).dedup := by
  induction ops using List.reverseRecOn with
  | nil => exact List.Sublist.refl []
  | append_singleton ops op ih =>
    have ht := (Tidy.new capacity).after ops
    rw [after_concat, touches_concat]
    cases uris_case ht op with
    | kept htouched heq =>
      rw [htouched, heq, Option.toList_none, List.append_nil]
      exact ih
    | touched e htouched _ heq =>
      rw [htouched, heq, Option.toList_some, dedup_concat, uris_evict, uris_touch]
      exact (List.drop_sublist _ _).trans ((ih.filter _).append_right _)
    | invalidated uri _ htouched heq =>
      rw [htouched, heq, Option.toList_none, List.append_nil]
      exact List.filter_sublist.trans ih
    | cleared _ htouched heq =>
      rw [heq]
      exact List.nil_sublist _

/-- An operation that evicts a document writes another one into a full cache, and the document it
evicts is the first. -/
theorem evicts_first (ht : c.Tidy) (hbefore : u ∈ c.uris) (hgone : u ∉ (c.perform op).uris)
    (hinvalidate : op ≠ .invalidate u) (hclear : op ≠ .clear) :
    c.size = c.capacity.toNat ∧ ∃ uri version ds rest, op = .put uri version ds ∧
      c.uris = u :: rest ∧ (c.perform op).uris = rest ++ [uri] := by
  cases uris_case ht op with
  | kept _ heq => exact absurd (heq ▸ hbefore) hgone
  | invalidated uri hop _ heq =>
    rw [heq] at hgone
    have hne : u ≠ uri := fun h => hinvalidate (h ▸ hop)
    exact absurd (List.mem_filter.2 ⟨hbefore, by simpa using hne⟩) hgone
  | cleared hop _ _ => exact absurd hop hclear
  | touched e _ hop heq =>
    rw [heq] at hgone ⊢
    by_cases hmem : e.uri ∈ c.uris
    · -- Nothing is evicted when the document has an entry already.
      rw [ht.evict_touch hmem, uris_touch] at hgone
      by_cases hu : u = e.uri <;> simp [hu, hbefore] at hgone
    · have hfilter : c.uris.filter (· ≠ e.uri) = c.uris :=
        List.filter_eq_self.2 fun uri huri => by
          simpa using fun h : uri = e.uri => hmem (h ▸ huri)
      have huris : (c.touch e).uris = c.uris ++ [e.uri] := by rw [uris_touch, hfilter]
      have hsize : (c.touch e).size = c.size + 1 := by
        rw [← length_uris, huris, List.length_append, length_uris, List.length_singleton]
      have hfits := ht.fits
      rw [uris_evict, huris, hsize, capacity_touch] at hgone ⊢
      have hfull : c.size = c.capacity.toNat := by
        by_contra hne
        have hzero : c.size + 1 - c.capacity.toNat = 0 := by omega
        simp [hzero, hbefore] at hgone
      have hone : c.size + 1 - c.capacity.toNat = 1 := by omega
      obtain ⟨first, rest, hcons⟩ := List.exists_cons_of_ne_nil (List.ne_nil_of_mem hbefore)
      rw [hone, hcons, List.cons_append, List.drop_one, List.tail_cons] at hgone ⊢
      rw [hcons] at hbefore
      obtain rfl : u = first := by
        rcases List.mem_cons.1 hbefore with h | h
        · exact h
        · exact absurd (List.mem_append_left _ h) hgone
      exact ⟨hfull, e.uri, e.version, e.diagnostics, rest, hop hmem, rfl, rfl⟩

/-! ### Staying cached -/

/-- The document is cached, and behind it in the order are only documents of `since`. -/
def Behind (u : String) (since : List String) (c : Cache) : Prop :=
  ∃ front back, c.uris = front ++ u :: back ∧ back ⊆ since

/-- A document that is touched last stands last. -/
theorem behind_touched (hroom : 1 ≤ c.capacity) (since : List String) :
    Behind e.uri since (c.touch e).evict := by
  have hle : (c.touch e).size - c.capacity.toNat ≤ (c.uris.filter (· ≠ e.uri)).length := by
    have hsize : (c.touch e).size = (c.uris.filter (· ≠ e.uri)).length + 1 := by
      rw [← length_uris, uris_touch, List.length_append, List.length_singleton]
    omega
  refine ⟨(c.uris.filter (· ≠ e.uri)).drop ((c.touch e).size - c.capacity.toNat), [], ?_, nofun⟩
  rw [uris_evict, uris_touch, capacity_touch, List.drop_append_of_le_length hle]

/-- Another touch keeps a document as long as there is room for it and the others touched since. -/
theorem Behind.touched {since : List String} (h : Behind u since c) (ht : c.Tidy) (hne : u ≠ e.uri)
    (hfew : ((since ++ [e.uri]).filter (· ≠ u)).dedup.length < c.capacity.toNat) :
    Behind u (since ++ [e.uri]) (c.touch e).evict := by
  obtain ⟨front, back, huris, hback⟩ := h
  have htouch : (c.touch e).uris =
      front.filter (· ≠ e.uri) ++ u :: (back.filter (· ≠ e.uri) ++ [e.uri]) := by
    rw [uris_touch, huris, List.filter_append, List.filter_cons_of_pos (by simpa using hne)]
    simp
  have hsince : back.filter (· ≠ e.uri) ++ [e.uri] ⊆ since ++ [e.uri] :=
    List.append_subset.2 ⟨fun x hx => List.mem_append_left _ (hback (List.mem_of_mem_filter hx)),
      List.subset_append_right _ _⟩
  -- What stands behind the document has no repetitions, so it takes less than all the room.
  have hlength : (back.filter (· ≠ e.uri) ++ [e.uri]).length ≤
      ((since ++ [e.uri]).filter (· ≠ u)).dedup.length := by
    have hnodup := htouch ▸ ht.nodup_touch e
    obtain ⟨hself, hnodup⟩ := List.nodup_cons.1 (List.nodup_append.1 hnodup).2.1
    refine (List.subperm_of_subset hnodup fun x hx => List.mem_dedup.2 ?_).length_le
    exact List.mem_filter.2 ⟨hsince hx, by simpa using fun h : x = u => hself (h ▸ hx)⟩
  have hle : (c.touch e).size - c.capacity.toNat ≤ (front.filter (· ≠ e.uri)).length := by
    rw [← length_uris, htouch, List.length_append, List.length_cons]
    omega
  exact ⟨_, _, by rw [uris_evict, capacity_touch, htouch, List.drop_append_of_le_length hle],
    hsince⟩

theorem Behind.perform {since : List String} (h : Behind u since c) (ht : c.Tidy)
    (hroom : 1 ≤ c.capacity) (hinvalidate : op ≠ .invalidate u) (hclear : op ≠ .clear)
    (hfew : ((since ++ (c.touched? op).toList).filter (· ≠ u)).dedup.length < c.capacity.toNat) :
    Behind u (since ++ (c.touched? op).toList) (c.perform op) := by
  cases uris_case ht op with
  | kept htouched heq =>
    rw [htouched, Option.toList_none, List.append_nil, Behind, heq]
    exact h
  | touched e htouched _ heq =>
    rw [htouched, Option.toList_some] at hfew ⊢
    rw [heq]
    by_cases hu : u = e.uri
    · subst hu
      exact behind_touched hroom _
    · exact h.touched ht hu hfew
  | invalidated uri hop htouched heq =>
    obtain ⟨front, back, huris, hback⟩ := h
    have hne : u ≠ uri := fun h => hinvalidate (h ▸ hop)
    refine ⟨front.filter (· ≠ uri), back.filter (· ≠ uri), ?_, fun x hx => ?_⟩
    · rw [heq, huris, List.filter_append, List.filter_cons_of_pos (by simpa using hne)]
    · exact List.mem_append_left _ (hback (List.mem_of_mem_filter hx))
  | cleared hop _ _ => exact absurd hop hclear

/-- A document that was touched stays cached until it is dropped, or the others touched since fill
the cache. -/
theorem behind_after (ht : c.Tidy) (hroom : 1 ≤ c.capacity) (htouched : c.touched? op = some u)
    {later : List Op} (hinvalidate : .invalidate u ∉ later) (hclear : .clear ∉ later)
    (hfew : (((c.perform op).touches later).filter (· ≠ u)).dedup.length < c.capacity.toNat) :
    Behind u ((c.perform op).touches later) ((c.perform op).after later) := by
  induction later using List.reverseRecOn with
  | nil =>
    cases uris_case ht op with
    | touched e htouched' _ heq =>
      cases htouched.symm.trans htouched'
      rw [after_nil, heq]
      exact behind_touched hroom _
    | kept hnone _ => cases htouched.symm.trans hnone
    | invalidated _ _ hnone _ => cases htouched.symm.trans hnone
    | cleared _ hnone _ => cases htouched.symm.trans hnone
  | append_singleton later op' ih =>
    rw [touches_concat] at hfew ⊢
    rw [after_concat]
    simp only [List.mem_append, List.mem_singleton, not_or] at hinvalidate hclear
    have hmono : (((c.perform op).touches later).filter (· ≠ u)).dedup ⊆
        (((c.perform op).touches later ++ (((c.perform op).after later).touched? op').toList).filter
          (· ≠ u)).dedup := by
      intro x hx
      rw [List.mem_dedup, List.filter_append]
      exact List.mem_append_left _ (List.mem_dedup.1 hx)
    have hlength := (List.subperm_of_subset (List.nodup_dedup _) hmono).length_le
    have hbehind := ih hinvalidate.1 hclear.1 (Nat.lt_of_le_of_lt hlength hfew)
    refine hbehind.perform ((ht.perform op).after later) (by simpa using hroom)
      (Ne.symm hinvalidate.2) (Ne.symm hclear.2) (by simpa using hfew)

/-- After any history of a cache with room for an entry: there are no more entries than fit; they
stand in the order of the last touches of their documents; an operation that evicts a document
writes another one into a full cache, and evicts the one touched least recently; and a document that
was touched and was not dropped since is cached while fewer others than fit have been touched. -/
theorem after_recency {capacity : Int} (hroom : 1 ≤ capacity) (ops : List Op) :
    let c := (new capacity).after ops
    (c.size : Int) ≤ capacity ∧
      c.uris.Sublist ((new capacity).touches ops).dedup ∧
      (∀ op, ∀ u ∈ c.uris, u ∉ (c.perform op).uris → op ≠ .invalidate u → op ≠ .clear →
        (c.size : Int) = capacity ∧ ∃ uri version ds rest, op = .put uri version ds ∧
          c.uris = u :: rest ∧ (c.perform op).uris = rest ++ [uri]) ∧
      ∀ before op later u, ops = before ++ op :: later →
        ((new capacity).after before).touched? op = some u →
        .invalidate u ∉ later → .clear ∉ later →
        ((((new capacity).after (before ++ [op])).touches later).filter (· ≠ u)).dedup.length
          < capacity →
        u ∈ c.uris := by
  intro c
  have ht : c.Tidy := (Tidy.new capacity).after ops
  have hcapacity : c.capacity = capacity := capacity_after (new capacity) ops
  have hfits := ht.fits
  rw [hcapacity] at hfits
  refine ⟨by omega, uris_sublist capacity ops, ?_, ?_⟩
  · intro op u hbefore hgone hinvalidate hclear
    obtain ⟨hsize, hfirst⟩ := evicts_first ht hbefore hgone hinvalidate hclear
    exact ⟨by omega, hfirst⟩
  · intro before op later u hops htouched hinvalidate hclear hfew
    have htouch : ((new capacity).after before).Tidy := (Tidy.new capacity).after before
    have hroom' : 1 ≤ ((new capacity).after before).capacity := by rwa [capacity_after]
    rw [after_concat] at hfew
    obtain ⟨front, back, huris, -⟩ := behind_after htouch hroom' htouched hinvalidate hclear
      (by rw [capacity_after]; show _ < capacity.toNat; omega)
    have hc : c = (((new capacity).after before).perform op).after later := by
      rw [← after_cons, ← after_append, ← hops]
    rw [hc, huris]
    simp

/-- A hit saves the older of two documents from eviction. Asking for another version of the younger
one and writing an older version of it do not count. -/
theorem after_recency_overtaken :
    let ops : List Op := [.put "a" 1 [], .put "b" 1 [], .get "a" 1, .get "b" 2, .put "b" 0 []]
    let c := (new 2).after ops
    (c.size : Int) ≤ 2 ∧ c.uris.Sublist ((new 2).touches ops).dedup ∧
      (new 2).touches ops = ["a", "b", "a"] ∧
      (∃ rest, c.uris = "b" :: rest ∧ (c.perform (.put "c" 1 [])).uris = rest ++ ["c"]) ∧
      "a" ∈ ((new 2).after (ops ++ [.put "c" 1 []])).uris := by
  intro ops c
  have hroom : (1 : Int) ≤ 2 := by decide
  obtain ⟨hsize, horder, hevict, -⟩ := after_recency hroom ops
  obtain ⟨-, -, -, hstay⟩ := after_recency hroom (ops ++ [.put "c" 1 []])
  refine ⟨hsize, horder, by decide +kernel, ?_, ?_⟩
  · obtain ⟨-, uri, version, ds, rest, hop, huris, hnext⟩ :=
      hevict (.put "c" 1 []) "b" (by decide +kernel) (by decide +kernel) nofun nofun
    cases hop
    exact ⟨rest, huris, hnext⟩
  · exact hstay [.put "a" 1 [], .put "b" 1 []] (.get "a" 1)
      [.get "b" 2, .put "b" 0 [], .put "c" 1 []] "a" rfl (by decide +kernel) (by decide +kernel)
      (by decide +kernel) (by decide +kernel)

end BurnLens.Cache
