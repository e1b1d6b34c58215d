import BurnLens.Proofs.Text.Occurs
import BurnLens.Proofs.Text.Run
import BurnLens.Symbol.Extract

/-!
# One piece of a list

A piece of a list of parameters or fields is a pair of a name and a type iff it has one colon and
text on both sides of it (`pairOf?_eq_some_iff`). A blank piece is none, so a list is read the same
whether its blank pieces are left out first or not (`quietParameters_eq`).
-/

namespace BurnLens

/-! ### What trimming leaves -/

namespace Text
variable {cs raw front back : List Char}

/-- A text that is not blank is what is left of it when trimmed, between two stretches of white
space. -/
theorem exists_core (h : (trim raw).isEmpty = false) :
    ∃ lead tail, raw = lead ++ (trim raw ++ tail) ∧ (∀ c ∈ lead, isBlank c = true) ∧
      (∀ c ∈ tail, isBlank c = true) ∧ (trim raw).head?.any isBlank = false ∧
      (trim raw).getLast?.any isBlank = false ∧
      raw.length - (trimLeft raw).length = lead.length ∧
      (trimRight raw).length = lead.length + (trim raw).length := by
  have hspoken : ∀ cs, (trim cs).isEmpty = false → ∃ c ∈ cs, isBlank c = false := by
    intro cs hcs
    by_contra hnone
    rw [isEmpty_trim.2 (by simpa using hnone)] at hcs
    cases hcs
  obtain ⟨lead, hlead, hraw⟩ := exists_blanks raw
  obtain ⟨gap, hgap, hrest⟩ := exists_blanks (trimLeft raw).reverse
  have hleft : trimLeft raw = trim raw ++ gap.reverse := by
    rw [← List.reverse_reverse (trimLeft raw), hrest, List.reverse_append]
    rfl
  have hinner : ∃ c ∈ trimLeft raw, isBlank c = false := by
    refine hspoken _ ?_
    rwa [trim, trimLeft_of_head (head?_trimLeft raw)]
  refine ⟨lead, gap.reverse, hleft ▸ hraw, hlead, fun c hc => hgap c (List.mem_reverse.1 hc),
    ?_, ?_, ?_, ?_⟩
  · rw [← trimLeft_trimRight (hspoken raw h)]
    exact head?_trimLeft _
  · rw [trim, trimRight, List.getLast?_reverse]
    exact head?_trimLeft _
  · have hlength := congrArg List.length hraw
    rw [List.length_append] at hlength
    exact Nat.sub_eq_of_eq_add hlength
  · have hright : trimRight raw = lead ++ trim raw := by
      rw [trim, ← trimRight_append hinner]
      exact congrArg trimRight hraw
    rw [hright, List.length_append]

end Text

namespace Symbol

open Text

theorem pairOf?_eq_some_iff {raw name type : List Char} : pairOf? raw = some (name, type) ↔
    ∃ left right, raw = left ++ ':' :: right ∧ ':' ∉ left ∧ ':' ∉ right ∧
      trim left = name ∧ trim right = type ∧ name ≠ [] ∧ type ≠ [] := by
  constructor
  · intro h
    unfold pairOf? at h
    split at h
    next left right hsplit =>
      split at h
      next => cases h
      next hspoken =>
        cases h
        have hraw := joinWith_splitOn ':' raw
        rw [hsplit] at hraw
        have hfree : ∀ p ∈ [left, right], ':' ∉ p :=
          fun p hp => not_mem_of_mem_splitOn (hsplit.symm ▸ hp)
        refine ⟨left, right, hraw.symm, hfree left (by simp), hfree right (by simp), rfl, rfl, ?_⟩
        simpa using hspoken
    next => cases h
  · rintro ⟨left, right, rfl, hleft, hright, rfl, rfl, hname, htype⟩
    have hsplit : splitOn ':' (left ++ ':' :: right) = [left, right] := by
      rw [splitOn_append_cons hleft, splitOn_of_not_mem hright]
    simp only [pairOf?, hsplit, List.isEmpty_eq_false_iff.2 hname,
      List.isEmpty_eq_false_iff.2 htype, Bool.or_self, Bool.false_eq_true, if_false]

/-- A blank text is no pair: there is no colon in it. -/
theorem pairOf?_blank {raw : List Char} (h : (trim raw).isEmpty = true) : pairOf? raw = none := by
  refine Option.eq_none_iff_forall_ne_some.2 fun ⟨name, type⟩ hpair => ?_
  obtain ⟨left, right, rfl, -⟩ := pairOf?_eq_some_iff.1 hpair
  have hcolon := isEmpty_trim.1 h ':' (by simp)
  cases hcolon

/-- Methods have the parameters that the search for functions gives them. -/
theorem quietParameters_eq (cs : List Char) : quietParameters cs = parameters cs := by
  rw [parameters, pairs, listEntries, List.filterMap_filterMap, List.map_filterMap, quietParameters]
  refine List.filterMap_congr fun h _ => ?_
  unfold entryOf?
  split
  next hblank => rw [pairOf?_blank hblank]; rfl
  next =>
    split
    next name type hpair => rw [hpair]; rfl
    next hpair => rw [hpair]; rfl

/-- A header is read in the same way inside and outside a class. -/
theorem signature_eq (d : Document) (offset : Nat) (owner : Option String)
    (h : Hit Pattern.Header) :
    signature d offset owner h =
      { name := String.ofList h.value.name
        parameters := parameters h.value.parameters.text
        returnType := String.ofList h.value.returnType
        range := some (d.rangeOf (offset + h.start : Nat) (offset + h.stop : Nat))
        uri := some d.uri
        owner := owner } := by
  rw [signature, quietParameters_eq, ite_self]

end Symbol

end BurnLens
