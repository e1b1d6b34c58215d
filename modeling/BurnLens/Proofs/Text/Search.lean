import BurnLens.Text.Scan

/-!
# Leftmost search, piece by piece

`search r pos cs` is the search for `r` in the text `cs` that starts at offset `pos` of something
larger. The lemmas split a search at a point of the text: behind a match, behind a piece in which
nothing matches (`search_append_none`), and behind a piece that no match leaves
(`search_append_within`). A recogniser looks ahead as far as it likes, so each of them names the
text behind the piece.
-/

namespace BurnLens.Text

variable {α : Type} {r : List Char → Option (α × List Char)}

/-- The matches in a text that stands at offset `pos`. -/
def search (r : List Char → Option (α × List Char)) (pos : Nat) (cs : List Char) : List (Hit α) :=
  hitsFrom (anywhere r) none pos 0 cs

theorem hits_anywhere (cs : List Char) : hits (anywhere r) cs = search r 0 cs := rfl

@[simp] theorem search_nil (pos : Nat) : search r pos [] = [] := rfl

/-- Skipping is searching further on; what stands in front does not count. -/
theorem hitsFrom_anywhere (before : Option Char) (pos skip : Nat) (cs : List Char) :
    hitsFrom (anywhere r) before pos skip cs = search r (pos + skip) (cs.drop skip) := by
  induction skip generalizing before pos cs with
  | zero => cases cs <;> rfl
  | succ skip ih =>
    cases cs with
    | nil => rfl
    | cons c cs =>
      rw [hitsFrom, ih, List.drop_succ_cons]
      congr 1
      omega

theorem search_cons_none {c : Char} {cs : List Char} (h : r (c :: cs) = none) (pos : Nat) :
    search r pos (c :: cs) = search r (pos + 1) cs := by
  have hr : anywhere r none (c :: cs) = none := h
  rw [search, hitsFrom]
  simp only [hr]
  exact hitsFrom_anywhere (some c) (pos + 1) 0 cs

/-- A match, and the search behind it. -/
theorem search_append_some {a : α} {piece rest : List Char} (hne : piece ≠ [])
    (h : r (piece ++ rest) = some (a, rest)) (pos : Nat) :
    search r pos (piece ++ rest) =
      ⟨pos, pos + piece.length, a⟩ :: search r (pos + piece.length) rest := by
  cases piece with
  | nil => exact absurd rfl hne
  | cons c cs =>
    have hr : anywhere r none (c :: (cs ++ rest)) = some (a, rest) := h
    have hlength : (c :: (cs ++ rest)).length - rest.length = cs.length + 1 := by
      simp only [List.length_cons, List.length_append]
      omega
    rw [search, List.cons_append, hitsFrom]
    simp only [hr]
    rw [hlength, hitsFrom_anywhere, Nat.add_sub_cancel, List.drop_left, List.length_cons]
    congr 2
    omega

/-- No match starts in the piece. -/
theorem search_append_none {piece rest : List Char}
    (h : ∀ x y, piece = x ++ y → y ≠ [] → r (y ++ rest) = none) (pos : Nat) :
    search r pos (piece ++ rest) = search r (pos + piece.length) rest := by
  induction piece generalizing pos with
  | nil => rfl
  | cons c piece ih =>
    have hhere : r (c :: (piece ++ rest)) = none := h [] (c :: piece) rfl (List.cons_ne_nil _ _)
    have hbehind : ∀ x y, piece = x ++ y → y ≠ [] → r (y ++ rest) = none := by
      intro x y hxy
      exact h (c :: x) y (by rw [hxy, List.cons_append])
    rw [List.cons_append, search_cons_none hhere, ih hbehind, List.length_cons]
    congr 1
    omega

theorem le_start_of_mem_search {pos : Nat} {cs : List Char} {h : Hit α}
    (hmem : h ∈ search r pos cs) : pos ≤ h.start := by
  suffices hall : ∀ before skip, h ∈ hitsFrom (anywhere r) before pos skip cs → pos ≤ h.start from
    hall none 0 hmem
  clear hmem
  induction cs generalizing pos with
  | nil => simp [hitsFrom]
  | cons c cs ih =>
    intro before skip hmem
    cases skip with
    | succ skip => exact Nat.le_of_succ_le (ih _ _ hmem)
    | zero =>
      rw [hitsFrom] at hmem
      cases hr : anywhere r before (c :: cs) with
      | none =>
        simp only [hr] at hmem
        exact Nat.le_of_succ_le (ih _ _ hmem)
      | some m =>
        simp only [hr] at hmem
        rcases List.mem_cons.1 hmem with rfl | hmem
        · exact Nat.le_refl pos
        · exact Nat.le_of_succ_le (ih _ _ hmem)

/-- Matches start in the piece, but none of them leaves it. -/
theorem search_append_within {piece rest : List Char}
    (h : ∀ x y a rest', piece = x ++ y → y ≠ [] → r (y ++ rest) = some (a, rest') →
      ∃ u v, u ≠ [] ∧ y = u ++ v ∧ rest' = v ++ rest) (pos : Nat) :
    ∃ inner, search r pos (piece ++ rest) = inner ++ search r (pos + piece.length) rest ∧
      ∀ h ∈ inner, pos ≤ h.start ∧ h.stop ≤ pos + piece.length := by
  induction hn : piece.length using Nat.strongRecOn generalizing piece pos with
  | _ n ih =>
    subst hn
    cases piece with
    | nil => exact ⟨[], rfl, by simp⟩
    | cons c piece =>
      -- What holds of the piece holds of what is left of it behind a match or a character.
      have hpart : ∀ u v, c :: piece = u ++ v → ∀ x y a rest', v = x ++ y → y ≠ [] →
          r (y ++ rest) = some (a, rest') → ∃ u v, u ≠ [] ∧ y = u ++ v ∧ rest' = v ++ rest := by
        intro u v huv x y a rest' hv
        exact h (u ++ x) y a rest' (by rw [huv, hv, List.append_assoc])
      cases hr : r (c :: (piece ++ rest)) with
      | none =>
        obtain ⟨inner, heq, hin⟩ := ih piece.length (by simp) (hpart [c] piece rfl) (pos + 1) rfl
        refine ⟨inner, ?_, ?_⟩
        · rw [List.cons_append, search_cons_none hr, heq, List.length_cons]
          congr 2
          omega
        · intro m hm
          have := hin m hm
          simp only [List.length_cons]
          omega
      | some m =>
        obtain ⟨a, rest'⟩ := m
        obtain ⟨u, v, hu, huv, rfl⟩ := h [] (c :: piece) a rest' rfl (List.cons_ne_nil _ _) hr
        have hlength : (c :: piece).length = u.length + v.length := by rw [huv, List.length_append]
        have hpos := List.length_pos_iff.2 hu
        obtain ⟨inner, heq, hin⟩ := ih v.length (by omega) (hpart u v huv) (pos + u.length) rfl
        refine ⟨⟨pos, pos + u.length, a⟩ :: inner, ?_, ?_⟩
        · have hmatch : r (u ++ (v ++ rest)) = some (a, v ++ rest) := by
            rw [← List.append_assoc, ← huv]
            exact hr
          rw [huv, List.append_assoc, search_append_some hu hmatch, heq, List.cons_append,
            List.length_append, Nat.add_assoc]
        · intro m hm
          rcases List.mem_cons.1 hm with rfl | hm
          · exact ⟨Nat.le_refl pos, by simp only; omega⟩
          · have := hin m hm
            omega

end BurnLens.Text
