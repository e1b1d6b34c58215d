import BurnLens.Proofs.Text.Search

/-!
# Where a search stands

`hitsBehind r front cs` is the search for `r` in the text `cs` behind the text `front`, from which
its offsets and the character in front are taken. The search stands at a place of the text if no
match leads over it (`Passes`). The search stands where a match starts (`exists_passes`); where it
does not stand, one of its matches leads over the place (`passes_or_covered`).
-/

namespace BurnLens.Text

variable {α : Type} {r : Recogniser α}

/-- The matches in `cs` behind `front`. -/
def hitsBehind (r : Recogniser α) (front cs : List Char) : List (Hit α) :=
  hitsFrom r front.getLast? front.length 0 cs

theorem hitsBehind_nil_front (cs : List Char) : hitsBehind r [] cs = hits r cs := rfl

@[simp] theorem hitsBehind_nil (front : List Char) : hitsBehind r front [] = [] := rfl

theorem hitsFrom_eq_hitsBehind (front cs : List Char) (skip : Nat) :
    hitsFrom r front.getLast? front.length skip cs =
      hitsBehind r (front ++ cs.take skip) (cs.drop skip) := by
  induction skip generalizing front cs with
  | zero => simp [hitsBehind]
  | succ skip ih =>
    cases cs with
    | nil => simp [hitsFrom]
    | cons c cs =>
      have hstep := ih (front ++ [c]) cs
      rw [List.getLast?_concat, List.length_append, List.append_assoc] at hstep
      exact hstep

theorem hitsBehind_cons_none {front : List Char} {c : Char} {cs : List Char}
    (h : r front.getLast? (c :: cs) = none) :
    hitsBehind r front (c :: cs) = hitsBehind r (front ++ [c]) cs := by
  rw [hitsBehind, hitsFrom]
  simp only [h]
  simp [hitsBehind]

/-- No match starts at the characters of the piece. -/
theorem hitsBehind_append_none (front : List Char) {piece : List Char}
    (h : ∀ c ∈ piece, ∀ before cs, r before (c :: cs) = none) (cs : List Char) :
    hitsBehind r front (piece ++ cs) = hitsBehind r (front ++ piece) cs := by
  induction piece generalizing front with
  | nil => simp
  | cons c piece ih =>
    have hrest := ih (front ++ [c]) fun d hd => h d (List.mem_cons_of_mem _ hd)
    rw [List.cons_append, hitsBehind_cons_none (h c List.mem_cons_self _ _), hrest]
    simp

/-- A match, and the search behind it. -/
theorem hitsBehind_append_some {front u rest : List Char} {a : α} (hu : u ≠ [])
    (h : r front.getLast? (u ++ rest) = some (a, rest)) :
    hitsBehind r front (u ++ rest) =
      ⟨front.length, front.length + u.length, a⟩ :: hitsBehind r (front ++ u) rest := by
  cases u with
  | nil => exact absurd rfl hu
  | cons c u =>
    have hlength : (c :: (u ++ rest)).length - rest.length = u.length + 1 := by
      simp only [List.length_cons, List.length_append]
      omega
    have hskip := hitsFrom_eq_hitsBehind (r := r) (front ++ [c]) (u ++ rest) u.length
    rw [List.getLast?_concat, List.length_append, List.take_left, List.drop_left,
      List.append_assoc] at hskip
    rw [List.cons_append] at h ⊢
    rw [hitsBehind, hitsFrom]
    simp only [h, hlength, Nat.add_sub_cancel]
    exact congrArg _ hskip

/-- A match is read where it starts. -/
theorem exists_of_mem_hitsBehind {front cs : List Char} {h : Hit α}
    (hmem : h ∈ hitsBehind r front cs) :
    ∃ piece y rest, cs = piece ++ y ∧ r (front ++ piece).getLast? y = some (h.value, rest) ∧
      h.start = (front ++ piece).length := by
  induction hn : cs.length using Nat.strongRecOn generalizing front cs with
  | _ n ih =>
    subst hn
    cases cs with
    | nil => cases hmem
    | cons c cs =>
      -- Where the search goes on does not matter, only that it is further on.
      suffices hlater : ∀ k, h ∈ hitsBehind r (front ++ [c] ++ cs.take k) (cs.drop k) →
          ∃ piece y rest, c :: cs = piece ++ y ∧
            r (front ++ piece).getLast? y = some (h.value, rest) ∧
            h.start = (front ++ piece).length by
        cases hc : r front.getLast? (c :: cs) with
        | none =>
          rw [hitsBehind_cons_none hc] at hmem
          exact hlater 0 (by simpa using hmem)
        | some m =>
          obtain ⟨a, rest⟩ := m
          rw [hitsBehind, hitsFrom] at hmem
          simp only [hc] at hmem
          rcases List.mem_cons.1 hmem with rfl | hmem
          · exact ⟨[], c :: cs, rest, rfl, by simpa using hc, by simp⟩
          · have hskip := hitsFrom_eq_hitsBehind (r := r) (front ++ [c]) cs
              ((c :: cs).length - rest.length - 1)
            rw [List.getLast?_concat, List.length_append] at hskip
            exact hlater _ (hskip ▸ hmem)
      intro k hk
      have hlength : (cs.drop k).length < (c :: cs).length := by
        simp only [List.length_drop, List.length_cons]
        omega
      obtain ⟨piece, y, rest, hcs, hread, hstart⟩ := ih _ hlength hk rfl
      refine ⟨c :: (cs.take k ++ piece), y, rest, ?_, ?_, ?_⟩
      · rw [List.cons_append, List.append_assoc, ← hcs, List.take_append_drop]
      · simpa using hread
      · simpa using hstart

/-- A match reads at least one character and leaves the rest as it is. -/
def Reads (r : Recogniser α) : Prop :=
  ∀ before cs a rest, r before cs = some (a, rest) → ∃ u, u ≠ [] ∧ cs = u ++ rest

/-- Behind `front` the search passes over `piece` to the text `rest`, with the matches found on the
way. -/
inductive Passes (r : Recogniser α) (rest : List Char) :
    List Char → List Char → List (Hit α) → Prop
  | nil {front} : Passes r rest front [] []
  | skip {front c piece found} : r front.getLast? (c :: (piece ++ rest)) = none →
      Passes r rest (front ++ [c]) piece found → Passes r rest front (c :: piece) found
  | take {front u piece a found} : u ≠ [] →
      r front.getLast? (u ++ (piece ++ rest)) = some (a, piece ++ rest) →
      Passes r rest (front ++ u) piece found →
      Passes r rest front (u ++ piece) (⟨front.length, front.length + u.length, a⟩ :: found)

namespace Passes
variable {front piece rest : List Char} {found : List (Hit α)}

theorem hitsBehind_eq (h : Passes r rest front piece found) :
    hitsBehind r front (piece ++ rest) = found ++ hitsBehind r (front ++ piece) rest := by
  induction h with
  | nil => simp
  | skip hnone _ ih => rw [List.cons_append, hitsBehind_cons_none hnone, ih]; simp
  | take hu hsome _ ih => rw [List.append_assoc, hitsBehind_append_some hu hsome, ih]; simp

/-- Another text behind the place: the search passes over the piece as before if what failed fails
and what was read in the piece is read again. -/
theorem congr {rest' : List Char} (h : Passes r rest front piece found)
    (hnone : ∀ x y, piece = x ++ y → y ≠ [] → r (front ++ x).getLast? (y ++ rest) = none →
      r (front ++ x).getLast? (y ++ rest') = none)
    (hsome : ∀ x u y a, piece = x ++ (u ++ y) → u ≠ [] →
      r (front ++ x).getLast? (u ++ (y ++ rest)) = some (a, y ++ rest) →
      r (front ++ x).getLast? (u ++ (y ++ rest')) = some (a, y ++ rest')) :
    Passes r rest' front piece found := by
  induction h with
  | nil => exact .nil
  | @skip front c piece found hr _ ih =>
    refine .skip ?_ (ih ?_ ?_)
    · have := hnone [] (c :: piece) rfl (List.cons_ne_nil _ _)
      simp only [List.append_nil, List.cons_append] at this
      exact this hr
    · intro x y hxy hy
      have := hnone (c :: x) y (by rw [hxy, List.cons_append]) hy
      rwa [List.append_assoc, List.singleton_append]
    · intro x u y a hxy hu
      have := hsome (c :: x) u y a (by rw [hxy, List.cons_append]) hu
      rwa [List.append_assoc, List.singleton_append]
  | @take front u piece a found hu hr _ ih =>
    refine .take hu ?_ (ih ?_ ?_)
    · have := hsome [] u piece a rfl hu
      rw [List.append_nil] at this
      exact this hr
    · intro x y hxy hy
      rw [List.append_assoc]
      exact hnone (u ++ x) y (by rw [hxy, List.append_assoc]) hy
    · intro x v y b hxy hv
      rw [List.append_assoc]
      exact hsome (u ++ x) v y b (by rw [hxy, List.append_assoc]) hv

end Passes

/-- The search stands where a match starts, with the matches in front of that. -/
theorem exists_passes (hr : Reads r) {front cs : List Char} {before after : List (Hit α)}
    {h : Hit α} (hfound : hitsBehind r front cs = before ++ h :: after) :
    ∃ piece u rest, cs = piece ++ (u ++ rest) ∧ u ≠ [] ∧
      Passes r (u ++ rest) front piece before ∧
      r (front ++ piece).getLast? (u ++ rest) = some (h.value, rest) ∧
      h.start = (front ++ piece).length := by
  induction hn : cs.length using Nat.strongRecOn generalizing front cs before with
  | _ n ih =>
    subst hn
    cases cs with
    | nil => simp at hfound
    | cons c cs =>
      cases hc : r front.getLast? (c :: cs) with
      | none =>
        rw [hitsBehind_cons_none hc] at hfound
        obtain ⟨piece, u, rest, rfl, hu, hpass, hsome, heq⟩ := ih cs.length (by simp) hfound rfl
        rw [List.append_assoc, List.singleton_append] at hsome heq
        exact ⟨c :: piece, u, rest, rfl, hu, .skip hc hpass, hsome, heq⟩
      | some m =>
        obtain ⟨a, tail⟩ := m
        obtain ⟨v, hv, heqv⟩ := hr _ _ _ _ hc
        rw [heqv] at hc
        rw [heqv, hitsBehind_append_some hv hc] at hfound
        cases before with
        | nil =>
          obtain ⟨rfl, -⟩ := List.cons.inj hfound
          exact ⟨[], v, tail, heqv, hv, .nil, by simpa using hc, by simp⟩
        | cons m before =>
          obtain ⟨rfl, hrest⟩ := List.cons.inj hfound
          have hpos := List.length_pos_iff.2 hv
          obtain ⟨piece, u, rest, rfl, hu, hpass, hsome, heq⟩ :=
            ih tail.length (by rw [heqv, List.length_append]; omega) hrest rfl
          rw [List.append_assoc] at hsome heq
          exact ⟨v ++ piece, u, rest, by rw [heqv, List.append_assoc], hu, .take hv hc hpass,
            hsome, heq⟩

/-- The search stands at a place, or a match leads over it. -/
theorem passes_or_covered (hr : Reads r) (front piece rest : List Char) :
    (∃ found, Passes r rest front piece found) ∨
      ∃ x w a rest', piece = x ++ w ∧ w ≠ [] ∧ rest'.length < rest.length ∧
        r (front ++ x).getLast? (w ++ rest) = some (a, rest') ∧
        ⟨(front ++ x).length, (front ++ piece ++ rest).length - rest'.length, a⟩ ∈
          hitsBehind r front (piece ++ rest) := by
  induction hn : piece.length using Nat.strongRecOn generalizing front piece with
  | _ n ih =>
    subst hn
    cases piece with
    | nil => exact .inl ⟨[], .nil⟩
    | cons c piece =>
      cases hc : r front.getLast? (c :: (piece ++ rest)) with
      | none =>
        rcases ih piece.length (by simp) (front ++ [c]) piece rfl with
          ⟨found, hpass⟩ | ⟨x, w, a, rest', hxw, hw, hlt, hsome, hmem⟩
        · exact .inl ⟨found, .skip hc hpass⟩
        · refine .inr ⟨c :: x, w, a, rest', by rw [hxw, List.cons_append], hw, hlt, ?_, ?_⟩
          · rwa [List.append_assoc, List.singleton_append] at hsome
          · rw [List.cons_append, hitsBehind_cons_none hc]
            simpa using hmem
      | some m =>
        obtain ⟨a, tail⟩ := m
        obtain ⟨u, hu, heq⟩ := hr _ _ _ _ hc
        have hfound := hitsBehind_append_some hu (heq ▸ hc)
        rw [← heq, ← List.cons_append] at hfound
        rcases List.append_eq_append_iff.1 (heq.symm.trans (List.cons_append).symm) with
          ⟨v, hv, rfl⟩ | ⟨v, rfl, hv⟩
        · -- The match ends in the piece.
          have hpos := List.length_pos_iff.2 hu
          have hlength : v.length < (c :: piece).length := by rw [hv, List.length_append]; omega
          rcases ih v.length hlength (front ++ u) v rfl with
            ⟨found, hpass⟩ | ⟨x, w, b, rest', hxw, hw, hlt, hsome, hmem⟩
          · rw [heq] at hc
            rw [hv]
            exact .inl ⟨_, .take hu hc hpass⟩
          · refine .inr ⟨u ++ x, w, b, rest', by rw [hv, hxw, List.append_assoc], hw, hlt, ?_, ?_⟩
            · rwa [List.append_assoc] at hsome
            · rw [hfound, hv]
              refine List.mem_cons_of_mem _ ?_
              simpa only [List.append_assoc] using hmem
        · -- The match leads over the place, or ends there.
          cases v with
          | nil =>
            rw [List.nil_append] at hv
            subst hv
            have hpass : Passes r rest front ((c :: piece) ++ [])
                [⟨front.length, front.length + (c :: piece).length, a⟩] :=
              .take (List.cons_ne_nil _ _) hc .nil
            exact .inl ⟨_, by rwa [List.append_nil] at hpass⟩
          | cons e v =>
            refine .inr ⟨[], c :: piece, a, tail, rfl, List.cons_ne_nil _ _, ?_, ?_, ?_⟩
            · simp only [hv, List.length_append, List.length_cons]
              omega
            · simpa using hc
            · rw [hfound]
              refine List.mem_cons.2 (.inl ?_)
              simp only [List.append_nil, hv, List.length_append, List.length_cons, Hit.mk.injEq,
                true_and, and_true]
              omega

/-- Without a match no text is one. -/
theorem eq_none_of_hitsBehind_eq_nil (hr : Reads r) {front cs x y : List Char}
    (h : hitsBehind r front cs = []) (hcs : cs = x ++ y) (hy : y ≠ []) :
    r (front ++ x).getLast? y = none := by
  subst hcs
  rcases passes_or_covered hr front x y with ⟨found, hpass⟩ | ⟨_, _, _, _, _, _, _, _, hmem⟩
  · rw [hpass.hitsBehind_eq] at h
    cases hsome : r (front ++ x).getLast? y with
    | none => rfl
    | some m =>
      obtain ⟨a, rest⟩ := m
      obtain ⟨u, hu, rfl⟩ := hr _ _ _ _ hsome
      rw [hitsBehind_append_some hu hsome] at h
      simp at h
  · rw [h] at hmem
    cases hmem

/-! ### The same text elsewhere -/

/-- The match so much further on. -/
def Hit.shift (n : Nat) (m : Hit α) : Hit α :=
  ⟨n + m.start, n + m.stop, m.value⟩

/-- A recogniser that does not care what stands in front finds the same elsewhere. -/
theorem hitsBehind_anywhere (r : List Char → Option (α × List Char)) (front cs : List Char) :
    hitsBehind (anywhere r) front cs = (hits (anywhere r) cs).map (Hit.shift front.length) := by
  have hfrom : ∀ n before before' pos skip, hitsFrom (anywhere r) before (n + pos) skip cs =
      (hitsFrom (anywhere r) before' pos skip cs).map (Hit.shift n) := by
    intro n
    induction cs with
    | nil => intro _ _ _ _; rfl
    | cons c cs ih =>
      intro before before' pos skip
      cases skip with
      | succ skip => exact ih (some c) (some c) (pos + 1) skip
      | zero =>
        rw [hitsFrom, hitsFrom]
        have hsame : anywhere r before (c :: cs) = anywhere r before' (c :: cs) := rfl
        rw [hsame]
        cases anywhere r before' (c :: cs) with
        | none => exact ih (some c) (some c) (pos + 1) 0
        | some m =>
          simp only [List.map_cons, Hit.shift, Nat.add_assoc]
          exact congrArg _ (ih (some c) (some c) (pos + 1) _)
  exact hfrom front.length front.getLast? none 0 0

end BurnLens.Text
