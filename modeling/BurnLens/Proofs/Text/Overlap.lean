import Mathlib.Data.List.Pairwise
import BurnLens.Proofs.Text.Passes

/-!
# Matches that end together

A recogniser may match at more places than a search finds, since the search goes on behind each
match that it has found. If matches that overlap always end at the same place (`EndTogether`), the
search finds for each end the match that starts first (`mem_hits_iff`). Then it is known what
becomes of the matches of a part when the whole text is searched: each is found again, unless a
match that starts in front of the part ends where it ends, and only the first match of the part can
be lost that way (`mem_hits_part_iff`, `head?_of_lost`).
-/

namespace BurnLens.Text

variable {α : Type} {r : List Char → Option (α × List Char)} {cs front part back : List Char}
  {m f : Hit α}

theorem exists_append_of_length_le {x y a b : List Char} (h : x ++ a = y ++ b)
    (hle : y.length ≤ x.length) : ∃ w, x = y ++ w ∧ b = w ++ a := by
  rcases List.append_eq_append_iff.1 h with ⟨w, rfl, hw⟩ | ⟨w, rfl, hw⟩
  · rw [List.length_append] at hle
    obtain rfl : w = [] := List.length_eq_zero_iff.1 (by omega)
    exact ⟨[], by simp, hw.symm⟩
  · exact ⟨w, rfl, hw⟩

/-! ### Matches, found or not -/

/-- The recogniser matches there, whether a search finds the match or not. -/
def IsMatch (r : List Char → Option (α × List Char)) (cs : List Char) (m : Hit α) : Prop :=
  ∃ front u rest, cs = front ++ (u ++ rest) ∧ u ≠ [] ∧ r (u ++ rest) = some (m.value, rest) ∧
    m.start = front.length ∧ m.stop = front.length + u.length

theorem IsMatch.lt (h : IsMatch r cs m) : m.start < m.stop := by
  obtain ⟨front, u, rest, -, hu, -, hstart, hstop⟩ := h
  have := List.length_pos_iff.2 hu
  omega

theorem IsMatch.le (h : IsMatch r cs m) : m.stop ≤ cs.length := by
  obtain ⟨front, u, rest, rfl, -, -, -, hstop⟩ := h
  simp only [List.length_append]
  omega

theorem IsMatch.value_eq (hm : IsMatch r cs m) (hf : IsMatch r cs f) (h : f.start = m.start) :
    f = m := by
  obtain ⟨x, u, rest, rfl, -, hread, hstart, hstop⟩ := hm
  obtain ⟨y, v, rest', hcs, -, hread', hstart', hstop'⟩ := hf
  obtain ⟨rfl, heq⟩ := List.append_inj hcs (by omega)
  rw [← heq] at hread'
  obtain ⟨hvalue, hrest⟩ := Prod.mk.inj (Option.some.inj (hread.symm.trans hread'))
  have hlength := congrArg List.length heq
  rw [hrest, List.length_append, List.length_append] at hlength
  cases f
  cases m
  simp only [Hit.mk.injEq] at *
  exact ⟨h, by omega, hvalue.symm⟩

theorem isMatch_of_mem_hits (hr : Reads (anywhere r)) (h : m ∈ hits (anywhere r) cs) :
    IsMatch r cs m := by
  suffices hall : ∀ front, m ∈ hitsBehind (anywhere r) front cs → IsMatch r (front ++ cs) m from
    hall [] h
  clear h
  induction hn : cs.length using Nat.strongRecOn generalizing cs with
  | _ n ih =>
    subst hn
    intro front hmem
    cases cs with
    | nil => cases hmem
    | cons c cs =>
      cases hc : anywhere r front.getLast? (c :: cs) with
      | none =>
        rw [hitsBehind_cons_none hc] at hmem
        have hlater := ih cs.length (by simp) rfl _ hmem
        rwa [List.append_assoc] at hlater
      | some p =>
        obtain ⟨a, rest⟩ := p
        obtain ⟨u, hu, heq⟩ := hr _ _ _ _ hc
        rw [heq] at hc hmem ⊢
        rw [hitsBehind_append_some hu hc] at hmem
        rcases List.mem_cons.1 hmem with rfl | hmem
        · exact ⟨front, u, rest, rfl, hu, hc, rfl, rfl⟩
        · have hlength := congrArg List.length heq
          have hpos := List.length_pos_iff.2 hu
          rw [List.length_append] at hlength
          have hlater := ih rest.length (by omega) rfl _ hmem
          rwa [List.append_assoc] at hlater

/-- The matches found do not overlap. -/
theorem hitsFrom_apart (r : Recogniser α) (before : Option Char) (pos skip : Nat)
    (cs : List Char) :
    (∀ h ∈ hitsFrom r before pos skip cs, pos + skip ≤ h.start) ∧
      (hitsFrom r before pos skip cs).Pairwise fun h g => h.stop ≤ g.start := by
  induction cs generalizing before pos skip with
  | nil => exact ⟨nofun, .nil⟩
  | cons c cs ih =>
    rcases skip with _ | skip
    · rw [hitsFrom]
      rcases r before (c :: cs) with _ | ⟨a, rest⟩
      · obtain ⟨hlater, hapart⟩ := ih (some c) (pos + 1) 0
        exact ⟨fun h hmem => Nat.le_of_succ_le (hlater h hmem), hapart⟩
      · obtain ⟨hlater, hapart⟩ := ih (some c) (pos + 1) ((c :: cs).length - rest.length - 1)
        refine ⟨?_, List.pairwise_cons.2 ⟨?_, hapart⟩⟩
        · intro h hmem
          rcases List.mem_cons.1 hmem with rfl | hmem
          · exact Nat.le_refl pos
          · have := hlater h hmem
            omega
        · intro h hmem
          have := hlater h hmem
          simp only
          omega
    · obtain ⟨hlater, hapart⟩ := ih (some c) (pos + 1) skip
      refine ⟨fun h hmem => ?_, hapart⟩
      have := hlater h hmem
      omega

theorem hits_apart (r : Recogniser α) (cs : List Char) :
    (hits r cs).Pairwise fun h g => h.stop ≤ g.start :=
  (hitsFrom_apart r none 0 0 cs).2

theorem eq_or_apart {r : Recogniser α} (hm : m ∈ hits r cs) (hf : f ∈ hits r cs) :
    m = f ∨ m.stop ≤ f.start ∨ f.stop ≤ m.start := by
  have hsymm : Std.Symm fun a b : Hit α => a = b ∨ a.stop ≤ b.start ∨ b.stop ≤ a.start :=
    ⟨fun _ _ h => h.imp Eq.symm Or.symm⟩
  have hpairs : (hits r cs).Pairwise fun a b => a = b ∨ a.stop ≤ b.start ∨ b.stop ≤ a.start :=
    (hits_apart r cs).imp fun h => .inr (.inl h)
  exact hpairs.forall_of_forall (fun _ _ => .inl rfl) hm hf

/-! ### Overlapping matches -/

/-- A match that leads into another one ends where that one ends. -/
def EndTogether (r : List Char → Option (α × List Char)) : Prop :=
  ∀ w cs a rest b rest', w ≠ [] → r cs = some (a, rest) → r (w ++ cs) = some (b, rest') →
    rest'.length < cs.length → rest' = rest

/-- What is behind a match does not matter. -/
def Local (r : List Char → Option (α × List Char)) : Prop :=
  ∀ u rest a, r (u ++ rest) = some (a, rest) → ∀ rest', r (u ++ rest') = some (a, rest')

theorem IsMatch.stop_eq (he : EndTogether r) (hm : IsMatch r cs m) (hf : IsMatch r cs f)
    (hstart : f.start < m.start) (hover : m.start < f.stop) : f.stop = m.stop := by
  obtain ⟨x, u, rest, rfl, -, hread, hx, hu⟩ := hm
  obtain ⟨y, v, rest', hcs, -, hread', hy, hv⟩ := hf
  obtain ⟨w, rfl, hbehind⟩ := exists_append_of_length_le hcs (by omega)
  have hlength := congrArg List.length hbehind
  simp only [List.length_append] at hlength hx hu
  have hw : w ≠ [] := by
    rw [← List.length_pos_iff]
    omega
  rw [hbehind] at hread'
  cases he w _ _ _ _ _ hw hread hread' (by rw [List.length_append]; omega)
  omega

/-- A match in a part is one in the whole text. -/
theorem IsMatch.shift (hl : Local r) (h : IsMatch r part m) :
    IsMatch r (front ++ (part ++ back)) (m.shift front.length) := by
  obtain ⟨x, u, rest, rfl, hu, hread, hstart, hstop⟩ := h
  refine ⟨front ++ x, u, rest ++ back, by simp, hu, hl _ _ _ hread _, ?_, ?_⟩
  · rw [List.length_append, ← hstart]
    rfl
  · rw [List.length_append, Nat.add_assoc, ← hstop]
    rfl

/-- A match in the whole text that lies in a part is one in the part. -/
theorem IsMatch.exists_shift (hl : Local r) (h : IsMatch r (front ++ (part ++ back)) f)
    (hstart : front.length ≤ f.start) (hstop : f.stop ≤ front.length + part.length) :
    ∃ g, IsMatch r part g ∧ f = g.shift front.length := by
  obtain ⟨x, u, rest, hcs, hu, hread, hx, hend⟩ := h
  obtain ⟨y, rfl, hbehind⟩ := exists_append_of_length_le hcs.symm (by omega)
  rw [List.length_append] at hx hend
  rw [← List.append_assoc] at hbehind
  obtain ⟨z, rfl, rfl⟩ :=
    exists_append_of_length_le hbehind (by rw [List.length_append]; omega)
  refine ⟨⟨y.length, y.length + u.length, f.value⟩, ?_, ?_⟩
  · exact ⟨y, u, z, List.append_assoc y u z, hu, hl _ _ _ hread _, rfl, rfl⟩
  · cases f
    simp only [Hit.shift, Hit.mk.injEq, and_true] at *
    omega

section
variable (hr : Reads (anywhere r)) (he : EndTogether r)
include hr he

/-- Where a match ends, one is found that ends there. -/
theorem exists_hit_of_isMatch (h : IsMatch r cs m) :
    ∃ f ∈ hits (anywhere r) cs, f.start ≤ m.start ∧ f.stop = m.stop := by
  obtain ⟨front, u, rest, rfl, hu, hread, hstart, hstop⟩ := h
  rcases passes_or_covered hr [] front (u ++ rest) with
    ⟨found, hpass⟩ | ⟨x, w, a, rest', rfl, hw, hlt, hsome, hmem⟩
  · have hfound := hpass.hitsBehind_eq
    rw [hitsBehind_append_some hu hread] at hfound
    refine ⟨⟨front.length, front.length + u.length, m.value⟩, ?_, Nat.le_of_eq hstart.symm,
      hstop.symm⟩
    rw [← hitsBehind_nil_front, hfound]
    simp
  · cases he w _ _ _ _ _ hw hread hsome hlt
    refine ⟨_, hmem, ?_, ?_⟩
    · rw [hstart]
      simp
    · rw [hstop]
      simp only [List.nil_append, List.length_append]
      omega

/-- Of the matches that end at one place the search finds the one that starts first. -/
theorem mem_hits_iff : m ∈ hits (anywhere r) cs ↔
    IsMatch r cs m ∧ ∀ f, IsMatch r cs f → f.stop = m.stop → m.start ≤ f.start := by
  constructor
  · intro hmem
    have hm := isMatch_of_mem_hits hr hmem
    refine ⟨hm, fun f hf hstop => ?_⟩
    obtain ⟨g, hg, hle, hend⟩ := exists_hit_of_isMatch hr he hf
    have hlt := (isMatch_of_mem_hits hr hg).lt
    have hmlt := hm.lt
    rcases eq_or_apart hmem hg with rfl | hapart | hapart
    · exact hle
    · omega
    · omega
  · rintro ⟨hm, hfirst⟩
    obtain ⟨f, hmem, hle, hstop⟩ := exists_hit_of_isMatch hr he hm
    have hf := isMatch_of_mem_hits hr hmem
    have hge := hfirst f hf hstop
    rwa [← hm.value_eq hf (by omega)]

/-- A match found in a part is found in the whole text, unless one that starts in front of the part
ends where it ends. -/
theorem mem_hits_part_iff (hl : Local r) (hm : m ∈ hits (anywhere r) part) :
    m.shift front.length ∈ hits (anywhere r) (front ++ (part ++ back)) ↔
      ∀ f ∈ hits (anywhere r) (front ++ (part ++ back)), f.start < front.length →
        f.stop ≠ front.length + m.stop := by
  have hmatch := isMatch_of_mem_hits hr hm
  constructor
  · intro hmem f hf hfront hstop
    have hlt := (isMatch_of_mem_hits hr hf).lt
    have hle : front.length ≤ (m.shift front.length).start := Nat.le_add_right _ _
    have hshift := (isMatch_of_mem_hits hr hmem).lt
    have hend : f.stop = (m.shift front.length).stop := hstop
    rcases eq_or_apart hf hmem with rfl | hapart | hapart
    · omega
    · omega
    · omega
  · intro hnone
    refine (mem_hits_iff hr he).2 ⟨hmatch.shift hl, fun f hf hstop => ?_⟩
    by_cases hfront : f.start < front.length
    · obtain ⟨g, hg, hle, hend⟩ := exists_hit_of_isMatch hr he hf
      exact absurd (hend.trans hstop) (hnone g hg (by omega))
    · have hin : f.stop ≤ front.length + part.length := by
        rw [hstop]
        exact Nat.add_le_add_left hmatch.le _
      obtain ⟨g, hg, rfl⟩ := hf.exists_shift hl (Nat.le_of_not_lt hfront) hin
      exact Nat.add_le_add_left
        (((mem_hits_iff hr he).1 hm).2 g hg (Nat.add_left_cancel hstop)) _

/-- Only the first match in a part can be lost in the whole text. -/
theorem head?_of_lost (hl : Local r) (hm : m ∈ hits (anywhere r) part)
    (hf : f ∈ hits (anywhere r) (front ++ (part ++ back))) (hfront : f.start < front.length)
    (hstop : f.stop = front.length + m.stop) : (hits (anywhere r) part).head? = some m := by
  have hapart := hits_apart (anywhere r) part
  cases hpart : hits (anywhere r) part with
  | nil =>
    rw [hpart] at hm
    cases hm
  | cons g found =>
    rw [hpart] at hm hapart
    rcases List.mem_cons.1 hm with rfl | hm
    · rfl
    · -- The match from in front leads into the first one, so it ends with that.
      exfalso
      have hg := isMatch_of_mem_hits hr (hpart ▸ List.mem_cons_self : g ∈ hits (anywhere r) part)
      have hm' := isMatch_of_mem_hits hr
        (hpart ▸ List.mem_cons_of_mem g hm : m ∈ hits (anywhere r) part)
      have hbefore : g.stop ≤ m.start := (List.pairwise_cons.1 hapart).1 m hm
      have hglt := hg.lt
      have hmlt := hm'.lt
      have hend : f.stop = front.length + g.stop :=
        (hg.shift hl).stop_eq he (isMatch_of_mem_hits hr hf)
          (Nat.lt_of_lt_of_le hfront (Nat.le_add_right _ _))
          (by show front.length + g.start < f.stop; omega)
      omega

end

end BurnLens.Text
