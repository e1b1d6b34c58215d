import BurnLens.Proofs.Check.Declaration

/-!
# Reading up to a declaration

A recogniser that starts in front of a declaration reads up to its keyword and may take that for a
name or a type. It does not get over the white space behind the keyword without a mark, so what it
reads there does not depend on what stands behind the keyword, as long as that is white space and a
name (`Gapped`). Only whether a declaration may end at the keyword does; if it may not, nothing in
front changes (`declaredVariable_gapped`, `passes_behind`).
-/

namespace BurnLens

namespace Text

/-- White space, and what can start a name. -/
structure Gapped (t : List Char) : Prop where
  blank : ∃ c ∈ t.head?, isBlank c = true
  start : ∃ c ∈ (blanks t).head?, isIdentStart c = true

/-- The text ends like a keyword. -/
def Solid (w : List Char) : Prop :=
  ∀ c ∈ w.getLast?, isIdentStart c = true

section
variable {u v w t : List Char}

theorem Solid.suffix (h : Solid w) (hv : v <:+ w) : Solid v := by
  obtain ⟨u, rfl⟩ := hv
  intro c hc
  exact h c (by rw [Option.mem_def] at hc ⊢; simp [List.getLast?_append, hc])

theorem Solid.append_left (h : Solid w) (hne : w ≠ []) (u : List Char) : Solid (u ++ w) := by
  intro c hc
  rw [Option.mem_def, List.getLast?_append_of_ne_nil u hne] at hc
  exact h c hc

/-- The white space in front of a keyword ends there. -/
theorem Solid.exists_nonblank (h : Solid w) (hne : w ≠ []) : ∃ c ∈ w, isBlank c = false := by
  refine ⟨w.getLast hne, List.getLast_mem hne, ?_⟩
  have hstart := h _ (List.getLast?_eq_getLast_of_ne_nil hne)
  exact isBlank_of_isIdentChar (isIdentChar_of_isIdentStart hstart)

theorem Solid.ne_nil_of_cons {c : Char} (h : Solid (c :: w)) (hc : isIdentStart c = false) :
    w ≠ [] := by
  rintro rfl
  have := h c (by simp)
  rw [hc] at this
  cases this

theorem takeWhile_append_of_mem {p : Char → Bool} (h : ∃ c ∈ w, p c = false) :
    (w ++ t).takeWhile p = w.takeWhile p ∧ (w ++ t).dropWhile p = w.dropWhile p ++ t := by
  induction w with
  | nil => simp at h
  | cons c w ih =>
    by_cases hc : p c = true
    · have hrest : ∃ c ∈ w, p c = false := by
        obtain ⟨d, hd, hp⟩ := h
        rcases List.mem_cons.1 hd with rfl | hd
        · rw [hc] at hp
          cases hp
        · exact ⟨d, hd, hp⟩
      simpa [hc] using ih hrest
    · simp [hc]

theorem blanks_solid (hw : Solid w) (hne : w ≠ []) : blanks (w ++ t) = blanks w ++ t :=
  (takeWhile_append_of_mem (hw.exists_nonblank hne)).2

theorem blanks1_solid (hw : Solid w) (hne : w ≠ []) :
    blanks1 (w ++ t) = (blanks1 w).map (· ++ t) := by
  cases w with
  | nil => exact absurd rfl hne
  | cons c w =>
    rw [List.cons_append, blanks1, blanks1]
    split
    next hc =>
      have hstart : isIdentStart c = false := by
        refine Bool.eq_false_iff.2 fun hstart => ?_
        simp [isBlank_of_isIdentChar (isIdentChar_of_isIdentStart hstart)] at hc
      have hw' : Solid w := hw.suffix (List.suffix_cons c w)
      rw [blanks_solid hw' (hw.ne_nil_of_cons hstart)]
      rfl
    next => rfl

theorem blanks_suffix (w : List Char) : blanks w <:+ w :=
  List.dropWhile_suffix isBlank

variable (ht : Gapped t)
include ht

theorem Gapped.ne_nil : t ≠ [] := by
  obtain ⟨c, hc, -⟩ := ht.blank
  rintro rfl
  cases hc

theorem Gapped.apart : Source.Apart t := by
  obtain ⟨c, hc, hblank⟩ := ht.blank
  intro d hd
  rw [Option.mem_def] at hc hd
  obtain rfl : c = d := Option.some.inj (hc.symm.trans hd)
  exact isIdentChar_of_isBlank hblank

theorem literal_gapped {k : List Char} (hk : ∀ c ∈ k, isBlank c = false) (w : List Char) :
    literal k (w ++ t) = (literal k w).map (· ++ t) := by
  induction k generalizing w with
  | nil => rfl
  | cons a k ih =>
    cases w with
    | nil =>
      obtain ⟨c, hc, hblank⟩ := ht.blank
      obtain ⟨d, tail, rfl⟩ := List.exists_cons_of_ne_nil ht.ne_nil
      obtain rfl : d = c := by simpa using hc
      have hne : (a == d) = false := by
        refine beq_eq_false_iff_ne.2 ?_
        rintro rfl
        simp [hk a List.mem_cons_self] at hblank
      simp [literal, hne]
    | cons b w =>
      rw [List.cons_append, literal, literal]
      split
      · exact ih (fun c hc => hk c (List.mem_cons_of_mem _ hc)) w
      · rfl

theorem oneOf_gapped {words : List String} (hwords : ∀ k ∈ words, ∀ c ∈ k.toList, isBlank c = false)
    (w : List Char) : oneOf words (w ++ t) = (oneOf words w).map fun m => (m.1, m.2 ++ t) := by
  induction words with
  | nil => rfl
  | cons k words ih =>
    have hrest := ih fun k' hk' => hwords k' (List.mem_cons_of_mem _ hk')
    simp only [oneOf] at hrest ⊢
    rw [List.findSome?_cons, List.findSome?_cons, literal_gapped ht (hwords k List.mem_cons_self)]
    cases literal k.toList w with
    | none => exact hrest
    | some r => rfl

theorem identifier_gapped (w : List Char) :
    identifier (w ++ t) = (identifier w).map fun m => (m.1, m.2 ++ t) := by
  cases w with
  | nil =>
    obtain ⟨c, hc, hblank⟩ := ht.blank
    obtain ⟨d, tail, rfl⟩ := List.exists_cons_of_ne_nil ht.ne_nil
    obtain rfl : d = c := by simpa using hc
    have hstart : isIdentStart d = false := by
      refine Bool.eq_false_iff.2 fun hstart => ?_
      simp [isBlank_of_isIdentChar (isIdentChar_of_isIdentStart hstart)] at hblank
    simp [identifier, hstart]
  | cons c w =>
    have hword : ∀ d ∈ (c :: w).takeWhile isIdentChar, isIdentChar d = true :=
      fun d hd => List.mem_takeWhile_imp hd
    have hstop : Source.Apart ((c :: w).dropWhile isIdentChar ++ t) :=
      Source.Apart.append head_dropWhile ht.apart
    have hrun := run_exact hword hstop
    rw [← List.append_assoc, List.takeWhile_append_dropWhile, List.cons_append] at hrun
    rw [List.cons_append, identifier, identifier, hrun]
    split <;> rfl

theorem typed_gapped (hw : Solid w) : typed (w ++ t) = (typed w).map fun m => (m.1, m.2 ++ t) := by
  by_cases hne : w = []
  · subst hne
    obtain ⟨c, hc, hstart⟩ := ht.start
    obtain ⟨tail, htail⟩ : ∃ tail, blanks t = c :: tail := by
      cases hb : blanks t with
      | nil => simp [hb] at hc
      | cons d tail =>
        obtain rfl : d = c := by simpa [hb] using hc
        exact ⟨tail, rfl⟩
    have hcolon : literal [':'] (c :: tail) = none := by
      have : ¬ ':' = c := by
        rintro rfl
        cases hstart
      simp [literal, this]
    have hnil : literal [':'] (blanks []) = none := rfl
    simp [typed, htail, hcolon, hnil]
  · have hcolon : ∀ c ∈ [':'], isBlank c = false := by simp [isBlank, isBlankCode]
    simp only [typed, blanks_solid hw hne, literal_gapped ht hcolon, Option.bind_eq_bind]
    cases hr : literal [':'] (blanks w) with
    | none => rfl
    | some r =>
      have hsolid : Solid (':' :: r) := by
        have hsuffix := hw.suffix (blanks_suffix w)
        rwa [literal_eq_some_iff.1 hr] at hsuffix
      have hr' : Solid r := hsolid.suffix (List.suffix_cons _ r)
      simp only [Option.map_some, Option.bind_some, blanks_solid hr' (hsolid.ne_nil_of_cons rfl)]
      exact identifier_gapped ht _

end

end Text

namespace Source

open Text

theorem Declarator.gapped (e : Declarator) (rest : List Char) : Gapped (e.behind rest) := by
  obtain ⟨c, gap, hgap⟩ := List.exists_cons_of_ne_nil e.ne_nil
  refine ⟨⟨c, by simp [Declarator.behind, hgap], e.blank c (by simp [hgap])⟩, ?_⟩
  obtain ⟨d, cs, hname, hd, -⟩ := e.name.exists_cons
  have hblanks : blanks (e.behind rest) = d :: (cs ++ rest) := by
    rw [Declarator.behind, blanks_append e.blank, e.name.blanks, hname, List.cons_append]
  exact ⟨d, by simp [hblanks], hd⟩

theorem Declarator.solid (e : Declarator) (w : List Char) : Solid (w ++ e.keyword.toList) := by
  have hall : ∀ k ∈ leads, ∀ c ∈ k.getLast?, isIdentStart c = true := by
    simp [leads, isIdentStart]
  have hne := (ident_of_mem_leads _ e.keyword_mem).1
  exact Solid.append_left (hall _ e.keyword_mem) hne w

section
variable {w t t' : List Char} {d : Pattern.Declarator}

theorem declaratorEnds_solid (hw : Solid w) (hne : w ≠ []) (t : List Char) :
    Pattern.declaratorEnds (w ++ t) = Pattern.declaratorEnds w := by
  obtain ⟨htake, hdrop⟩ := takeWhile_append_of_mem (t := t) (hw.exists_nonblank hne)
  have hrest : w.dropWhile isBlank ≠ [] := by
    rw [ne_eq, List.dropWhile_eq_nil_iff]
    obtain ⟨c, hc, hblank⟩ := hw.exists_nonblank hne
    exact fun hall => by simp [hall c hc] at hblank
  obtain ⟨c, tail, hcons⟩ := List.exists_cons_of_ne_nil hrest
  rw [Pattern.declaratorEnds, Pattern.declaratorEnds, htake, hdrop, hcons, List.cons_append]

/-- A keyword that is no declaration of its own is read the same. -/
theorem declarator_gapped (ht : Gapped t) (hw : Solid w)
    (hkey : ∀ k ∈ ["var", "const"], w ≠ k.toList) :
    Pattern.declarator (w ++ t) = (Pattern.declarator w).map fun m => (m.1, m.2 ++ t) := by
  have hwords : ∀ k ∈ ["var", "const"], ∀ c ∈ k.toList, isBlank c = false := by
    simp [isBlank, isBlankCode]
  simp only [Pattern.declarator, oneOf_gapped ht hwords, Option.bind_eq_bind]
  cases hk : oneOf ["var", "const"] w with
  | none => rfl
  | some m =>
    obtain ⟨k, r⟩ := m
    obtain ⟨hmem, rfl⟩ := oneOf_eq_some hk
    have hr : Solid r := hw.suffix (List.suffix_append _ r)
    have hne : r ≠ [] := by
      rintro rfl
      exact hkey k hmem (List.append_nil _)
    simp only [Option.map_some, Option.bind_some, blanks1_solid hr hne]
    cases blanks1 r with
    | none => rfl
    | some r' =>
      simp only [Option.map_some, Option.bind_some, identifier_gapped ht]
      cases identifier r' with
      | none => rfl
      | some n =>
        have hlength : (k.toList ++ r ++ t).length - (n.2 ++ t).length =
            (k.toList ++ r).length - n.2.length := by
          simp only [List.length_append, Nat.add_sub_add_right]
        simp only [Option.map_some, Option.bind_some, hlength, Option.pure_def]

/-- The declarator with the first of the rests at which it may end. -/
def endingAt (d : Pattern.Declarator) : List (List Char) → Option (Pattern.Declarator × List Char)
  | [] => none
  | r :: rs => if Pattern.declaratorEnds r then some (d, r) else endingAt d rs

/-- A declarator may end behind its type or behind its name. -/
theorem declaredVariable_eq (cs : List Char) :
    Pattern.declaredVariable cs = (Pattern.declarator cs).bind fun m =>
      endingAt m.1 (((typed m.2).map (·.2)).toList ++ [m.2]) := by
  rw [Pattern.declaredVariable, Option.bind_eq_bind]
  congr 1
  funext ⟨d, r⟩
  dsimp only
  cases typed r <;> simp [endingAt]

/-- What is decided in front of the keyword is decided for both texts, and at the second keyword no
declarator ends. -/
theorem endingAt_gapped (hends : Pattern.declaratorEnds t' = false) {rs : List (List Char)}
    (hrs : ∀ r ∈ rs, Solid r) :
    (endingAt d (rs.map (· ++ t)) = none → endingAt d (rs.map (· ++ t')) = none) ∧
      ∀ v d', v ≠ [] → endingAt d (rs.map (· ++ t)) = some (d', v ++ t) →
        endingAt d (rs.map (· ++ t')) = some (d', v ++ t') := by
  induction rs with
  | nil => simp [endingAt]
  | cons r rs ih =>
    have hr := hrs r List.mem_cons_self
    have hrest := ih fun r' hr' => hrs r' (List.mem_cons_of_mem _ hr')
    simp only [List.map_cons, endingAt]
    by_cases hne : r = []
    · subst hne
      simp only [List.nil_append, hends, Bool.false_eq_true, ↓reduceIte]
      split
      · refine ⟨fun h => (by cases h), fun v d' hv h => ?_⟩
        have hcancel := (Prod.mk.inj (Option.some.inj h)).2
        exact absurd (List.append_left_eq_self.1 hcancel.symm) hv
      · exact hrest
    · rw [declaratorEnds_solid hr hne, declaratorEnds_solid hr hne]
      split
      · refine ⟨fun h => (by cases h), fun v d' hv h => ?_⟩
        obtain ⟨rfl, hcancel⟩ := Prod.mk.inj (Option.some.inj h)
        rw [List.append_cancel_right hcancel]
      · exact hrest

/-- If no declarator may end at the second keyword, what fails in front of the first fails in front
of the second, and what is read in front of the first is read in front of the second. -/
theorem declaredVariable_gapped (ht : Gapped t) (ht' : Gapped t')
    (hends : Pattern.declaratorEnds t' = false) (hw : Solid w)
    (hkey : ∀ k ∈ ["var", "const"], w ≠ k.toList) :
    (Pattern.declaredVariable (w ++ t) = none → Pattern.declaredVariable (w ++ t') = none) ∧
      ∀ v, v ≠ [] → Pattern.declaredVariable (w ++ t) = some (d, v ++ t) →
        Pattern.declaredVariable (w ++ t') = some (d, v ++ t') := by
  rw [declaredVariable_eq, declaredVariable_eq, declarator_gapped ht hw hkey,
    declarator_gapped ht' hw hkey]
  cases hd : Pattern.declarator w with
  | none => simp
  | some m =>
    obtain ⟨d', r⟩ := m
    obtain ⟨e, hcs, -, -⟩ := Declarator.exists_of_declarator hd
    have hr : Solid r := hw.suffix ⟨e.render, hcs.symm⟩
    have hrests : ∀ {t}, Gapped t → ((typed (r ++ t)).map (·.2)).toList ++ [r ++ t] =
        (((typed r).map (·.2)).toList ++ [r]).map (· ++ t) := by
      intro t ht
      rw [typed_gapped ht hr]
      cases typed r <;> rfl
    have hsolid : ∀ r' ∈ ((typed r).map (·.2)).toList ++ [r], Solid r' := by
      intro r' hr'
      cases hty : typed r with
      | none =>
        obtain rfl : r' = r := by simpa [hty] using hr'
        exact hr
      | some m =>
        obtain ⟨b, b', n, -, -, heq, -⟩ := exists_of_typed hty
        obtain rfl | rfl : r' = m.2 ∨ r' = r := by simpa [hty] using hr'
        · exact hr.suffix ⟨b ++ ':' :: (b' ++ n.chars), by rw [heq]; simp⟩
        · exact hr
    simp only [Option.map_some, Option.bind_some, hrests ht, hrests ht']
    obtain ⟨hnone, hsome⟩ := endingAt_gapped (d := d') (t := t) hends hsolid
    exact ⟨hnone, fun v hv h => hsome v d hv h⟩

end

/-! ### Two declarations at one place -/

/-- The search for declarations stands in front of a declaration if it stands in front of another
with the same keyword, unless an earlier one may end at the keyword. -/
theorem passes_behind {e e' : Declarator} (hkeyword : e'.keyword = e.keyword)
    {front piece back back' : List Char} {found : List (Hit Pattern.Declarator)}
    (hends : Pattern.declaratorEnds (e'.behind back') = false)
    (h : Passes (anywhere Pattern.declaredVariable) (e.render ++ back) front piece found) :
    Passes (anywhere Pattern.declaredVariable) (e'.render ++ back') front piece found := by
  have hkey : ∀ {y : List Char}, y ≠ [] → ∀ k ∈ ["var", "const"],
      y ++ e.keyword.toList ≠ k.toList := by
    intro y hy k hk heq
    have hfree : ∀ k ∈ ["var", "const"], ∀ l ∈ ["var", "const"],
        l.toList <:+ k.toList → l.toList = k.toList := by decide
    have hmem : e.keyword ∈ ["var", "const"] := by
      rw [Declarator.keyword]
      split <;> simp
    rw [← hfree k hk _ hmem ⟨y, heq⟩] at heq
    exact hy (List.append_left_eq_self.1 heq)
  have hcongr : ∀ {y : List Char}, y ≠ [] → ∀ d,
      (Pattern.declaredVariable (y ++ (e.render ++ back)) = none →
        Pattern.declaredVariable (y ++ (e'.render ++ back')) = none) ∧
      ∀ v, Pattern.declaredVariable (y ++ (e.render ++ back)) = some (d, v ++ (e.render ++ back)) →
        Pattern.declaredVariable (y ++ (e'.render ++ back')) =
          some (d, v ++ (e'.render ++ back')) := by
    intro y hy d
    simp only [Declarator.render_append, hkeyword, ← List.append_assoc]
    obtain ⟨hnone, hsome⟩ := declaredVariable_gapped (d := d) (e.gapped back) (e'.gapped back')
      hends (e.solid y) (hkey hy)
    refine ⟨hnone, fun v hv => hsome _ ?_ hv⟩
    simp [(ident_of_mem_leads _ e.keyword_mem).1]
  refine h.congr ?_ ?_
  · intro x y _ hy
    exact (hcongr hy ⟨false, [], 0⟩).1
  · intro x u y a _ hu hread
    rw [← List.append_assoc] at hread ⊢
    exact (hcongr (List.append_ne_nil_of_left_ne_nil hu y) a).2 y hread

end Source

end BurnLens
