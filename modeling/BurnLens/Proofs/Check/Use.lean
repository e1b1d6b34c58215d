import BurnLens.Check.Usage
import BurnLens.Proofs.Check.Declaration

/-!
# Whole words

A use is a whole word, so no match leads over it: it is found wherever it stands
(`mem_plainUse_iff`). The name of a declaration is found as a whole word
(`wholeWord_of_declaredVariable`).
-/

namespace BurnLens

namespace Text

theorem isWordChar_of_isIdentChar {c : Char} (h : isIdentChar c = true) : isWordChar c = true := by
  have hrange := isIdentChar_range h
  rw [isWordChar, if_pos (by omega)]
  exact h

theorem isWordChar_of_isBlank {c : Char} (h : isBlank c = true) : isWordChar c = false := by
  have hwide : ∀ n ∈ [0x85, 0xA0, 0x1680, 0x2028, 0x2029, 0x202F, 0x205F, 0x3000] ++
      (List.range 11).map (0x2000 + ·), inRanges wordRanges n = false := by
    decide +kernel
  rw [isWordChar]
  split
  next => exact isIdentChar_of_isBlank h
  next hlarge =>
    refine hwide c.toNat ?_
    simp only [isBlank, isBlankCode, Bool.or_eq_true, Bool.and_eq_true, decide_eq_true_eq,
      beq_iff_eq] at h
    simp only [List.mem_append, List.mem_cons, List.not_mem_nil, or_false, List.mem_map,
      List.mem_range]
    by_cases hspaces : 0x2000 ≤ c.toNat ∧ c.toNat ≤ 0x200A
    · exact .inr ⟨c.toNat - 0x2000, by omega, by omega⟩
    · exact .inl (by omega)

theorem isWordAt_head {w : List Char} (rest : List Char) (hne : w ≠ [])
    (hw : ∀ c ∈ w, isIdentChar c = true) : isWordAt (rest ++ w).getLast? = true := by
  rw [List.getLast?_append_of_ne_nil rest hne, List.getLast?_eq_getLast_of_ne_nil hne]
  exact isWordChar_of_isIdentChar (hw _ (List.getLast_mem hne))

end Text

namespace Source

open Text

variable {before : Option Char} {front cs n rest : List Char}

theorem exists_of_plainUse (h : Pattern.plainUse before cs = some (n, rest)) :
    ∃ name : Identifier, n = name.chars ∧ cs = name.chars ++ rest ∧ Apart rest ∧
      isWordAt before = false ∧ isWordAt rest.head? = false ∧
      (blanks rest).head?.any Pattern.marksOther = false := by
  rw [Pattern.plainUse] at h
  split at h
  next => cases h
  next hbefore =>
    obtain ⟨⟨n', r⟩, hn, h⟩ := Option.bind_eq_some_iff.1 h
    dsimp only at h
    split at h
    next => cases h
    next hafter =>
      split at h
      next => cases h
      next hmarks =>
        cases h
        obtain ⟨name, rfl, rfl, hapart⟩ := exists_of_identifier hn
        exact ⟨name, rfl, rfl, hapart, Bool.eq_false_iff.2 hbefore, Bool.eq_false_iff.2 hafter,
          Bool.eq_false_iff.2 hmarks⟩

theorem plainUse_reads : Reads Pattern.plainUse := by
  intro before cs n rest h
  obtain ⟨name, -, rfl, -⟩ := exists_of_plainUse h
  exact ⟨name.chars, name.ne_nil, rfl⟩

/-- A use is found wherever it stands. -/
theorem mem_plainUse_iff {pos : Nat} :
    (∃ m ∈ hits Pattern.plainUse cs, m.start = pos ∧ m.value = n) ↔
      ∃ front y rest, cs = front ++ y ∧ front.length = pos ∧
        Pattern.plainUse front.getLast? y = some (n, rest) := by
  rw [← hitsBehind_nil_front]
  constructor
  · rintro ⟨m, hm, rfl, rfl⟩
    obtain ⟨front, y, rest, hcs, hread, hstart⟩ := exists_of_mem_hitsBehind hm
    rw [List.nil_append] at hread hstart
    exact ⟨front, y, rest, hcs, hstart.symm, hread⟩
  · rintro ⟨front, y, rest, rfl, rfl, hread⟩
    rcases passes_or_covered plainUse_reads [] front y with
      ⟨found, hpass⟩ | ⟨x, w, a, rest', rfl, hw, hlt, hcover, -⟩
    · obtain ⟨u, hu, rfl⟩ := plainUse_reads _ _ _ _ hread
      have hfound := hpass.hitsBehind_eq
      rw [List.nil_append, hitsBehind_append_some hu hread] at hfound
      exact ⟨⟨front.length, front.length + u.length, n⟩, by simp [hfound], rfl, rfl⟩
    · -- The place would have a character of the longer word in front of it.
      obtain ⟨name, -, hname, -⟩ := exists_of_plainUse hcover
      obtain ⟨-, -, -, -, hbefore, -⟩ := exists_of_plainUse hread
      have hword : ∀ c ∈ w, isIdentChar c = true := by
        rcases List.append_eq_append_iff.1 hname with ⟨u, hu, -⟩ | ⟨u, rfl, hu⟩
        · exact fun c hc => name.ident c (hu ▸ List.mem_append_left u hc)
        · rw [hu, List.length_append] at hlt
          omega
      rw [isWordAt_head x hw hword] at hbefore
      cases hbefore

theorem wholeWord_eq_some (hbefore : isWordAt before = false)
    (hafter : isWordAt rest.head? = false) :
    Pattern.wholeWord n before (n ++ rest) = some ((), rest) := by
  simp only [Pattern.wholeWord, hbefore, literal_append, hafter, Bool.false_eq_true, ↓reduceIte,
    Option.bind_eq_bind, Option.bind_some, Option.pure_def]

theorem wholeWord_reads (hn : n ≠ []) : Reads (Pattern.wholeWord n) := by
  intro before cs a rest h
  rw [Pattern.wholeWord] at h
  split at h
  next => cases h
  next =>
    obtain ⟨r, hr, h⟩ := Option.bind_eq_some_iff.1 h
    split at h
    next => cases h
    next =>
      cases h
      exact ⟨n, hn, literal_eq_some_iff.1 hr⟩

/-- A word that stands somewhere is found. -/
theorem wholeWord_hits_ne_nil {w front back : List Char} (hw : w ≠ [])
    (hbefore : isWordAt front.getLast? = false) (hafter : isWordAt back.head? = false) :
    hits (Pattern.wholeWord w) (front ++ (w ++ back)) ≠ [] := by
  intro hnone
  rw [← hitsBehind_nil_front] at hnone
  have hread := eq_none_of_hitsBehind_eq_nil (wholeWord_reads hw) hnone rfl
    (List.append_ne_nil_of_left_ne_nil hw back)
  rw [List.nil_append, wholeWord_eq_some hbefore hafter] at hread
  cases hread

/-- Behind the name of a declaration stands no word character. -/
theorem head_of_declaredVariable {tail rest : List Char}
    (hends : Pattern.declaratorEnds rest = true)
    (hrest : rest = tail ∨ ∃ t, typed tail = some (t, rest)) : isWordAt tail.head? = false := by
  cases tail with
  | nil => rfl
  | cons c tail =>
    show isWordChar c = false
    by_cases hc : isBlank c = true
    · exact isWordChar_of_isBlank hc
    · rcases hrest with rfl | ⟨t, ht⟩
      · have hequals : c = '=' := by simpa [Pattern.declaratorEnds, hc] using hends
        rw [hequals]
        decide
      · obtain ⟨b, b', n, hb, -, hcolon, -⟩ := exists_of_typed ht
        cases b with
        | nil =>
          obtain rfl : c = ':' := (List.cons.inj hcolon).1
          decide
        | cons d b =>
          obtain rfl : c = d := (List.cons.inj hcolon).1
          exact absurd (hb c List.mem_cons_self) hc

/-- A declared name stands in the text as a whole word. -/
theorem wholeWord_of_declaredVariable {m : Hit Pattern.Declarator}
    (hmem : m ∈ hits (anywhere Pattern.declaredVariable) cs) (lead : List Char) :
    hits (Pattern.wholeWord m.value.name) (lead ++ cs) ≠ [] := by
  rw [← hitsBehind_nil_front] at hmem
  obtain ⟨front, y, rest, rfl, hread, -⟩ := exists_of_mem_hitsBehind hmem
  obtain ⟨e, tail, rfl, hvalue, -, hends, hrest⟩ := exists_of_declaredVariable hread
  have hname : m.value.name = e.name.chars := by rw [hvalue]; rfl
  have hsplit : lead ++ (front ++ (e.render ++ tail)) =
      (lead ++ front ++ e.keyword.toList ++ e.gap) ++ (e.name.chars ++ tail) := by
    simp [e.render_append, Declarator.behind]
  have hbefore : isWordAt (lead ++ front ++ e.keyword.toList ++ e.gap).getLast? = false := by
    rw [List.getLast?_append_of_ne_nil _ e.ne_nil, List.getLast?_eq_getLast_of_ne_nil e.ne_nil]
    exact isWordChar_of_isBlank (e.blank _ (List.getLast_mem e.ne_nil))
  rw [hname, hsplit]
  exact wholeWord_hits_ne_nil e.name.ne_nil hbefore (head_of_declaredVariable hends hrest)

end Source

end BurnLens
