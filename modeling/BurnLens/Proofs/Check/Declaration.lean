import Mathlib.Data.List.TakeWhile
import BurnLens.Check.Declared
import BurnLens.Proofs.Symbol.Found
import BurnLens.Proofs.Text.Passes

/-!
# Declarations as they are written

What the recognisers of variables and blocks have read, told as the text it was: a keyword, white
space and a name (`Source.Declarator`), and what may stand behind them. A search passes over a
declaration only if an earlier match takes it for something else, and there is one way to do that:
the earlier match ends behind the keyword and has taken it for its own name or type
(`rest_of_declaredVariable`). A block head is never passed over (`blockHead_found`).
-/

namespace BurnLens

theorem Check.variable_declared {cs : List Char} {m : Text.Hit Pattern.Declarator}
    (h : m ∈ Text.hits (Text.anywhere Pattern.declaredVariable) cs) :
    m.value.name ∈ declaredNames cs := by
  have hname := List.mem_map_of_mem h (f := fun m => m.value.name)
  simp only [declaredNames, List.mem_append]
  exact .inl (.inl (.inr hname))

namespace Source

open Text

/-! ### Words at a place of a text -/

theorem Identifier.ne_nil (n : Identifier) : n.chars ≠ [] := by
  obtain ⟨c, cs, h, -⟩ := n.exists_cons
  simp [h]

theorem exists_of_identifier {cs n rest : List Char} (h : Text.identifier cs = some (n, rest)) :
    ∃ name : Identifier, n = name.chars ∧ cs = name.chars ++ rest ∧ Apart rest := by
  cases cs with
  | nil => cases h
  | cons c cs =>
    rw [Text.identifier] at h
    split at h
    next hc =>
      obtain ⟨hn, hrest⟩ := Prod.mk.inj (Option.some.inj h)
      have hhead : n = c :: cs.takeWhile isIdentChar := by
        rw [← hn, List.takeWhile_cons_of_pos (isIdentChar_of_isIdentStart hc)]
      refine ⟨⟨n, by simp [hhead, hc], ?_⟩, rfl, ?_, ?_⟩
      · intro d hd
        rw [← hn] at hd
        exact List.mem_takeWhile_imp hd
      · have := run_append isIdentChar (c :: cs)
        rw [run, hn, hrest] at this
        exact this.symm
      · rw [← hrest]
        exact head_dropWhile
    next => cases h

section
variable {a b k l w y z : List Char} {c : Char}

/-- A word goes as far as its characters. -/
theorem word_unique (hk : ∀ d ∈ k, isIdentChar d = true) (hl : ∀ d ∈ l, isIdentChar d = true)
    (hy : Apart y) (hz : Apart z) (h : k ++ y = l ++ z) : k = l ∧ y = z := by
  have hrun := congrArg (run isIdentChar) h
  rw [run_exact hk hy, run_exact hl hz] at hrun
  exact Prod.mk.inj hrun

/-- A place that a word follows does not lie in a stretch of other characters. -/
theorem past_marks (hb : ∀ d ∈ b, isIdentChar d = false) (hk : ∀ d ∈ k, isIdentChar d = true)
    (hne : k ≠ []) (h : w ++ (k ++ y) = b ++ z) : ∃ w', w' ++ (k ++ y) = z := by
  rcases List.append_eq_append_iff.1 h with ⟨u, rfl, hu⟩ | ⟨u, rfl, hu⟩
  · cases u with
    | nil => exact ⟨[], by simpa using hu⟩
    | cons d u =>
      obtain ⟨e, k', rfl⟩ := List.exists_cons_of_ne_nil hne
      obtain rfl : e = d := (List.cons.inj hu).1
      have hident := hk e List.mem_cons_self
      simp [hb e (by simp)] at hident
  · exact ⟨u, hu.symm⟩

theorem past_blanks (hb : ∀ d ∈ b, isBlank d = true) (hk : ∀ d ∈ k, isIdentChar d = true)
    (hne : k ≠ []) (h : w ++ (k ++ y) = b ++ z) : ∃ w', w' ++ (k ++ y) = z :=
  past_marks (fun d hd => isIdentChar_of_isBlank (hb d hd)) hk hne h

theorem past_mark (hc : isIdentChar c = false) (hk : ∀ d ∈ k, isIdentChar d = true)
    (hne : k ≠ []) (h : w ++ (k ++ y) = c :: z) : ∃ w', w' ++ (k ++ y) = z :=
  past_marks (b := [c]) (by simpa using hc) hk hne h

/-- A place that a word follows lies behind another word, or the one is the end of the other. -/
theorem past_word (hl : ∀ d ∈ l, isIdentChar d = true) (hk : ∀ d ∈ k, isIdentChar d = true)
    (hy : Apart y) (hz : Apart z) (h : w ++ (k ++ y) = l ++ z) :
    (l = w ++ k ∧ z = y) ∨ ∃ w', w' ++ (k ++ y) = z := by
  rcases List.append_eq_append_iff.1 h with ⟨u, rfl, hu⟩ | ⟨u, rfl, hu⟩
  · have hu' : ∀ d ∈ u, isIdentChar d = true := fun d hd => hl d (List.mem_append_right w hd)
    obtain ⟨rfl, rfl⟩ := word_unique hk hu' hy hz hu
    exact .inl ⟨rfl, rfl⟩
  · exact .inr ⟨u, hu.symm⟩

/-- No leading word ends in another. -/
theorem past_lead (hl : l ∈ leads) (hk : k ∈ leads) (hw : w ≠ []) (hy : Apart y) (hz : Apart z)
    (h : w ++ (k ++ y) = l ++ z) : ∃ w', w' ++ (k ++ y) = z := by
  have hfree : ∀ l ∈ leads, ∀ k ∈ leads, k <:+ l → k = l := by decide
  rcases past_word (ident_of_mem_leads l hl).2 (ident_of_mem_leads k hk).2 hy hz h with
    ⟨heq, -⟩ | hpast
  · have hkl := hfree l hl k hk ⟨w, heq.symm⟩
    rw [hkl] at heq
    exact absurd (List.append_left_eq_self.1 heq.symm) hw
  · exact hpast

theorem apart_of_blank (hne : b ≠ []) (hb : ∀ d ∈ b, isBlank d = true) : Apart (b ++ z) := by
  intro c hc
  obtain ⟨d, b, rfl⟩ := List.exists_cons_of_ne_nil hne
  obtain rfl : d = c := by simpa using hc
  exact isIdentChar_of_isBlank (hb d List.mem_cons_self)

theorem apart_of_mark (hb : ∀ d ∈ b, isBlank d = true) (hc : isIdentChar c = false) :
    Apart (b ++ c :: z) := by
  cases b with
  | nil => exact apart_cons.2 hc
  | cons d b => exact apart_of_blank (List.cons_ne_nil _ _) hb

/-- White space and a name are not white space and a mark. -/
theorem not_mark_of_gap (ha : ∀ d ∈ a, isBlank d = true) (hb : ∀ d ∈ b, isBlank d = true)
    (n : Identifier) (hc : isBlank c = false) (hident : isIdentChar c = false) :
    a ++ (n.chars ++ y) ≠ b ++ c :: z := by
  intro h
  have hblanks := congrArg Text.blanks h
  rw [blanks_append ha, blanks_append hb, n.blanks, blanks_cons_of_not hc] at hblanks
  obtain ⟨d, cs, hn, hd, -⟩ := n.exists_cons
  rw [hn, List.cons_append] at hblanks
  obtain rfl : d = c := (List.cons.inj hblanks).1
  simp [isIdentChar_of_isIdentStart hd] at hident

end

/-! ### Keyword, white space and name -/

/-- `var N` or `const N`, with any white space in between. -/
structure Declarator where
  isConst : Bool
  gap : List Char
  name : Identifier
  ne_nil : gap ≠ []
  blank : ∀ c ∈ gap, isBlank c = true

namespace Declarator

def keyword (e : Declarator) : String :=
  if e.isConst then "const" else "var"

/-- What stands behind the keyword. -/
def behind (e : Declarator) (rest : List Char) : List Char :=
  e.gap ++ (e.name.chars ++ rest)

def render (e : Declarator) : List Char :=
  e.keyword.toList ++ e.behind []

/-- What is read from it. -/
def read (e : Declarator) : Pattern.Declarator :=
  ⟨e.isConst, e.name.chars, e.render.length⟩

variable (e : Declarator) (rest : List Char)

theorem render_append : e.render ++ rest = e.keyword.toList ++ e.behind rest := by
  simp [render, behind]

theorem keyword_mem : e.keyword.toList ∈ leads := by
  rw [keyword]
  split <;> simp [leads]

theorem gap_apart : Apart (e.gap ++ rest) :=
  apart_of_blank e.ne_nil e.blank

variable {e rest}

theorem declarator_render (hrest : Apart rest) :
    Pattern.declarator (e.render ++ rest) = some (e.read, rest) := by
  have hone : oneOf ["var", "const"] (e.keyword.toList ++ e.behind rest) =
      some (e.keyword, e.behind rest) := by
    rw [keyword]
    split
    · rfl
    · rfl
  have hconst : (e.keyword == "const") = e.isConst := by
    rw [keyword]
    cases e.isConst <;> rfl
  have hblanks : blanks1 (e.behind rest) = some (e.name.chars ++ rest) := by
    rw [behind, blanks1_append e.ne_nil e.blank, e.name.blanks]
  have hlength : (e.keyword.toList ++ e.behind rest).length - rest.length = e.render.length := by
    rw [← e.render_append, List.length_append, Nat.add_sub_cancel]
  rw [e.render_append, Pattern.declarator]
  simp only [hone, hblanks, e.name.identifier hrest, hconst, hlength, Option.bind_eq_bind,
    Option.bind_some, Option.pure_def, read]

theorem exists_of_declarator {cs : List Char} {d : Pattern.Declarator}
    (h : Pattern.declarator cs = some (d, rest)) :
    ∃ e : Declarator, cs = e.render ++ rest ∧ d = e.read ∧ Apart rest := by
  have hread := h
  obtain ⟨⟨k, r⟩, hk, h⟩ := Option.bind_eq_some_iff.1 h
  obtain ⟨r', hblanks, h⟩ := Option.bind_eq_some_iff.1 h
  obtain ⟨⟨n, r''⟩, hn, h⟩ := Option.bind_eq_some_iff.1 h
  obtain rfl : r'' = rest := (Prod.mk.inj (Option.some.inj h)).2
  obtain ⟨gap, hne, hgap, rfl⟩ := exists_of_blanks1 hblanks
  obtain ⟨name, rfl, rfl, hapart⟩ := exists_of_identifier hn
  obtain ⟨hmem, rfl⟩ := oneOf_eq_some hk
  let e : Declarator := ⟨k == "const", gap, name, hne, hgap⟩
  have hkeyword : e.keyword = k := by
    show (if k == "const" then "const" else "var") = k
    rcases List.mem_cons.1 hmem with rfl | hmem
    · rfl
    · rw [List.mem_singleton.1 hmem]
      rfl
  have hcs : k.toList ++ (gap ++ (name.chars ++ r'')) = e.render ++ r'' := by
    rw [e.render_append, hkeyword]
    rfl
  refine ⟨e, hcs, ?_, hapart⟩
  rw [hcs, declarator_render hapart] at hread
  exact (Prod.mk.inj (Option.some.inj hread)).1.symm

end Declarator

theorem exists_of_typed {cs t rest : List Char} (h : typed cs = some (t, rest)) :
    ∃ (b b' : List Char) (n : Identifier), (∀ c ∈ b, isBlank c = true) ∧
      (∀ c ∈ b', isBlank c = true) ∧ cs = b ++ ':' :: (b' ++ (n.chars ++ rest)) ∧ Apart rest ∧
      t = n.chars := by
  obtain ⟨r, hcolon, h⟩ := Option.bind_eq_some_iff.1 h
  obtain ⟨b, hb, hcs⟩ := exists_blanks cs
  obtain ⟨b', hb', hr⟩ := exists_blanks r
  obtain ⟨n, ht, hn, hapart⟩ := exists_of_identifier h
  rw [literal_eq_some_iff.1 hcolon] at hcs
  rw [hn] at hr
  exact ⟨b, b', n, hb, hb', by rw [hcs, hr]; rfl, hapart, ht⟩

theorem exists_of_declaredVariable {cs rest : List Char} {d : Pattern.Declarator}
    (h : Pattern.declaredVariable cs = some (d, rest)) :
    ∃ (e : Declarator) (tail : List Char), cs = e.render ++ tail ∧ d = e.read ∧ Apart tail ∧
      Pattern.declaratorEnds rest = true ∧ (rest = tail ∨ ∃ t, typed tail = some (t, rest)) := by
  obtain ⟨⟨d', tail⟩, hd, h⟩ := Option.bind_eq_some_iff.1 h
  obtain ⟨e, rfl, rfl, hapart⟩ := Declarator.exists_of_declarator hd
  refine ⟨e, tail, rfl, ?_⟩
  cases ht : typed tail with
  | none =>
    simp only [ht] at h
    split at h
    next hends =>
      cases h
      exact ⟨rfl, hapart, hends, .inl rfl⟩
    next => cases h
  | some m =>
    obtain ⟨t, r'⟩ := m
    simp only [ht] at h
    split at h
    next hends =>
      cases h
      exact ⟨rfl, hapart, hends, .inr ⟨t, rfl⟩⟩
    next =>
      split at h
      next hends =>
        cases h
        exact ⟨rfl, hapart, hends, .inl rfl⟩
      next => cases h

theorem declaredVariable_reads : Reads (anywhere Pattern.declaredVariable) := by
  intro _ cs d rest h
  obtain ⟨e, tail, rfl, -, -, -, hrest⟩ := exists_of_declaredVariable h
  have hne : e.render ≠ [] := by
    rw [Declarator.render]
    exact List.append_ne_nil_of_left_ne_nil (ident_of_mem_leads _ e.keyword_mem).1 _
  rcases hrest with rfl | ⟨t, ht⟩
  · exact ⟨e.render, hne, rfl⟩
  · obtain ⟨b, b', n, -, -, rfl, -⟩ := exists_of_typed ht
    exact ⟨e.render ++ (b ++ ':' :: (b' ++ n.chars)), by simp [hne], by simp⟩

/-! ### Passed over -/

/-- The match that leads over a declaration ends behind the keyword. -/
theorem rest_of_declaredVariable (e : Declarator) {w back rest : List Char}
    {d : Pattern.Declarator} (hw : w ≠ [])
    (h : Pattern.declaredVariable (w ++ (e.render ++ back)) = some (d, rest))
    (hlt : rest.length < (e.render ++ back).length) :
    rest = e.behind back ∧ Pattern.declaratorEnds (e.behind back) = true := by
  obtain ⟨e', tail, hcs, -, hapart, hends, hrest⟩ := exists_of_declaredVariable h
  suffices heq : rest = e.behind back from ⟨heq, heq ▸ hends⟩
  obtain ⟨hne, hident⟩ := ident_of_mem_leads _ e.keyword_mem
  have hbehind : Apart (e.behind back) := e.gap_apart _
  rw [e.render_append] at hcs hlt
  rw [e'.render_append] at hcs
  obtain ⟨w, hcs⟩ := past_lead e'.keyword_mem e.keyword_mem hw hbehind (e'.gap_apart _) hcs
  obtain ⟨w, hcs⟩ := past_blanks e'.blank hident hne hcs
  rcases past_word e'.name.ident hident hbehind hapart hcs with ⟨-, rfl⟩ | ⟨w, hcs⟩
  · -- The keyword is the end of the name.
    rcases hrest with rfl | ⟨t, ht⟩
    · rfl
    · obtain ⟨b, b', n, hb, -, hcolon, -⟩ := exists_of_typed ht
      exact absurd hcolon (not_mark_of_gap e.blank hb e.name rfl rfl)
  · rcases hrest with rfl | ⟨t, ht⟩
    · rw [← hcs, List.length_append] at hlt
      omega
    · -- The keyword is the end of the type, which stands behind a colon.
      obtain ⟨b, b', n, hb, hb', rfl, hrest, -⟩ := exists_of_typed ht
      obtain ⟨w, hcs⟩ := past_blanks hb hident hne hcs
      obtain ⟨w, hcs⟩ := past_mark rfl hident hne hcs
      obtain ⟨w, hcs⟩ := past_blanks hb' hident hne hcs
      rcases past_word n.ident hident hbehind hrest hcs with ⟨-, rfl⟩ | ⟨w, hcs⟩
      · rfl
      · rw [← hcs, List.length_append] at hlt
        omega

/-- A declaration is found, or a match ends behind its keyword. -/
theorem declaredVariable_found (e : Declarator) (front : List Char) {back rest : List Char}
    {d : Pattern.Declarator} (h : Pattern.declaredVariable (e.render ++ back) = some (d, rest)) :
    (∃ m ∈ hits (anywhere Pattern.declaredVariable) (front ++ (e.render ++ back)),
      m.start = front.length ∧ m.value = d) ∨
    (Pattern.declaratorEnds (e.behind back) = true ∧
      ∃ m ∈ hits (anywhere Pattern.declaredVariable) (front ++ (e.render ++ back)),
        m.start < front.length ∧ m.stop = front.length + e.keyword.toList.length) := by
  rcases passes_or_covered declaredVariable_reads [] front (e.render ++ back) with
    ⟨found, hpass⟩ | ⟨x, w, a, rest', rfl, hw, hlt, hread, hmem⟩
  · obtain ⟨u, hu, heq⟩ := declaredVariable_reads none _ _ _ h
    have hfound := hpass.hitsBehind_eq
    rw [heq] at h hfound
    rw [hitsBehind_append_some hu h] at hfound
    refine .inl ⟨⟨front.length, front.length + u.length, d⟩, ?_, rfl, rfl⟩
    rw [heq, ← hitsBehind_nil_front, hfound]
    simp
  · obtain ⟨rfl, hends⟩ := rest_of_declaredVariable e hw hread hlt
    refine .inr ⟨hends, _, hmem, ?_, ?_⟩
    · have := List.length_pos_iff.2 hw
      simp only [List.nil_append, List.length_append]
      omega
    · simp only [List.nil_append, e.render_append, List.length_append]
      omega

theorem exists_of_blockHead {keyword : String} {cs n rest : List Char}
    (h : Pattern.blockHead keyword cs = some (n, rest)) :
    ∃ (gap b : List Char) (name : Identifier), gap ≠ [] ∧ (∀ c ∈ gap, isBlank c = true) ∧
      (∀ c ∈ b, isBlank c = true) ∧ n = name.chars ∧
      cs = keyword.toList ++ (gap ++ (name.chars ++ (b ++ '{' :: rest))) := by
  obtain ⟨r, hk, h⟩ := Option.bind_eq_some_iff.1 h
  obtain ⟨r', hblanks, h⟩ := Option.bind_eq_some_iff.1 h
  obtain ⟨⟨n', r''⟩, hn, h⟩ := Option.bind_eq_some_iff.1 h
  obtain ⟨rest', hopen, h⟩ := Option.bind_eq_some_iff.1 h
  obtain ⟨rfl, rfl⟩ := Prod.mk.inj (Option.some.inj h)
  obtain ⟨gap, hne, hgap, rfl⟩ := exists_of_blanks1 hblanks
  obtain ⟨name, rfl, rfl, -⟩ := exists_of_identifier hn
  obtain ⟨b, hb, hr⟩ := exists_blanks r''
  rw [literal_eq_some_iff.1 hopen] at hr
  exact ⟨gap, b, name, hne, hgap, hb, rfl, by rw [literal_eq_some_iff.1 hk, hr]; rfl⟩

theorem blockHead_reads (keyword : String) : Reads (anywhere (Pattern.blockHead keyword)) := by
  intro _ cs n rest h
  obtain ⟨gap, b, name, hne, -, -, -, rfl⟩ := exists_of_blockHead h
  exact ⟨keyword.toList ++ (gap ++ (name.chars ++ (b ++ ['{']))), by simp [hne], by simp⟩

/-- A block head is found wherever it stands. -/
theorem blockHead_found {keyword : String} (hkeyword : keyword.toList ∈ leads)
    (front : List Char) {y n rest : List Char} (h : Pattern.blockHead keyword y = some (n, rest)) :
    ∃ m ∈ hits (anywhere (Pattern.blockHead keyword)) (front ++ y), m.value = n := by
  rcases passes_or_covered (blockHead_reads keyword) [] front y with
    ⟨found, hpass⟩ | ⟨x, w, a, rest', rfl, hw, hlt, hread, -⟩
  · obtain ⟨u, hu, rfl⟩ := blockHead_reads keyword none _ _ _ h
    have hfound := hpass.hitsBehind_eq
    rw [hitsBehind_append_some hu h] at hfound
    refine ⟨⟨front.length, front.length + u.length, n⟩, ?_, rfl⟩
    rw [← hitsBehind_nil_front, hfound]
    simp
  · -- The piece of the one head that the other starts in has its mark too early or too late.
    exfalso
    obtain ⟨gap, b, name, hne, hgap, hb, -, rfl⟩ := exists_of_blockHead h
    obtain ⟨gap', b', name', hne', hgap', hb', -, hcs⟩ := exists_of_blockHead hread
    obtain ⟨hk, hident⟩ := ident_of_mem_leads _ hkeyword
    have hmark : Apart (b' ++ '{' :: rest') := apart_of_mark hb' rfl
    have hapart : Apart (gap ++ (name.chars ++ (b ++ '{' :: rest))) := apart_of_blank hne hgap
    obtain ⟨w, hcs⟩ := past_lead hkeyword hkeyword hw hapart (apart_of_blank hne' hgap') hcs
    obtain ⟨w, hcs⟩ := past_blanks hgap' hident hk hcs
    rcases past_word name'.ident hident hapart hmark hcs with ⟨-, heq⟩ | ⟨w, hcs⟩
    · exact not_mark_of_gap hgap hb' name rfl rfl heq.symm
    · obtain ⟨w, hcs⟩ := past_blanks hb' hident hk hcs
      obtain ⟨w, hcs⟩ := past_mark rfl hident hk hcs
      rw [← hcs, List.length_append] at hlt
      omega

end Source

end BurnLens
