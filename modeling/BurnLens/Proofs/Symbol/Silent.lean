import Mathlib.Data.List.Infix
import BurnLens.Proofs.Symbol.Rendering
import BurnLens.Proofs.Text.Search

/-!
# Where a declaration can start

Every recogniser of a declaration starts with a leading word and something that is no identifier
behind it (`LedBy`). In a text made of words and marks such a word is the end of one of the words,
since the letters of a leading word do not reach over a mark. So a text is passed by a search
without a match if none of its words ends in the leading word (`search_silent`), and that is seen
piece by piece.
-/

namespace BurnLens

namespace Text

theorem isIdentStart_range {c : Char} (h : isIdentStart c = true) :
    c.toNat = 95 ∨ (65 ≤ c.toNat ∧ c.toNat ≤ 90) ∨ (97 ≤ c.toNat ∧ c.toNat ≤ 122) := by
  delta isIdentStart Char.isAlpha Char.isUpper Char.isLower at h
  simp only [Bool.or_eq_true, Bool.and_eq_true, decide_eq_true_eq, beq_iff_eq,
    UInt32.le_iff_toNat_le, ge_iff_le] at h
  rcases h with rfl | h
  · exact .inl rfl
  · simp at h
    omega

theorem isIdentChar_range {c : Char} (h : isIdentChar c = true) :
    c.toNat = 95 ∨ (48 ≤ c.toNat ∧ c.toNat ≤ 57) ∨ (65 ≤ c.toNat ∧ c.toNat ≤ 90) ∨
      (97 ≤ c.toNat ∧ c.toNat ≤ 122) := by
  have hparts : isIdentStart c = true ∨ c.isDigit = true := by
    simpa [isIdentChar, isIdentStart, Char.isAlphanum, or_assoc] using h
  rcases hparts with hstart | hdigit
  · have := isIdentStart_range hstart
    omega
  · exact .inr (.inl (Char.isDigit_iff_toNat.1 hdigit))

theorem isBlank_of_isIdentChar {c : Char} (h : isIdentChar c = true) : isBlank c = false := by
  have hrange := isIdentChar_range h
  simp only [isBlank, isBlankCode, Bool.or_eq_false_iff, Bool.and_eq_false_iff,
    decide_eq_false_iff_not, beq_eq_false_iff_ne, ne_eq]
  omega

theorem isIdentChar_of_isBlank {c : Char} (h : isBlank c = true) : isIdentChar c = false := by
  refine Bool.eq_false_iff.2 fun hident => ?_
  simp [isBlank_of_isIdentChar hident] at h

end Text

namespace Source

open Text

/-- No identifier goes on here. -/
def Apart (cs : List Char) : Prop :=
  ∀ c ∈ cs.head?, isIdentChar c = false

@[simp] theorem apart_nil : Apart [] := by
  simp [Apart]

@[simp] theorem apart_cons {c : Char} {cs : List Char} :
    Apart (c :: cs) ↔ isIdentChar c = false := by
  simp [Apart]

theorem Apart.append {a b : List Char} (ha : Apart a) (hb : Apart b) : Apart (a ++ b) := by
  cases a with
  | nil => exact hb
  | cons c a => exact ha

/-- One of the words starts the text, with white space or a parenthesis behind it. -/
def Leads (ks : List (List Char)) (cs : List Char) : Prop :=
  ∃ k ∈ ks, ∃ c tail, (isBlank c = true ∨ c = '(') ∧ cs = k ++ c :: tail

/-- No leading word starts in the text. -/
def Silent (ks : List (List Char)) (a : List Char) : Prop :=
  ∀ rest, Apart rest → ∀ x y, a = x ++ y → y ≠ [] → ¬ Leads ks (y ++ rest)

/-! ### Recognisers -/

section
variable {α : Type} {r : List Char → Option (α × List Char)} {ks : List (List Char)}

/-- The recogniser starts with a leading word. -/
def LedBy (ks : List (List Char)) (r : List Char → Option (α × List Char)) : Prop :=
  ∀ cs m, r cs = some m → Leads ks cs

theorem search_silent (hled : LedBy ks r) {a rest : List Char} (ha : Silent ks a)
    (hrest : Apart rest) (pos : Nat) :
    search r pos (a ++ rest) = search r (pos + a.length) rest := by
  refine search_append_none (fun x y hxy hy => ?_) pos
  cases hr : r (y ++ rest) with
  | none => rfl
  | some m => exact absurd (hled _ m hr) (ha rest hrest x y hxy hy)

theorem exists_blank_of_blanks1 {cs rest : List Char} (h : blanks1 cs = some rest) :
    ∃ c tail, isBlank c = true ∧ cs = c :: tail := by
  cases cs with
  | nil => cases h
  | cons c tail =>
    rw [blanks1] at h
    split at h
    next hc => exact ⟨c, tail, hc, rfl⟩
    next => cases h

theorem leads_of_blanks1 {k cs r r' : List Char} (hk : k ∈ ks) (h : literal k cs = some r)
    (hblank : blanks1 r = some r') : Leads ks cs := by
  obtain ⟨c, tail, hc, rfl⟩ := exists_blank_of_blanks1 hblank
  exact ⟨k, hk, c, tail, .inl hc, literal_eq_some_iff.1 h⟩

/-- A word and white space come first. -/
theorem ledBy_of_literal {k : List Char}
    {next : List Char → List Char → Option (α × List Char)}
    (h : ∀ cs, r cs = (literal k cs).bind fun a => (blanks1 a).bind (next cs)) : LedBy [k] r := by
  intro cs m hm
  rw [h] at hm
  obtain ⟨a, ha, hm⟩ := Option.bind_eq_some_iff.1 hm
  obtain ⟨b, hb, -⟩ := Option.bind_eq_some_iff.1 hm
  exact leads_of_blanks1 (List.mem_singleton_self k) ha hb

theorem typeDeclaration_led : LedBy ["def".toList] Pattern.typeDeclaration :=
  ledBy_of_literal fun _ => rfl

theorem functionHeader_led : LedBy ["fun".toList] Pattern.functionHeader :=
  ledBy_of_literal fun _ => rfl

theorem blockHead_led (keyword : String) : LedBy [keyword.toList] (Pattern.blockHead keyword) :=
  ledBy_of_literal fun _ => rfl

theorem singleImport_led : LedBy ["import".toList] Pattern.singleImport :=
  ledBy_of_literal fun _ => rfl

theorem groupImport_led : LedBy ["import".toList] Pattern.groupImport := by
  intro cs m hm
  obtain ⟨a, ha, hm⟩ := Option.bind_eq_some_iff.1 hm
  obtain ⟨b, hb, -⟩ := Option.bind_eq_some_iff.1 hm
  cases a with
  | nil => cases hb
  | cons c tail =>
    refine ⟨_, List.mem_singleton_self _, c, tail, ?_, literal_eq_some_iff.1 ha⟩
    by_cases hc : isBlank c = true
    · exact .inl hc
    · rw [blanks, List.dropWhile_cons_of_neg hc] at hb
      exact .inr (List.cons.inj (literal_eq_some_iff.1 hb)).1

theorem initialisedVariable_led :
    LedBy ["var".toList, "const".toList] Pattern.initialisedVariable := by
  intro cs m hm
  obtain ⟨d, hd, -⟩ := Option.bind_eq_some_iff.1 hm
  obtain ⟨w, hw, hd⟩ := Option.bind_eq_some_iff.1 hd
  obtain ⟨b, hb, -⟩ := Option.bind_eq_some_iff.1 hd
  obtain ⟨keyword, hkeyword, hw⟩ := List.exists_of_findSome?_eq_some hw
  obtain ⟨a, ha, rfl⟩ := Option.map_eq_some_iff.1 hw
  exact leads_of_blanks1 (List.mem_map_of_mem (f := String.toList) hkeyword) ha hb

end

/-! ### Texts -/

section
variable {ks : List (List Char)} {a b w : List Char} {c : Char}

/-- The characters of a word that does not end in a leading word. -/
structure Free (ks : List (List Char)) (w : List Char) : Prop where
  ident : ∀ c ∈ w, isIdentChar c = true
  free : ∀ k ∈ ks, ¬ k <:+ w

instance : Decidable (Free ks w) :=
  decidable_of_iff (w.all isIdentChar = true ∧ ∀ k ∈ ks, ¬ k <:+ w)
    ⟨fun h => ⟨List.all_eq_true.1 h.1, h.2⟩, fun h => ⟨List.all_eq_true.2 h.ident, h.free⟩⟩

theorem ident_of_mem_leads : ∀ k ∈ leads, k ≠ [] ∧ ∀ c ∈ k, isIdentChar c = true := by
  simp [leads, isIdentChar]

theorem silent_nil : Silent ks [] := by
  intro rest _ x y hxy hy
  exact absurd (List.append_eq_nil_iff.1 hxy.symm).2 hy

/-- A mark is no part of a leading word. -/
theorem not_leads_cons (hks : ks ⊆ leads) (hc : isIdentChar c = false) : ¬ Leads ks (c :: b) := by
  rintro ⟨k, hk, d, tail, -, heq⟩
  obtain ⟨hne, hident⟩ := ident_of_mem_leads k (hks hk)
  cases k with
  | nil => exact hne rfl
  | cons e k =>
    have hce : c = e := (List.cons.inj heq).1
    simp [hce, hident e List.mem_cons_self] at hc

theorem search_mark {α : Type} {r : List Char → Option (α × List Char)} (hled : LedBy ks r)
    (hks : ks ⊆ leads) (hc : isIdentChar c = false) (pos : Nat) :
    search r pos (c :: b) = search r (pos + 1) b := by
  refine search_cons_none ?_ pos
  cases hr : r (c :: b) with
  | none => rfl
  | some m => exact absurd (hled _ m hr) (not_leads_cons hks hc)

theorem Silent.cons (h : Silent ks b) (hks : ks ⊆ leads) (hc : isIdentChar c = false) :
    Silent ks (c :: b) := by
  intro rest hrest x y hxy hy
  cases x with
  | nil =>
    rw [List.nil_append] at hxy
    rw [← hxy]
    exact not_leads_cons hks hc
  | cons d x => exact h rest hrest x y (List.cons.inj hxy).2 hy

theorem Silent.append (ha : Silent ks a) (hb : Silent ks b) (hapart : Apart b) :
    Silent ks (a ++ b) := by
  intro rest hrest x y hxy hy
  rcases List.append_eq_append_iff.1 hxy with ⟨u, rfl, rfl⟩ | ⟨u, rfl, rfl⟩
  · exact hb rest hrest u y rfl hy
  · by_cases hu : u = []
    · subst hu
      exact hb rest hrest [] b rfl hy
    · rw [List.append_assoc]
      exact ha (b ++ rest) (hapart.append hrest) x u rfl hu

/-- A leading word at the start of a word and what stands behind it is the word itself. -/
theorem eq_of_append_eq {k y rest tail : List Char} (hk : ∀ d ∈ k, isIdentChar d = true)
    (hy : ∀ d ∈ y, isIdentChar d = true) (hrest : Apart rest) (hc : isIdentChar c = false)
    (h : y ++ rest = k ++ c :: tail) : y = k := by
  rcases List.append_eq_append_iff.1 h with ⟨u, rfl, hu⟩ | ⟨u, rfl, hu⟩
  · cases u with
    | nil => simp
    | cons d u =>
      have hd : isIdentChar d = false := by
        rw [hu] at hrest
        exact apart_cons.1 hrest
      simp [hk d (by simp)] at hd
  · cases u with
    | nil => simp
    | cons d u =>
      have hcd : c = d := (List.cons.inj hu).1
      simp [hcd, hy d (by simp)] at hc

theorem isIdentChar_of_leads (h : isBlank c = true ∨ c = '(') : isIdentChar c = false := by
  rcases h with h | rfl
  · exact isIdentChar_of_isBlank h
  · rfl

theorem Free.silent (h : Free ks w) (hks : ks ⊆ leads) : Silent ks w := by
  rintro rest hrest x y rfl - ⟨k, hk, c, tail, hc, heq⟩
  have hy : ∀ d ∈ y, isIdentChar d = true := fun d hd => h.ident d (List.mem_append_right x hd)
  have hyk := eq_of_append_eq (ident_of_mem_leads k (hks hk)).2 hy hrest
    (isIdentChar_of_leads hc) heq
  exact h.free k hk (hyk ▸ List.suffix_append x y)

/-- A leading word that has a colon behind it does not lead. -/
theorem silent_colon (hw : ∀ c ∈ w, isIdentChar c = true) (hks : ks ⊆ leads) (hb : Silent ks b) :
    Silent ks (w ++ ':' :: b) := by
  rintro rest hrest x y hxy hy
  rcases List.append_eq_append_iff.1 hxy with ⟨u, rfl, hu⟩ | ⟨u, rfl, rfl⟩
  · exact hb.cons hks (c := ':') rfl rest hrest u y hu hy
  · rintro ⟨k, hk, c, tail, hc, heq⟩
    have hident : ∀ d ∈ u, isIdentChar d = true := fun d hd => hw d (List.mem_append_right x hd)
    have hcolon : Apart (':' :: (b ++ rest)) := apart_cons.2 rfl
    rw [List.append_assoc, List.cons_append] at heq
    obtain rfl := eq_of_append_eq (ident_of_mem_leads k (hks hk)).2 hident hcolon
      (isIdentChar_of_leads hc) heq
    obtain rfl : ':' = c := (List.cons.inj (List.append_cancel_left heq)).1
    rcases hc with hc | hc <;> cases hc

end

/-! ### Declarations -/

section
variable {ks : List (List Char)} (hks : ks ⊆ leads)
include hks

theorem Name.silent (n : Name) : Silent ks n.chars :=
  Free.silent ⟨n.ident, fun k hk => n.free k (hks hk)⟩ hks

theorem TypedName.silent (p : TypedName) : Silent ks p.render :=
  silent_colon p.name.ident hks ((p.type.silent hks).cons hks rfl)

theorem listed_silent (ps : List TypedName) : Silent ks (listed ps) := by
  fun_induction listed ps with
  | case1 => exact silent_nil
  | case2 p => exact p.silent hks
  | case3 p q ps ih =>
    exact (p.silent hks).append ((ih.cons hks rfl).cons hks rfl) (apart_cons.2 rfl)

theorem ascribed_silent (type : Option Name) : Silent ks (ascribed type) := by
  cases type with
  | none => exact silent_nil
  | some type => exact ((type.silent hks).cons hks rfl).cons hks rfl

theorem Record.silent (h : Free ks "def".toList) (r : Record) : Silent ks r.render := by
  have hbody : Silent ks (r.body ++ ['}']) := by
    rw [Record.body]
    split
    · exact (silent_nil.cons hks rfl).cons hks rfl
    · have hend : Silent ks (listed r.fields ++ [' ', '}']) := (listed_silent hks r.fields).append
        ((silent_nil.cons hks rfl).cons hks rfl) (apart_cons.2 rfl)
      simpa using hend.cons hks (c := ' ') rfl
  have hhead : Silent ks (' ' :: (r.name.chars ++ ' ' :: '{' :: (r.body ++ ['}']))) :=
    ((r.name.silent hks).append ((hbody.cons hks rfl).cons hks rfl) (apart_cons.2 rfl)).cons hks rfl
  have hrender := (h.silent hks).append hhead (apart_cons.2 rfl)
  simpa [Record.render, Record.head] using hrender

theorem Function.silent (h : Free ks "fun".toList) (f : Function) : Silent ks f.render := by
  have hend : Silent ks [' ', '}'] := (silent_nil.cons hks rfl).cons hks rfl
  have hresult : Silent ks (ascribed f.result ++ [' ', '{', ' ', '}']) :=
    (ascribed_silent hks f.result).append ((hend.cons hks rfl).cons hks rfl) (apart_cons.2 rfl)
  have hparameters : Silent ks (listed f.parameters ++ ')' ::
      (ascribed f.result ++ [' ', '{', ' ', '}'])) :=
    (listed_silent hks f.parameters).append (hresult.cons hks rfl) (apart_cons.2 rfl)
  have htail := ((f.name.silent hks).append (hparameters.cons hks (c := '(') rfl)
    (apart_cons.2 rfl)).cons hks (c := ' ') rfl
  have hrender := (h.silent hks).append htail (apart_cons.2 rfl)
  simpa [Function.render, Function.header, Function.head] using hrender

theorem joinWith_silent {as : List (List Char)} (h : ∀ a ∈ as, Silent ks a) :
    Silent ks (joinWith '\n' as) := by
  fun_induction joinWith '\n' as with
  | case1 => exact silent_nil
  | case2 a => exact h a List.mem_cons_self
  | case3 a b as ih =>
    have hrest := ih fun e he => h e (List.mem_cons_of_mem _ he)
    exact (h a List.mem_cons_self).append (hrest.cons hks rfl) (apart_cons.2 rfl)

theorem Class.silent_body (h : Free ks "fun".toList) (c : Class) : Silent ks (c.body ++ ['}']) := by
  have hmethods : Silent ks (joinWith '\n' (c.methods.map Function.render)) := by
    refine joinWith_silent hks fun a ha => ?_
    obtain ⟨f, -, rfl⟩ := List.mem_map.1 ha
    exact f.silent hks h
  have hbody := (hmethods.append ((silent_nil.cons hks (c := '}') rfl).cons hks (c := '\n') rfl)
    (apart_cons.2 rfl)).cons hks (c := '\n') rfl
  simpa [Class.body] using hbody

theorem Class.silent_head (h : Free ks "class".toList) (c : Class) : Silent ks c.head := by
  have hname := (c.name.silent hks).append
    ((silent_nil.cons hks (c := '{') rfl).cons hks (c := ' ') rfl) (apart_cons.2 rfl)
  exact (h.silent hks).append (hname.cons hks rfl) (apart_cons.2 rfl)

theorem Class.silent (hclass : Free ks "class".toList) (hfun : Free ks "fun".toList) (c : Class) :
    Silent ks c.render :=
  (c.silent_head hks hclass).append (c.silent_body hks hfun) (apart_cons.2 rfl)

theorem Digits.silent (n : Digits) : Silent ks n.chars := by
  have hident : ∀ c ∈ n.chars, isIdentChar c = true := by
    intro c hc
    simp [isIdentChar, Char.isAlphanum, n.digit c hc]
  refine Free.silent ⟨hident, fun k hk hsuffix => ?_⟩ hks
  have hletter : ∀ k ∈ leads, ∃ c ∈ k, c.isDigit = false := by simp [leads]
  obtain ⟨c, hc, hdigit⟩ := hletter k (hks hk)
  simp [n.digit c (hsuffix.subset hc)] at hdigit

theorem signed_silent {cs : List Char} (h : Silent ks cs) (negative : Bool) :
    Silent ks (signed negative cs) := by
  cases negative with
  | false => exact h
  | true => exact h.cons hks rfl

theorem Free.mono {w : List Char} (h : Free leads w) : Free ks w :=
  ⟨h.ident, fun k hk => h.free k (hks hk)⟩

omit hks in
theorem free_word : ∀ w ∈ ["true", "false", "nil"].map String.toList, Free leads w := by
  decide

theorem Value.silent (v : Value) : Silent ks v.render := by
  cases v with
  | boolean value => exact ((free_word _ (by cases value <;> decide)).mono hks).silent hks
  | nil => exact ((free_word _ (by decide)).mono hks).silent hks
  | integer negative digits => exact signed_silent hks (digits.silent hks) negative
  | decimal negative whole fraction =>
    have hdecimal := (whole.silent hks).append ((fraction.silent hks).cons hks (c := '.') rfl)
      (apart_cons.2 rfl)
    exact signed_silent hks hdecimal negative
  | call callee =>
    exact (callee.silent hks).append ((silent_nil.cons hks rfl).cons hks rfl) (apart_cons.2 rfl)

theorem Binding.silent (h : Free ks "var".toList) (hconst : Free ks "const".toList) (b : Binding) :
    Silent ks b.render := by
  have hkeyword : Silent ks b.keyword.toList := by
    rw [Binding.keyword]
    split
    · exact hconst.silent hks
    · exact h.silent hks
  have hvalue : Silent ks (' ' :: '=' :: ' ' :: b.value.render) :=
    (((b.value.silent hks).cons hks rfl).cons hks rfl).cons hks rfl
  have htype := (ascribed_silent hks b.type).append hvalue (apart_cons.2 rfl)
  have hapart : Apart (ascribed b.type ++ ' ' :: '=' :: ' ' :: b.value.render) := by
    cases b.type <;> exact apart_cons.2 rfl
  exact hkeyword.append (((b.name.silent hks).append htype hapart).cons hks rfl) (apart_cons.2 rfl)

end

end Source

end BurnLens
