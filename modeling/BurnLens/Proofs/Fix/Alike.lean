import BurnLens.Proofs.Fix.Site

/-!
# Reading the old and the new text side by side

A declaration is rewritten to the keyword, one space and the name with an underscore in front. What
is left of both texts at some place is alike (`Alike`): both go on up to the end of the keyword with
the same characters, both stand at the name, or both are behind its start and the same. The pieces
of the recognisers keep to that, and so do the recognisers made of them: they succeed together, what
they read is the same up to the underscore, and what they leave is alike again (`Keeps`). For string
literals and comments that holds if the keyword and the name stand on one line.
-/

namespace BurnLens.Fix

open Text Source

/-- Both succeed with related results, or both fail. -/
theorem rel_bind {α β γ δ : Type} {R : α → β → Prop} {S : γ → δ → Prop} {x : Option α}
    {y : Option β} {f : α → Option γ} {g : β → Option δ} (h : Option.Rel R x y)
    (hfg : ∀ a b, R a b → Option.Rel S (f a) (g b)) : Option.Rel S (x.bind f) (y.bind g) := by
  cases h with
  | none => exact .none
  | some h => exact hfg _ _ h

theorem rel_self {α : Type} {R : α → α → Prop} {x : Option α} (h : ∀ a, x = some a → R a a) :
    Option.Rel R x x := by
  cases x with
  | none => exact .none
  | some a => exact .some (h a rfl)

theorem rel_map {α β γ : Type} {S : β → γ → Prop} {x : Option α} {f : α → β} {g : α → γ}
    (h : ∀ a, x = some a → S (f a) (g a)) : Option.Rel S (x.map f) (x.map g) := by
  cases x with
  | none => exact .none
  | some a => exact .some (h a rfl)

theorem rel_cases {α β : Type} {R : α → β → Prop} {x : Option α} {y : Option β}
    (h : Option.Rel R x y) :
    x = none ∧ y = none ∨ ∃ a b, x = some a ∧ y = some b ∧ R a b := by
  cases h with
  | none => exact .inl ⟨rfl, rfl⟩
  | some h => exact .inr ⟨_, _, rfl, rfl, h⟩

section
variable (e : Declarator) (back : List Char)

/-- Neither text stands between its keyword and its name. -/
inductive Clear : List Char → List Char → Prop
  | front {w} : Solid w → Clear (w ++ e.behind back) (w ++ e.underscored.behind back)
  | same {v} : v.length ≤ (e.name.chars ++ back).length → Clear v v

/-- Neither text stands behind its keyword and in front of its name. -/
inductive Inner : List Char → List Char → Prop
  | front {w} : Solid w → w ≠ [] → Inner (w ++ e.behind back) (w ++ e.underscored.behind back)
  | same {v} : v.length ≤ (e.name.chars ++ back).length → Inner v v

/-- What is left of both texts at one place. -/
inductive Alike : List Char → List Char → Prop
  | clear {a b} : Clear e back a b → Alike a b
  | name : Alike (e.name.chars ++ back) ('_' :: (e.name.chars ++ back))

/-- The same name, or the one that is rewritten. -/
def Renamed (n m : List Char) : Prop :=
  m = n ∨ n = e.name.chars ∧ m = '_' :: e.name.chars

/-- Both succeed, with related values and rests that are alike, or both fail. -/
def Reading {α β : Type} (V : α → β → Prop) (m : α × List Char) (m' : β × List Char) : Prop :=
  V m.1 m'.1 ∧ Clear e back m.2 m'.2

end

variable {e : Declarator} {back a b : List Char}

theorem Inner.clear (h : Inner e back a b) : Clear e back a b := by
  cases h with
  | front hw _ => exact .front hw
  | same hv => exact .same hv

/-! ### Pieces -/

theorem literal_clear {k : List Char} (hk : ∀ c ∈ k, isBlank c = false) (h : Clear e back a b) :
    Option.Rel (Clear e back) (literal k a) (literal k b) := by
  cases h with
  | @front w hw =>
    rw [literal_gapped (e.gapped back) hk, literal_gapped (e.underscored.gapped back) hk]
    refine rel_map fun r hr => .front (hw.suffix ?_)
    exact ⟨k, (literal_eq_some_iff.1 hr).symm⟩
  | same hv =>
    refine rel_self fun r hr => .same ?_
    rw [literal_eq_some_iff.1 hr] at hv
    exact (List.suffix_append k r).length_le.trans hv

/-- A mark does not stand at the end of a keyword or at the start of a name. -/
theorem literal_alike {c : Char} (hc : isIdentStart c = false) (hblank : isBlank c = false)
    (h : Alike e back a b) : Option.Rel (Inner e back) (literal [c] a) (literal [c] b) := by
  have hmark : ∀ d ∈ [c], isBlank d = false := by simpa using hblank
  cases h with
  | clear h =>
    cases h with
    | @front w hw =>
      rw [literal_gapped (e.gapped back) hmark, literal_gapped (e.underscored.gapped back) hmark]
      refine rel_map fun r hr => ?_
      obtain rfl : w = c :: r := literal_eq_some_iff.1 hr
      exact .front (hw.suffix (List.suffix_cons c r)) (hw.ne_nil_of_cons hc)
    | same hv =>
      refine rel_self fun r hr => .same ?_
      rw [literal_eq_some_iff.1 hr] at hv
      exact (List.suffix_append [c] r).length_le.trans hv
  | name =>
    obtain ⟨d, cs, hname, hd, -⟩ := e.name.exists_cons
    have hne : ∀ d, isIdentStart d = true → ∀ cs, literal [c] (d :: cs) = none := by
      intro d hd cs
      have : ¬ c = d := by
        rintro rfl
        simp [hc] at hd
      simp [literal, this]
    rw [hname, List.cons_append, hne d hd, hne '_' rfl]
    exact .none

theorem blanks_inner (h : Inner e back a b) : Inner e back (blanks a) (blanks b) := by
  cases h with
  | @front w hw hne =>
    rw [blanks_solid hw hne, blanks_solid hw hne]
    refine .front (hw.suffix (blanks_suffix w)) ?_
    rw [blanks, ne_eq, List.dropWhile_eq_nil_iff]
    obtain ⟨c, hc, hblank⟩ := hw.exists_nonblank hne
    exact fun hall => by simp [hall c hc] at hblank
  | same hv => exact .same (Nat.le_trans (List.dropWhile_suffix isBlank).length_le hv)

theorem blanks_behind : blanks (e.behind back) = e.name.chars ++ back := by
  rw [Declarator.behind, blanks_append e.blank, e.name.blanks]

theorem blanks_clear (h : Clear e back a b) : Alike e back (blanks a) (blanks b) := by
  cases h with
  | @front w hw =>
    by_cases hne : w = []
    · rw [hne, List.nil_append, List.nil_append, blanks_behind, blanks_behind]
      exact .name
    · exact .clear (blanks_inner (.front hw hne)).clear
  | same hv => exact .clear (blanks_inner (.same hv)).clear

theorem blanks1_clear (h : Clear e back a b) :
    Option.Rel (Alike e back) (blanks1 a) (blanks1 b) := by
  cases h with
  | @front w hw =>
    by_cases hne : w = []
    · have hbehind : ∀ e : Declarator, blanks1 (e.behind back) = some (e.name.chars ++ back) := by
        intro e
        rw [Declarator.behind, blanks1_append e.ne_nil e.blank, e.name.blanks]
      rw [hne, List.nil_append, List.nil_append, hbehind, hbehind]
      exact .some .name
    · rw [blanks1_solid hw hne, blanks1_solid hw hne]
      refine rel_map fun r hr => .clear (.front (hw.suffix ?_))
      obtain ⟨gap, -, -, rfl⟩ := exists_of_blanks1 hr
      exact List.suffix_append gap r
  | same hv =>
    refine rel_self fun r hr => .clear (.same ?_)
    obtain ⟨gap, -, -, rfl⟩ := exists_of_blanks1 hr
    exact (List.suffix_append gap r).length_le.trans hv

theorem identifier_alike (hback : Apart back) (h : Alike e back a b) :
    Option.Rel (Reading e back (Renamed e)) (identifier a) (identifier b) := by
  cases h with
  | clear h =>
    cases h with
    | @front w hw =>
      rw [identifier_gapped (e.gapped back), identifier_gapped (e.underscored.gapped back)]
      refine rel_map fun m hm => ⟨.inl rfl, .front (hw.suffix ?_)⟩
      obtain ⟨name, -, heq, -⟩ := exists_of_identifier hm
      exact ⟨name.chars, heq.symm⟩
    | same hv =>
      refine rel_self fun m hm => ⟨.inl rfl, .same ?_⟩
      obtain ⟨name, -, heq, -⟩ := exists_of_identifier hm
      rw [heq] at hv
      exact (List.suffix_append name.chars m.2).length_le.trans hv
  | name =>
    have hnew : identifier ('_' :: (e.name.chars ++ back)) = some ('_' :: e.name.chars, back) :=
      e.name.underscored.identifier hback
    rw [e.name.identifier hback, hnew]
    refine .some ⟨.inr ⟨rfl, rfl⟩, .same ?_⟩
    exact (List.suffix_append e.name.chars back).length_le

/-! ### Recognisers -/

/-- The recogniser reads alike what is alike, with related values. -/
def Keeps {α : Type} (e : Declarator) (back : List Char) (V : α → α → Prop)
    (r : List Char → Option (α × List Char)) : Prop :=
  ∀ a b, Clear e back a b → Option.Rel (Reading e back V) (r a) (r b)

theorem blockHead_keeps (hback : Apart back) {keyword : String}
    (hkeyword : ∀ c ∈ keyword.toList, isBlank c = false) :
    Keeps e back (Renamed e) (Pattern.blockHead keyword) := by
  intro a b h
  refine rel_bind (literal_clear hkeyword h) fun a b h => ?_
  refine rel_bind (blanks1_clear h) fun a b h => ?_
  refine rel_bind (identifier_alike hback h) fun m m' h => ?_
  obtain ⟨n, a⟩ := m
  obtain ⟨n', b⟩ := m'
  refine rel_bind (literal_alike rfl rfl (blanks_clear h.2)) fun r r' hr => ?_
  exact .some ⟨h.1, hr.clear⟩

theorem loopVariable_reads : Reads (anywhere Pattern.loopVariable) := by
  intro _ cs n rest h
  obtain ⟨r, hfor, h⟩ := Option.bind_eq_some_iff.1 h
  obtain ⟨r', hopen, h⟩ := Option.bind_eq_some_iff.1 h
  obtain ⟨r'', hvar, h⟩ := Option.bind_eq_some_iff.1 h
  obtain ⟨r₃, hblanks, hname⟩ := Option.bind_eq_some_iff.1 h
  obtain ⟨b, -, hb⟩ := exists_blanks r
  obtain ⟨b', -, hb'⟩ := exists_blanks r'
  obtain ⟨gap, -, -, rfl⟩ := exists_of_blanks1 hblanks
  obtain ⟨name, -, rfl, -⟩ := exists_of_identifier hname
  rw [literal_eq_some_iff.1 hvar] at hb'
  rw [literal_eq_some_iff.1 hopen, hb'] at hb
  rw [literal_eq_some_iff.1 hfor, hb]
  exact ⟨"for".toList ++ (b ++ '(' :: (b' ++ ("var".toList ++ (gap ++ name.chars)))), by simp,
    by simp⟩

theorem loopVariable_keeps (hback : Apart back) :
    Keeps e back (Renamed e) Pattern.loopVariable := by
  intro a b h
  have hfor : ∀ c ∈ "for".toList, isBlank c = false := by
    simp [isBlank, isBlankCode]
  have hvar : ∀ c ∈ "var".toList, isBlank c = false := by
    simp [isBlank, isBlankCode]
  refine rel_bind (literal_clear hfor h) fun a b h => ?_
  refine rel_bind (literal_alike rfl rfl (blanks_clear h)) fun a b h => ?_
  refine rel_bind (literal_clear hvar (blanks_inner h).clear) fun a b h => ?_
  refine rel_bind (blanks1_clear h) fun a b h => ?_
  exact identifier_alike hback h

/-! ### Parameters -/

/-- What a piece between two commas declares stands in front of the white space. -/
theorem leadingName?_behind {l : List Char} (hl : Solid l) (hne : l ≠ []) (p : List Char) :
    Check.leadingName? (l ++ e.behind p) = Check.leadingName? (l ++ e.underscored.behind p) := by
  have hstart : ∃ c ∈ l, (!isIdentStart c) = false := by
    refine ⟨l.getLast hne, List.getLast_mem hne, ?_⟩
    have := hl _ (List.getLast?_eq_getLast_of_ne_nil hne)
    simp [this]
  have hname : ∀ e : Declarator, Check.leadingName? (l ++ e.behind p) =
      (identifier (l.dropWhile fun c => !isIdentStart c)).map (·.1) := by
    intro e
    rw [Check.leadingName?, (takeWhile_append_of_mem hstart).2, identifier_gapped (e.gapped p),
      Option.map_map]
    rfl
  rw [hname, hname]

theorem parameterNames_behind {w : List Char} (hw : Solid w) (hne : w ≠ []) (q : List Char) :
    Check.parameterNames (w ++ e.behind q) =
      Check.parameterNames (w ++ e.underscored.behind q) := by
  obtain ⟨ps, l, rfl, hps, hl⟩ := exists_cut ',' w
  have hlast : l ≠ [] := by
    rintro rfl
    rw [List.append_nil] at hw hne
    rcases List.eq_nil_or_concat ps with rfl | ⟨qs, p, rfl⟩
    · exact hne rfl
    · have hcomma := hw ',' (by simp [whole])
      cases hcomma
  have hsolid : Solid l := hw.suffix (List.suffix_append _ l)
  have hpiece : ∀ e : Declarator, ∃ p qs, splitOn ',' q = p :: qs ∧
      splitOn ',' (whole ',' ps ++ l ++ e.behind q) = ps ++ (l ++ e.behind p) :: qs := by
    intro e
    have hcomma : ',' ∉ l ++ e.behind [] := by
      simp only [Declarator.behind, List.append_nil, List.mem_append, not_or]
      refine ⟨hl, fun h => ?_, fun h => ?_⟩
      · cases e.blank _ h
      · cases e.name.ident _ h
    obtain ⟨p, qs, hq, hsplit⟩ := splitOn_append hcomma q
    refine ⟨p, qs, hq, ?_⟩
    have hbehind : ∀ q, l ++ e.behind [] ++ q = l ++ e.behind q := by simp [Declarator.behind]
    rw [List.append_assoc, splitOn_whole hps, ← hbehind, hsplit, hbehind]
  obtain ⟨p, qs, hq, hsplit⟩ := hpiece e
  obtain ⟨p', qs', hq', hsplit'⟩ := hpiece e.underscored
  obtain ⟨rfl, rfl⟩ := List.cons.inj (hq.symm.trans hq')
  rw [Check.parameterNames, Check.parameterNames, hsplit, hsplit']
  simp only [List.filterMap_append, List.filterMap_cons]
  rw [leadingName?_behind (e := e) hsolid hlast p]

theorem exists_or_all (p : Char → Bool) (w : List Char) :
    (∃ c ∈ w, p c = false) ∨ ∀ c ∈ w, p c = true := by
  by_cases hw : ∀ c ∈ w, p c = true
  · exact .inr hw
  · simp only [Classical.not_forall, Bool.not_eq_true] at hw
    obtain ⟨c, hc, hp⟩ := hw
    exact .inl ⟨c, hc, hp⟩

section
variable {p : Char → Bool} (hident : ∀ c, isIdentChar c = true → p c = true)
  (hgap : ∀ c ∈ e.gap, p c = true)
include hident hgap

/-- A run that goes on up to the keyword goes on behind the name. -/
theorem run_behind {w : List Char} (hw : ∀ c ∈ w, p c = true) :
    (w ++ e.behind back).takeWhile p = w ++ e.behind (back.takeWhile p) ∧
      (w ++ e.behind back).dropWhile p = back.dropWhile p := by
  have hall : ∀ c ∈ w ++ e.behind [], p c = true := by
    intro c hc
    simp only [Declarator.behind, List.append_nil, List.mem_append] at hc
    rcases hc with hc | hc | hc
    · exact hw c hc
    · exact hgap c hc
    · exact hident c (e.name.ident c hc)
  have hbehind : ∀ q, w ++ e.behind q = w ++ e.behind [] ++ q := by simp [Declarator.behind]
  rw [hbehind back, List.takeWhile_append_of_pos hall, List.dropWhile_append_of_pos hall, ← hbehind]
  exact ⟨rfl, rfl⟩

theorem dropWhile_clear (hspace : p ' ' = true) (h : Clear e back a b) :
    Clear e back (a.dropWhile p) (b.dropWhile p) := by
  cases h with
  | @front w hw =>
    have hnew : ∀ c ∈ e.underscored.gap, p c = true := by simpa
    rcases exists_or_all p w with hmem | hall
    · rw [(takeWhile_append_of_mem hmem).2, (takeWhile_append_of_mem hmem).2]
      exact .front (hw.suffix (List.dropWhile_suffix p))
    · rw [(run_behind hident hgap hall).2, (run_behind hident hnew hall).2]
      refine .same ?_
      have hback := List.suffix_append e.name.chars back
      exact ((List.dropWhile_suffix p).trans hback).length_le
  | same hv => exact .same (Nat.le_trans (List.dropWhile_suffix p).length_le hv)

theorem takeWhile_inner (hspace : p ' ' = true) (h : Inner e back a b) :
    Check.parameterNames (a.takeWhile p) = Check.parameterNames (b.takeWhile p) := by
  cases h with
  | @front w hw hne =>
    have hnew : ∀ c ∈ e.underscored.gap, p c = true := by simpa
    rcases exists_or_all p w with hmem | hall
    · rw [(takeWhile_append_of_mem hmem).1, (takeWhile_append_of_mem hmem).1]
    · rw [(run_behind hident hgap hall).1, (run_behind hident hnew hall).1]
      exact parameterNames_behind hw hne _
  | same _ => rfl

end

theorem parameterList_reads : Reads (anywhere Pattern.parameterList) := by
  intro _ cs n rest h
  obtain ⟨r, hfun, h⟩ := Option.bind_eq_some_iff.1 h
  obtain ⟨r', hblanks, h⟩ := Option.bind_eq_some_iff.1 h
  obtain ⟨⟨n', r''⟩, hn, h⟩ := Option.bind_eq_some_iff.1 h
  obtain ⟨r₃, hopen, h⟩ := Option.bind_eq_some_iff.1 h
  obtain ⟨r₄, hclose, h⟩ := Option.bind_eq_some_iff.1 h
  cases h
  obtain ⟨gap, -, -, rfl⟩ := exists_of_blanks1 hblanks
  obtain ⟨name, -, rfl, -⟩ := exists_of_identifier hn
  obtain ⟨b, -, hb⟩ := exists_blanks r''
  have hbody : r₃.takeWhile (· != ')') ++ ([')'] ++ rest) = r₃ := by
    rw [← literal_eq_some_iff.1 hclose]
    exact List.takeWhile_append_dropWhile
  rw [literal_eq_some_iff.1 hopen, ← hbody] at hb
  rw [literal_eq_some_iff.1 hfun, hb]
  exact ⟨"fun".toList ++ (gap ++ (name.chars ++ (b ++ '(' :: (r₃.takeWhile (· != ')') ++ [')'])))),
    by simp, by simp⟩

theorem parameterList_keeps (hback : Apart back) :
    Keeps e back (fun x y => Check.parameterNames x = Check.parameterNames y)
      Pattern.parameterList := by
  intro a b h
  have hfun : ∀ c ∈ "fun".toList, isBlank c = false := by
    simp [isBlank, isBlankCode]
  have hclose : ∀ c ∈ [')'], isBlank c = false := by
    simp [isBlank, isBlankCode]
  have hident : ∀ c, isIdentChar c = true → (c != ')') = true := by
    intro c hc
    refine bne_iff_ne.2 ?_
    rintro rfl
    cases hc
  have hgap : ∀ c ∈ e.gap, (c != ')') = true := by
    intro c hc
    refine bne_iff_ne.2 ?_
    rintro rfl
    cases e.blank _ hc
  refine rel_bind (literal_clear hfun h) fun a b h => ?_
  refine rel_bind (blanks1_clear h) fun a b h => ?_
  refine rel_bind (identifier_alike hback h) fun m m' h => ?_
  refine rel_bind (literal_alike rfl rfl (blanks_clear h.2)) fun a b h => ?_
  have hrest := dropWhile_clear hident hgap rfl h.clear
  refine rel_bind (literal_clear hclose hrest) fun r r' hr => .some ⟨?_, hr⟩
  exact takeWhile_inner hident hgap rfl h

/-! ### String literals and comments -/

theorem closeQuote_cons {quote c : Char} (hc : c ≠ '\\') (cs : List Char) :
    Pattern.closeQuote quote (c :: cs) =
      if c = quote then some cs else if c = '\n' then none else Pattern.closeQuote quote cs := by
  rw [Pattern.closeQuote]
  · simp [hc]
  · intro d rest hd
    exact absurd hd hc

theorem closeQuote_append {quote : Char} {l : List Char}
    (hl : ∀ c ∈ l, c ≠ '\\' ∧ c ≠ quote ∧ c ≠ '\n') (cs : List Char) :
    Pattern.closeQuote quote (l ++ cs) = Pattern.closeQuote quote cs := by
  induction l with
  | nil => rfl
  | cons c l ih =>
    obtain ⟨hback, hquote, hnew⟩ := hl c List.mem_cons_self
    rw [List.cons_append, closeQuote_cons hback, if_neg hquote, if_neg hnew]
    exact ih fun d hd => hl d (List.mem_cons_of_mem _ hd)

/-- On one line nothing between the keyword and the end of the name ends a literal. -/
theorem closeQuote_behind {quote : Char} (hquote : quote = '"' ∨ quote = '\'')
    (hline : '\n' ∉ e.gap) :
    Pattern.closeQuote quote (e.behind back) = Pattern.closeQuote quote back := by
  have hplain : ∀ c ∈ e.behind [], c ≠ '\\' ∧ c ≠ quote ∧ c ≠ '\n' := by
    intro c hc
    rw [Declarator.behind, List.append_nil, List.mem_append] at hc
    rcases hc with hc | hc
    · have hblank := e.blank c hc
      refine ⟨?_, ?_, fun h => hline (h ▸ hc)⟩
      · rintro rfl
        cases hblank
      · rintro rfl
        rcases hquote with rfl | rfl <;> cases hblank
    · have hident := e.name.ident c hc
      refine ⟨?_, ?_, ?_⟩
      · rintro rfl
        cases hident
      · rintro rfl
        rcases hquote with rfl | rfl <;> cases hident
      · rintro rfl
        cases hident
  have hbehind : e.behind back = e.behind [] ++ back := by simp [Declarator.behind]
  rw [hbehind, closeQuote_append hplain]

theorem closeQuote_front {quote : Char} (hquote : quote = '"' ∨ quote = '\'')
    (hline : '\n' ∉ e.gap) {w : List Char} (hw : Solid w) :
    Option.Rel (Clear e back) (Pattern.closeQuote quote (w ++ e.behind back))
      (Pattern.closeQuote quote (w ++ e.underscored.behind back)) := by
  induction hn : w.length using Nat.strongRecOn generalizing w with
  | _ n ih =>
    subst hn
    cases w with
    | nil =>
      have hnew : '\n' ∉ e.underscored.gap := by simp
      rw [List.nil_append, List.nil_append, closeQuote_behind hquote hline,
        closeQuote_behind hquote hnew]
      refine rel_self fun r hr => .same ?_
      have hne : quote ≠ '\n' := by
        rcases hquote with rfl | rfl <;> decide
      obtain ⟨body, rfl, -⟩ := Check.notMem_of_closeQuote hne hr
      simp only [List.length_append]
      omega
    | cons c w =>
      have hw' : Solid w := hw.suffix (List.suffix_cons c w)
      by_cases hc : c = '\\'
      · -- The backslash takes a character in front of the white space along.
        subst hc
        obtain ⟨d, w, rfl⟩ := List.exists_cons_of_ne_nil (hw.ne_nil_of_cons rfl)
        simp only [List.cons_append, Pattern.closeQuote]
        split
        · exact .none
        · exact ih w.length (by simp only [List.length_cons]; omega)
            (hw'.suffix (List.suffix_cons d w)) rfl
      · rw [List.cons_append, List.cons_append, closeQuote_cons hc, closeQuote_cons hc]
        split
        · exact .some (.front hw')
        · split
          · exact .none
          · exact ih w.length (by simp) hw' rfl

theorem stringLiteral_reads : Reads (anywhere Pattern.stringLiteral) := by
  intro _ cs m rest h
  cases cs with
  | nil => cases h
  | cons c cs =>
    by_cases hc : c = '"' ∨ c = '\''
    · have hread : (Pattern.closeQuote c cs).map ((), ·) = some (m, rest) :=
        (Check.stringLiteral_cons hc cs).symm.trans h
      obtain ⟨r, hr, heq⟩ := Option.map_eq_some_iff.1 hread
      cases heq
      have hne : c ≠ '\n' := by
        rcases hc with rfl | rfl <;> decide
      obtain ⟨body, rfl, -⟩ := Check.notMem_of_closeQuote hne hr
      exact ⟨c :: body, List.cons_ne_nil _ _, rfl⟩
    · have hnone := Check.stringLiteral_eq_none hc cs
      exact absurd (hnone.symm.trans h) (by simp)

theorem stringLiteral_keeps (hline : '\n' ∉ e.gap) :
    Keeps e back (fun _ _ => True) Pattern.stringLiteral := by
  intro a b h
  cases h with
  | @front w hw =>
    cases w with
    | nil =>
      have hnone : ∀ e : Declarator, Pattern.stringLiteral (e.behind back) = none := by
        intro e
        obtain ⟨c, gap, hgap⟩ := List.exists_cons_of_ne_nil e.ne_nil
        have hblank := e.blank c (by simp [hgap])
        rw [Declarator.behind, hgap, List.cons_append]
        refine Check.stringLiteral_eq_none ?_ _
        rintro (rfl | rfl) <;> cases hblank
      rw [List.nil_append, List.nil_append, hnone, hnone]
      exact .none
    | cons c w =>
      by_cases hc : c = '"' ∨ c = '\''
      · have hrest : Option.Rel (Clear e back) _ _ :=
          closeQuote_front hc hline (hw.suffix (List.suffix_cons c w))
        rw [List.cons_append, List.cons_append, Check.stringLiteral_cons hc,
          Check.stringLiteral_cons hc]
        rw [Option.map_eq_bind, Option.map_eq_bind]
        exact rel_bind hrest fun a b h => .some ⟨trivial, h⟩
      · rw [List.cons_append, List.cons_append, Check.stringLiteral_eq_none hc,
          Check.stringLiteral_eq_none hc]
        exact .none
  | same hv =>
    refine rel_self fun m hr => ⟨trivial, .same ?_⟩
    obtain ⟨u, -, rfl⟩ := stringLiteral_reads none _ _ _ hr
    exact (List.suffix_append u m.2).length_le.trans hv

theorem lineComment_reads : Reads (anywhere Pattern.lineComment) := by
  intro _ cs m rest h
  obtain ⟨r, hr, heq⟩ := Option.bind_eq_some_iff.1 h
  cases heq
  obtain ⟨u, hu⟩ := List.dropWhile_suffix (l := r) (· != '\n')
  refine ⟨'/' :: '/' :: u, List.cons_ne_nil _ _, ?_⟩
  rw [literal_eq_some_iff.1 hr]
  show '/' :: '/' :: r = '/' :: '/' :: (u ++ r.dropWhile (· != '\n'))
  rw [hu]

theorem lineComment_keeps (hline : '\n' ∉ e.gap) :
    Keeps e back (fun _ _ => True) Pattern.lineComment := by
  intro a b h
  have hslash : ∀ c ∈ ['/', '/'], isBlank c = false := by
    simp [isBlank, isBlankCode]
  have hident : ∀ c, isIdentChar c = true → (c != '\n') = true := by
    intro c hc
    refine bne_iff_ne.2 ?_
    rintro rfl
    cases hc
  have hgap : ∀ c ∈ e.gap, (c != '\n') = true :=
    fun c hc => bne_iff_ne.2 fun h => hline (h ▸ hc)
  refine rel_bind (literal_clear hslash h) fun a b h => .some ⟨trivial, ?_⟩
  exact dropWhile_clear hident hgap rfl h

end BurnLens.Fix
