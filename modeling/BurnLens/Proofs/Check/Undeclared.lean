import BurnLens.Proofs.Check.Reported
import BurnLens.Proofs.Check.Use
import BurnLens.Proofs.Text.Position

/-!
# What is reported as undeclared

A warning about a name stands where the name is first used in a way that counts (`Counts`), and
there is one for each name that is so used and that neither the language nor the text knows
(`checkUsage_exact`). The search reads a use wherever one stands, since no match leads over a whole
word; its matches come from left to right, so the first one of a name among those that count is at
the smallest offset.
-/

namespace BurnLens

namespace Text
variable {α : Type}

theorem hitsFrom_sorted (r : Recogniser α) (before : Option Char) (pos skip : Nat)
    (cs : List Char) :
    (∀ h ∈ hitsFrom r before pos skip cs, pos ≤ h.start) ∧
      (hitsFrom r before pos skip cs).Pairwise fun h g => h.start < g.start := by
  induction cs generalizing before pos skip with
  | nil => exact ⟨nofun, .nil⟩
  | cons c cs ih =>
    have hlater : ∀ k, (∀ h ∈ hitsFrom r (some c) (pos + 1) k cs, pos < h.start) ∧
        (hitsFrom r (some c) (pos + 1) k cs).Pairwise fun h g => h.start < g.start :=
      fun k => ih (some c) (pos + 1) k
    rcases skip with _ | skip
    · rw [hitsFrom]
      rcases r before (c :: cs) with _ | ⟨a, rest⟩
      · exact ⟨fun h hmem => Nat.le_of_lt ((hlater _).1 h hmem), (hlater _).2⟩
      · refine ⟨?_, List.pairwise_cons.2 (hlater _)⟩
        intro h hmem
        rcases List.mem_cons.1 hmem with rfl | hmem
        · exact Nat.le_refl pos
        · exact Nat.le_of_lt ((hlater _).1 h hmem)
    · exact ⟨fun h hmem => Nat.le_of_lt ((hlater skip).1 h hmem), (hlater skip).2⟩

theorem hits_sorted (r : Recogniser α) (cs : List Char) :
    (hits r cs).Pairwise fun h g => h.start < g.start :=
  (hitsFrom_sorted r none 0 0 cs).2

end Text

namespace Source

open Text

theorem plainUse_eq_some_iff {before : Option Char} {cs n rest : List Char} :
    Pattern.plainUse before cs = some (n, rest) ↔
      cs = n ++ rest ∧ (n.head?.any isIdentStart = true ∧ ∀ c ∈ n, isIdentChar c = true) ∧
        isWordAt before = false ∧ isWordAt rest.head? = false ∧
        (blanks rest).head?.any Pattern.marksOther = false := by
  constructor
  · intro h
    obtain ⟨name, rfl, rfl, -, hbefore, hafter, hmarks⟩ := exists_of_plainUse h
    exact ⟨rfl, ⟨name.start, name.ident⟩, hbefore, hafter, hmarks⟩
  · rintro ⟨rfl, ⟨hstart, hident⟩, hbefore, hafter, hmarks⟩
    have hapart : Apart rest := by
      intro c hc
      rw [Option.mem_def] at hc
      refine Bool.eq_false_iff.2 fun hchar => ?_
      rw [hc, isWordAt, Option.any_some, isWordChar_of_isIdentChar hchar] at hafter
      cases hafter
    have hread := Identifier.identifier ⟨n, hstart, hident⟩ hapart
    simp only [Pattern.plainUse, hbefore, hread, hafter, hmarks, Bool.false_eq_true, ↓reduceIte,
      Option.bind_eq_bind, Option.bind_some, Option.pure_def]

end Source

namespace Check

open Text

/-- The language or the text knows the name. -/
def Known (cs n : List Char) : Prop :=
  String.ofList n ∈ keywords ∨ n ∈ declaredNames cs ∨
    lowerAscii (String.ofList n) ∈ knownNames ∨ String.ofList n ∈ languageTypes

/-- The offset lies outside string literals and comments. -/
def InCode (cs : List Char) (pos : Nat) : Prop :=
  ∀ r ∈ nonCode cs, ¬ (r.start ≤ pos ∧ pos < r.stop)

/-- The identifier `n` stands at the offset as a whole word, and what follows it does not make it
something other than a plain use. -/
structure PlainUse (cs n : List Char) (pos : Nat) : Prop where
  start : n.head?.any isIdentStart = true
  ident : ∀ c ∈ n, isIdentChar c = true
  stands : slice cs pos (pos + n.length) = n
  before : isWordAt (cs.take pos).getLast? = false
  after : isWordAt (cs.drop (pos + n.length)).head? = false
  plain : ∀ c ∈ (blanks (cs.drop (pos + n.length))).head?, c ∉ ['=', '(', '{', '[', ':']

/-- A plain use outside string literals and comments, with no dot at the end of the twenty
characters in front, white space aside. -/
structure Counts (cs n : List Char) (pos : Nat) : Prop extends PlainUse cs n pos where
  code : InCode cs pos
  undotted : (trimRight (slice cs (pos - 20) pos)).getLast? ≠ some '.'

variable {cs n : List Char} {pos : Nat}

theorem isKnown_iff : isKnown (declaredNames cs) n = true ↔ Known cs n := by
  simp only [isKnown, Known, Bool.or_eq_true, List.contains_eq_mem, decide_eq_true_eq, or_assoc]

theorem afterDot_eq (front cs : List Char) : afterDot (front ++ cs) front.length =
    (((front.reverse.take 20).dropWhile isBlank).head? == some '.') := by
  have hslice : slice (front ++ cs) (front.length - 20) front.length =
      front.drop (front.length - 20) := by
    rw [slice, List.drop_append_of_le_length (by omega), List.take_left' (by simp)]
  rw [afterDot, hslice, List.take_reverse]

theorem afterDot_iff :
    afterDot cs pos = true ↔ (trimRight (slice cs (pos - 20) pos)).getLast? = some '.' := by
  rw [afterDot, trimRight, List.getLast?_reverse, beq_iff_eq]

theorem inCode_iff : (nonCode cs).any (·.contains pos) = false ↔ InCode cs pos := by
  simp only [InCode, List.any_eq_false, Region.contains, Bool.and_eq_true, decide_eq_true_eq]

theorem PlainUse.le_length (h : PlainUse cs n pos) : pos + n.length ≤ cs.length := by
  have hne : n ≠ [] := by
    rintro rfl
    cases h.start
  have hpos : 0 < n.length := List.length_pos_iff.2 hne
  have hlength := congrArg List.length h.stands
  rw [slice, List.length_take, List.length_drop] at hlength
  omega

theorem marksOther_eq_false_iff {o : Option Char} :
    o.any Pattern.marksOther = false ↔ ∀ c ∈ o, c ∉ ['=', '(', '{', '[', ':'] := by
  cases o with
  | none => exact ⟨fun _ => nofun, fun _ => rfl⟩
  | some c =>
    rw [Option.any_some, Pattern.marksOther, List.contains_eq_mem, decide_eq_false_iff_not]
    exact ⟨fun h c hc => Option.some.inj hc ▸ h, fun h => h c rfl⟩

/-- The search finds the plain uses and nothing else. -/
theorem mem_hits_plainUse_iff :
    (∃ h ∈ hits Pattern.plainUse cs, h.start = pos ∧ h.value = n) ↔ PlainUse cs n pos := by
  rw [Source.mem_plainUse_iff]
  constructor
  · rintro ⟨front, y, rest, rfl, rfl, hread⟩
    obtain ⟨rfl, ⟨hstart, hident⟩, hbefore, hafter, hmarks⟩ := Source.plainUse_eq_some_iff.1 hread
    have hdrop : (front ++ (n ++ rest)).drop (front.length + n.length) = rest := by
      rw [List.drop_length_add_append, List.drop_left]
    refine ⟨hstart, hident, ?_, ?_, ?_, ?_⟩
    · rw [slice, List.drop_left, Nat.add_sub_cancel_left, List.take_left]
    · rw [List.take_left]
      exact hbefore
    · rw [hdrop]
      exact hafter
    · rw [hdrop]
      exact marksOther_eq_false_iff.1 hmarks
  · intro h
    have hle := h.le_length
    have hword : cs.drop pos = n ++ cs.drop (pos + n.length) := by
      have hstands := h.stands
      rw [slice, Nat.add_sub_cancel_left] at hstands
      rw [← List.drop_drop]
      conv_lhs => rw [← List.take_append_drop n.length (cs.drop pos), hstands]
    refine ⟨cs.take pos, cs.drop pos, cs.drop (pos + n.length),
      (List.take_append_drop pos cs).symm, List.length_take_of_le (by omega), ?_⟩
    exact Source.plainUse_eq_some_iff.2
      ⟨hword, ⟨h.start, h.ident⟩, h.before, h.after, marksOther_eq_false_iff.2 h.plain⟩

theorem mem_undeclaredUses_iff :
    (∃ u ∈ undeclaredUses cs, u.start = pos ∧ u.value = n) ↔ ¬ Known cs n ∧ Counts cs n pos := by
  have hfilter : ∀ u : Hit (List Char), u ∈ undeclaredUses cs ↔
      u ∈ hits Pattern.plainUse cs ∧ (isKnown (declaredNames cs) u.value = false ∧
        (nonCode cs).any (·.contains u.start) = false) ∧ afterDot cs u.start = false := by
    intro u
    simp only [undeclaredUses, List.mem_filter, Bool.and_eq_true, Bool.not_eq_true']
  constructor
  · rintro ⟨u, hu, rfl, rfl⟩
    obtain ⟨hu, ⟨hknown, hregion⟩, hdot⟩ := (hfilter u).1 hu
    have hplain := mem_hits_plainUse_iff.1 ⟨u, hu, rfl, rfl⟩
    refine ⟨?_, ⟨hplain, inCode_iff.1 hregion, ?_⟩⟩
    · rw [← isKnown_iff, hknown]
      exact Bool.false_ne_true
    · rw [ne_eq, ← afterDot_iff, hdot]
      exact Bool.false_ne_true
  · rintro ⟨hknown, hcounts⟩
    obtain ⟨u, hu, rfl, rfl⟩ := mem_hits_plainUse_iff.2 hcounts.toPlainUse
    refine ⟨u, (hfilter u).2 ⟨hu, ⟨?_, inCode_iff.2 hcounts.code⟩, ?_⟩, rfl, rfl⟩
    · rw [← Bool.not_eq_true, isKnown_iff]
      exact hknown
    · rw [← Bool.not_eq_true, afterDot_iff]
      exact hcounts.undotted

/-! ### First uses -/

theorem firstUses_sublist (seen : List (List Char)) (uses : List (Hit (List Char))) :
    (firstUses seen uses).Sublist uses := by
  fun_induction firstUses seen uses with
  | case1 => exact .slnil
  | case2 seen use rest hseen ih => exact ih.cons use
  | case3 seen use rest hseen ih => exact ih.cons_cons use

/-- Of the uses of one name, which come in order, the first is the one at the smallest offset. -/
theorem mem_firstUses_iff {seen : List (List Char)} {uses : List (Hit (List Char))}
    (hsorted : uses.Pairwise fun h g => h.start < g.start) {h : Hit (List Char)} :
    h ∈ firstUses seen uses ↔
      h ∈ uses ∧ h.value ∉ seen ∧ ∀ g ∈ uses, g.value = h.value → h.start ≤ g.start := by
  fun_induction firstUses seen uses with
  | case1 => simp
  | case2 seen use rest hseen ih =>
    obtain ⟨hfirst, hsorted⟩ := List.pairwise_cons.1 hsorted
    have hmem : use.value ∈ seen := by simpa using hseen
    rw [ih hsorted]
    constructor
    · rintro ⟨hrest, hnew, hle⟩
      refine ⟨List.mem_cons_of_mem use hrest, hnew, List.forall_mem_cons.2 ⟨fun heq => ?_, hle⟩⟩
      exact absurd (heq ▸ hmem) hnew
    · rintro ⟨hrest, hnew, hle⟩
      rcases List.mem_cons.1 hrest with rfl | hrest
      · exact absurd hmem hnew
      · exact ⟨hrest, hnew, (List.forall_mem_cons.1 hle).2⟩
  | case3 seen use rest hseen ih =>
    obtain ⟨hfirst, hsorted⟩ := List.pairwise_cons.1 hsorted
    have hmem : use.value ∉ seen := by simpa using hseen
    rw [List.mem_cons, ih hsorted]
    constructor
    · rintro (rfl | ⟨hrest, hnew, hle⟩)
      · refine ⟨List.mem_cons_self, hmem, List.forall_mem_cons.2 ⟨fun _ => Nat.le_refl _, ?_⟩⟩
        exact fun g hg _ => Nat.le_of_lt (hfirst g hg)
      · rw [List.mem_cons, not_or] at hnew
        refine ⟨List.mem_cons_of_mem use hrest, hnew.2, List.forall_mem_cons.2 ⟨?_, hle⟩⟩
        exact fun heq => absurd heq.symm hnew.1
    · rintro ⟨hrest, hnew, hle⟩
      obtain ⟨huse, hle⟩ := List.forall_mem_cons.1 hle
      rcases List.mem_cons.1 hrest with rfl | hrest
      · exact .inl rfl
      · refine .inr ⟨hrest, ?_, hle⟩
        rw [List.mem_cons, not_or]
        refine ⟨fun heq => ?_, hnew⟩
        exact absurd (huse heq.symm) (Nat.not_le_of_lt (hfirst h hrest))

theorem undeclaredUses_sorted (cs : List Char) :
    (undeclaredUses cs).Pairwise fun h g => h.start < g.start :=
  (hits_sorted Pattern.plainUse cs).filter _

/-- The use of a name that is reported is the first one that counts. -/
theorem mem_first_iff :
    (∃ u ∈ firstUses [] (undeclaredUses cs), u.start = pos ∧ u.value = n) ↔
      ¬ Known cs n ∧ Counts cs n pos ∧ ∀ earlier < pos, ¬ Counts cs n earlier := by
  constructor
  · rintro ⟨u, hu, rfl, rfl⟩
    obtain ⟨hu, -, hle⟩ := (mem_firstUses_iff (undeclaredUses_sorted cs)).1 hu
    obtain ⟨hknown, hcounts⟩ := mem_undeclaredUses_iff.1 ⟨u, hu, rfl, rfl⟩
    refine ⟨hknown, hcounts, fun earlier hearlier hagain => ?_⟩
    obtain ⟨g, hg, rfl, hvalue⟩ := mem_undeclaredUses_iff.2 ⟨hknown, hagain⟩
    exact absurd (hle g hg hvalue) (Nat.not_le_of_lt hearlier)
  · rintro ⟨hknown, hcounts, hfirst⟩
    obtain ⟨u, hu, rfl, rfl⟩ := mem_undeclaredUses_iff.2 ⟨hknown, hcounts⟩
    refine ⟨u, (mem_firstUses_iff (undeclaredUses_sorted cs)).2 ⟨hu, List.not_mem_nil, ?_⟩,
      rfl, rfl⟩
    intro g hg hvalue
    refine Nat.not_lt.1 fun hlt => hfirst g.start hlt ?_
    exact (mem_undeclaredUses_iff.1 ⟨g, hg, rfl, hvalue⟩).2

end Check

namespace Document

open Check Text

def undeclaredWarning (d : Document) (n : List Char) (pos : Nat) : Diagnostic :=
  { severity := .warning
    range := d.rangeOf pos (pos + n.length : Nat)
    message := undeclaredMessage n
    source := .semantics
    code := some Code.undeclaredVariable }

variable {d : Document}

theorem covers_plainUse {n : List Char} {pos : Nat} (h : PlainUse d.chars n pos) :
    d.Covers (d.rangeOf pos (pos + n.length : Nat)) n pos :=
  covers_rangeOf h.le_length h.stands

theorem checkUsage_eq (d : Document) : d.checkUsage =
    (firstUses [] (undeclaredUses d.chars)).map fun u => d.undeclaredWarning u.value u.start := by
  rw [checkUsage, usageFindings, List.map_map]
  rfl

theorem mem_checkUsage_iff {g : Diagnostic} : g ∈ d.checkUsage ↔
    ∃ n pos, g = d.undeclaredWarning n pos ∧ ¬ Known d.chars n ∧ Counts d.chars n pos ∧
      ∀ earlier < pos, ¬ Counts d.chars n earlier := by
  rw [checkUsage_eq, List.mem_map]
  constructor
  · rintro ⟨u, hu, rfl⟩
    exact ⟨u.value, u.start, rfl, mem_first_iff.1 ⟨u, hu, rfl, rfl⟩⟩
  · rintro ⟨n, pos, rfl, hfirst⟩
    obtain ⟨u, hu, rfl, rfl⟩ := mem_first_iff.2 hfirst
    exact ⟨u, hu, rfl⟩

/-- A name is reported iff neither the language nor the text knows it and a use of it counts. It is
reported once, with a warning that covers the first such use, and the warnings come in the order of
these uses. -/
theorem checkUsage_exact (d : Document) :
    (∀ n : String, d.Undeclared n ↔
      ¬ Known d.chars n.toList ∧ ∃ pos, Counts d.chars n.toList pos) ∧
    ∃ uses : List (List Char × Nat),
      d.checkUsage = (uses.map fun u => d.undeclaredWarning u.1 u.2) ∧
      uses.Pairwise (fun u v => u.2 < v.2) ∧ (uses.map (·.1)).Nodup ∧
      (∀ u ∈ uses, d.Covers (d.undeclaredWarning u.1 u.2).range u.1 u.2) ∧
      ∀ n pos, (n, pos) ∈ uses ↔
        ¬ Known d.chars n ∧ Counts d.chars n pos ∧ ∀ earlier < pos, ¬ Counts d.chars n earlier := by
  constructor
  · intro n
    rw [undeclared_iff]
    constructor
    · rintro ⟨u, hu, hvalue⟩
      obtain ⟨hknown, hcounts⟩ := mem_undeclaredUses_iff.1 ⟨u, hu, rfl, hvalue⟩
      exact ⟨hknown, u.start, hcounts⟩
    · rintro ⟨hknown, pos, hcounts⟩
      obtain ⟨u, hu, -, hvalue⟩ := mem_undeclaredUses_iff.2 ⟨hknown, hcounts⟩
      exact ⟨u, hu, hvalue⟩
  · have hsorted :
        ((firstUses [] (undeclaredUses d.chars)).map fun u => (u.value, u.start)).Pairwise
          fun u v => u.2 < v.2 :=
      List.pairwise_map.2 ((undeclaredUses_sorted d.chars).sublist (firstUses_sublist _ _))
    have hmem : ∀ n pos, (n, pos) ∈
        (firstUses [] (undeclaredUses d.chars)).map (fun u => (u.value, u.start)) ↔
          ¬ Known d.chars n ∧ Counts d.chars n pos ∧
            ∀ earlier < pos, ¬ Counts d.chars n earlier := by
      intro n pos
      rw [← mem_first_iff, List.mem_map]
      simp only [Prod.mk.injEq, and_comm]
    refine ⟨_, ?_, hsorted, ?_, ?_, hmem⟩
    · rw [checkUsage_eq, List.map_map]
      rfl
    · refine List.pairwise_map.2 (hsorted.imp_of_mem fun {u v} hu hv hlt heq => ?_)
      obtain ⟨-, hcounts, -⟩ := (hmem u.1 u.2).1 hu
      obtain ⟨-, -, hfirst⟩ := (hmem v.1 v.2).1 hv
      exact hfirst u.2 hlt (heq ▸ hcounts)
    · intro u hu
      obtain ⟨-, hcounts, -⟩ := (hmem u.1 u.2).1 hu
      exact covers_plainUse hcounts.toPlainUse

end Document

end BurnLens
