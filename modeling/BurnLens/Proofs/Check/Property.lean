import BurnLens.Proofs.Check.Undeclared

/-!
# Names behind a dot

The usage stage looks for the dot in front of a property name among the twenty characters before it.
So it reports no property name that stands at most nineteen characters of white space behind its dot
(`afterDot_iff_dotBefore`); one that stands farther off is reported like any other name
(`checkUsage_behindDot`).
-/

namespace BurnLens

namespace Check

open Text

/-- The nearest character in front of the offset that is no white space is a dot, and `k` characters
of white space stand between the two. -/
def DotBefore (cs : List Char) (pos k : Nat) : Prop :=
  ∃ front gap, cs.take pos = front ++ '.' :: gap ∧ gap.length = k ∧ ∀ c ∈ gap, isBlank c = true

variable {cs n : List Char} {pos : Nat}

/-- A bounded search for the first character that is not in a class. -/
theorem head?_dropWhile_take_iff {p : Char → Bool} {c : Char} (hc : p c = false) {l : List Char}
    {k : Nat} : ((l.take k).dropWhile p).head? = some c ↔
      ∃ gap rest, l = gap ++ c :: rest ∧ gap.length < k ∧ ∀ d ∈ gap, p d = true := by
  constructor
  · intro hhead
    obtain ⟨rest, hrest⟩ := List.head?_eq_some_iff.1 hhead
    have hsplit : l.take k = (l.take k).takeWhile p ++ c :: rest := by
      rw [← hrest, List.takeWhile_append_dropWhile]
    have hlength := congrArg List.length hsplit
    rw [List.length_append, List.length_cons, List.length_take] at hlength
    refine ⟨(l.take k).takeWhile p, rest ++ l.drop k, ?_, by omega,
      fun d hd => List.mem_takeWhile_imp hd⟩
    calc l = l.take k ++ l.drop k := (List.take_append_drop k l).symm
      _ = (l.take k).takeWhile p ++ c :: rest ++ l.drop k := by rw [← hsplit]
      _ = (l.take k).takeWhile p ++ c :: (rest ++ l.drop k) := by
        rw [List.append_assoc, List.cons_append]
  · rintro ⟨gap, rest, rfl, hlt, hgap⟩
    obtain ⟨j, hj⟩ : ∃ j, k - gap.length = j + 1 := ⟨k - gap.length - 1, by omega⟩
    rw [List.take_append, List.take_of_length_le (Nat.le_of_lt hlt), hj, List.take_succ_cons,
      List.dropWhile_append_of_pos hgap, List.dropWhile_cons_of_neg (by simp [hc]), List.head?_cons]

theorem afterDot_iff_dotBefore (hle : pos ≤ cs.length) :
    afterDot cs pos = true ↔ ∃ k < 20, DotBefore cs pos k := by
  have hwindow : afterDot cs pos =
      ((((cs.take pos).reverse.take 20).dropWhile isBlank).head? == some '.') := by
    have heq := afterDot_eq (cs.take pos) (cs.drop pos)
    rwa [List.take_append_drop, List.length_take_of_le hle] at heq
  rw [hwindow, beq_iff_eq, head?_dropWhile_take_iff (by decide)]
  constructor
  · rintro ⟨gap, rest, hseen, hlt, hgap⟩
    refine ⟨gap.length, hlt, rest.reverse, gap.reverse, ?_, List.length_reverse, ?_⟩
    · rw [← List.reverse_inj, hseen]
      simp
    · exact fun c hc => hgap c (List.mem_reverse.1 hc)
  · rintro ⟨k, hlt, front, gap, hcut, rfl, hgap⟩
    refine ⟨gap.reverse, front.reverse, ?_, by rwa [List.length_reverse], ?_⟩
    · rw [hcut]
      simp
    · exact fun c hc => hgap c (List.mem_reverse.1 hc)

theorem Counts.le_of_dotBefore (h : Counts cs n pos) {k : Nat} (hdot : DotBefore cs pos k) :
    20 ≤ k := by
  have hle := h.le_length
  refine Nat.not_lt.1 fun hlt => h.undotted ?_
  exact afterDot_iff.1 ((afterDot_iff_dotBefore (by omega)).2 ⟨k, hlt, hdot⟩)

theorem DotBefore.unique {j k : Nat} (hj : DotBefore cs pos j) (hk : DotBefore cs pos k) :
    j = k := by
  obtain ⟨front, gap, hcut, rfl, hgap⟩ := hj
  obtain ⟨front', gap', hcut', rfl, hgap'⟩ := hk
  have hblank : ∀ w : List Char, (∀ c ∈ w, isBlank c = true) → '.' ∉ w.reverse := by
    intro w hw hmem
    exact absurd (hw '.' (List.mem_reverse.1 hmem)) (by decide)
  have hreverse := congrArg List.reverse (hcut.symm.trans hcut')
  rw [List.reverse_append, List.reverse_append, List.reverse_cons, List.reverse_cons,
    List.append_assoc, List.append_assoc] at hreverse
  have heq := (eq_of_append_cons_eq (hblank gap hgap) (hblank gap' hgap') hreverse).1
  rw [List.reverse_inj.1 heq]

theorem counts_of_dotBefore (h : PlainUse cs n pos) (hcode : InCode cs pos) {k : Nat}
    (hdot : DotBefore cs pos k) (hk : 20 ≤ k) : Counts cs n pos := by
  have hle := h.le_length
  refine ⟨h, hcode, fun hlast => ?_⟩
  obtain ⟨j, hj, hnear⟩ := (afterDot_iff_dotBefore (by omega)).1 (afterDot_iff.2 hlast)
  rw [hnear.unique hdot] at hj
  omega

end Check

namespace Document

open Check

/-- The offset at which a diagnostic starts. -/
def startOf (d : Document) (g : Diagnostic) : Nat :=
  d.offsetAt g.range.start.line g.range.start.character

/-- A name behind a dot is reported only when twenty or more characters of white space stand between
the two. Then it is reported iff nothing else keeps it from being the first use of an undeclared
name. -/
theorem checkUsage_behindDot (d : Document) :
    (∀ g ∈ d.checkUsage, ∀ k, DotBefore d.chars (d.startOf g) k → 20 ≤ k) ∧
    ((∃ g ∈ d.checkUsage, ∃ k, DotBefore d.chars (d.startOf g) k) ↔
      ∃ n pos k, 20 ≤ k ∧ DotBefore d.chars pos k ∧ ¬ Known d.chars n ∧ PlainUse d.chars n pos ∧
        InCode d.chars pos ∧ ∀ earlier < pos, ¬ Counts d.chars n earlier) := by
  have hstart : ∀ {n pos}, Counts d.chars n pos → d.startOf (d.undeclaredWarning n pos) = pos :=
    fun h => (covers_plainUse h.toPlainUse).start
  constructor
  · intro g hg k hdot
    obtain ⟨n, pos, rfl, -, hcounts, -⟩ := mem_checkUsage_iff.1 hg
    rw [hstart hcounts] at hdot
    exact hcounts.le_of_dotBefore hdot
  · constructor
    · rintro ⟨g, hg, k, hdot⟩
      obtain ⟨n, pos, rfl, hknown, hcounts, hfirst⟩ := mem_checkUsage_iff.1 hg
      rw [hstart hcounts] at hdot
      exact ⟨n, pos, k, hcounts.le_of_dotBefore hdot, hdot, hknown, hcounts.toPlainUse,
        hcounts.code, hfirst⟩
    · rintro ⟨n, pos, k, hk, hdot, hknown, hplain, hcode, hfirst⟩
      have hcounts := counts_of_dotBefore hplain hcode hdot hk
      refine ⟨_, mem_checkUsage_iff.2 ⟨n, pos, rfl, hknown, hcounts, hfirst⟩, k, ?_⟩
      rw [hstart hcounts]
      exact hdot

/-- Behind a line break and nineteen spaces the name of a property is reported. -/
theorem checkUsage_farDot :
    ¬ ∀ g ∈ (Document.mk "" 0 "print(a.\n                   size)").checkUsage, ∀ k,
      ¬ DotBefore "print(a.\n                   size)".toList
        ((Document.mk "" 0 "print(a.\n                   size)").startOf g) k := by
  have hreported : ∃ g ∈ (Document.mk "" 0 "print(a.\n                   size)").checkUsage,
      (Document.mk "" 0 "print(a.\n                   size)").startOf g = 28 := by
    decide +kernel
  obtain ⟨g, hg, hstart⟩ := hreported
  intro hnone
  refine hnone g hg 20 ?_
  rw [hstart]
  refine ⟨"print(a".toList, '\n' :: List.replicate 19 ' ', by decide +kernel, rfl, ?_⟩
  exact List.forall_mem_cons.2 ⟨rfl, fun c hc => List.eq_of_mem_replicate hc ▸ rfl⟩

end Document

end BurnLens
