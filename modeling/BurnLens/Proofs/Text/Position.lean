import Mathlib.Data.List.Induction
import BurnLens.Proofs.Symbol.Found
import BurnLens.Text.Document

/-!
# Places and offsets

A text is cut behind each of its separators: whole pieces, and what is left (`exists_cut`). In front
of an offset these are the lines that end there and the start of its own. The place of the
offset counts both, and read back it is the offset again (`offsetAt_positionAt`). So the range
between two offsets of a text covers just what stands between them (`covers_slice`).
-/

namespace BurnLens

namespace Text

/-- Pieces, each with the separator behind it. -/
def whole (sep : Char) (ps : List (List Char)) : List Char :=
  ps.flatMap fun p => p ++ [sep]

theorem whole_cons (sep : Char) (p : List Char) (ps : List (List Char)) :
    whole sep (p :: ps) = p ++ sep :: whole sep ps := by
  simp [whole]

theorem exists_cut (sep : Char) (cs : List Char) :
    ∃ ps l, cs = whole sep ps ++ l ∧ (∀ p ∈ ps, sep ∉ p) ∧ sep ∉ l := by
  induction cs using List.reverseRecOn with
  | nil => exact ⟨[], [], rfl, by simp, by simp⟩
  | append_singleton cs c ih =>
    obtain ⟨ps, l, rfl, hps, hl⟩ := ih
    by_cases hc : c = sep
    · refine ⟨ps ++ [l], [], by simp [whole, hc], ?_, by simp⟩
      intro p hp
      rcases List.mem_append.1 hp with hp | hp
      · exact hps p hp
      · rwa [List.mem_singleton.1 hp]
    · exact ⟨ps, l ++ [c], by simp, hps, by simp [hl, Ne.symm hc]⟩

section
variable {sep : Char} {ps : List (List Char)} {l : List Char}

theorem count_whole (hps : ∀ p ∈ ps, sep ∉ p) : (whole sep ps).count sep = ps.length := by
  induction ps with
  | nil => rfl
  | cons p ps ih =>
    have hrest := ih fun q hq => hps q (List.mem_cons_of_mem _ hq)
    have hp := List.count_eq_zero.2 (hps p List.mem_cons_self)
    rw [whole_cons, List.count_append, List.count_cons_self, hp, hrest, List.length_cons]
    omega

theorem column_whole (hl : sep ∉ l) :
    (whole sep ps ++ l).reverse.takeWhile (· != sep) = l.reverse := by
  have hrun : run (· != sep) (l.reverse ++ (whole sep ps).reverse) =
      (l.reverse, (whole sep ps).reverse) := by
    refine run_exact ?_ ?_
    · intro c hc
      exact bne_iff_ne.2 fun heq => hl (heq ▸ List.mem_reverse.1 hc)
    · rcases List.eq_nil_or_concat ps with rfl | ⟨qs, q, rfl⟩
      · simp [whole]
      · simp [whole]
  rw [List.reverse_append]
  exact congrArg Prod.fst hrun

theorem splitOn_whole (hps : ∀ p ∈ ps, sep ∉ p) (cs : List Char) :
    splitOn sep (whole sep ps ++ cs) = ps ++ splitOn sep cs := by
  induction ps with
  | nil => rfl
  | cons p ps ih =>
    have hrest := ih fun q hq => hps q (List.mem_cons_of_mem _ hq)
    rw [whole_cons, List.append_assoc, List.cons_append,
      splitOn_append_cons (hps p List.mem_cons_self), hrest, List.cons_append]

theorem joinWith_whole (q : List Char) (qs : List (List Char)) :
    joinWith sep (ps ++ q :: qs) = whole sep ps ++ joinWith sep (q :: qs) := by
  induction ps with
  | nil => rfl
  | cons p ps ih =>
    obtain ⟨r, rs, hrest⟩ : ∃ r rs, ps ++ q :: qs = r :: rs := by
      cases ps with
      | nil => exact ⟨q, qs, rfl⟩
      | cons p' ps => exact ⟨p', ps ++ q :: qs, rfl⟩
    rw [List.cons_append, hrest, joinWith, ← hrest, ih, whole_cons, List.append_assoc,
      List.cons_append]

/-- A text without separators goes to the first piece. -/
theorem splitOn_append (hl : sep ∉ l) (cs : List Char) :
    ∃ p qs, splitOn sep cs = p :: qs ∧ splitOn sep (l ++ cs) = (l ++ p) :: qs := by
  induction l with
  | nil =>
    obtain ⟨p, qs, h⟩ := List.exists_cons_of_ne_nil (splitOn_ne_nil sep cs)
    exact ⟨p, qs, h, h⟩
  | cons c l ih =>
    obtain ⟨p, qs, h, hl⟩ := ih fun hmem => hl (List.mem_cons_of_mem _ hmem)
    have hc : (c == sep) = false := beq_eq_false_iff_ne.2 fun heq => by simp [heq] at *
    exact ⟨p, qs, h, by rw [List.cons_append, splitOn, hc, hl]; rfl⟩

end

end Text

namespace Document

open Text

variable {d : Document}

theorem clamp_of_le {o : Nat} (h : o ≤ d.chars.length) : d.clamp o = o := by
  rw [clamp, Int.toNat_natCast, Nat.min_eq_left h]

theorem clamp_le (d : Document) (o : Int) : d.clamp o ≤ d.chars.length :=
  Nat.min_le_right _ _

theorem positionAt_of_le {o : Nat} (h : o ≤ d.chars.length) :
    d.positionAt o = ⟨(d.chars.take o).count '\n',
      ((d.chars.take o).reverse.takeWhile (· != '\n')).length⟩ := by
  rw [positionAt, clamp_of_le h]

theorem positionAt_clamp (d : Document) (o : Int) : d.positionAt (d.clamp o) = d.positionAt o := by
  rw [positionAt_of_le (d.clamp_le o)]
  rfl

theorem offsetAt_of_lt {n : Nat} (hn : n < d.lines.length) (c : Int) :
    d.offsetAt n c = d.lineStart n + min c.toNat d.lines[n].length := by
  rw [offsetAt, if_neg (by omega), Int.toNat_natCast, List.getElem?_eq_getElem hn]

/-- Behind a start of a line, that line and the others stand. -/
theorem exists_chars {ps qs : List (List Char)} {line : List Char}
    (h : d.lines = ps ++ line :: qs) : ∃ rest, d.chars = whole '\n' ps ++ (line ++ rest) := by
  have hchars : joinWith '\n' (ps ++ line :: qs) = d.chars := h ▸ joinWith_splitOn '\n' d.chars
  rw [← hchars, joinWith_whole]
  cases qs with
  | nil => exact ⟨[], by rw [joinWith, List.append_nil]⟩
  | cons q qs => exact ⟨_, rfl⟩

/-- A place on a line is that of the characters before it. -/
theorem positionAt_of_lines {ps qs : List (List Char)} {l p : List Char}
    (h : d.lines = ps ++ (l ++ p) :: qs) :
    d.positionAt ((whole '\n' ps).length + l.length : Nat) = ⟨ps.length, l.length⟩ := by
  obtain ⟨rest, hchars⟩ := exists_chars h
  have hline : ∀ q ∈ d.lines, '\n' ∉ q := fun q hq => not_mem_of_mem_splitOn hq
  have hps : ∀ q ∈ ps, '\n' ∉ q := fun q hq => hline q (by simp [h, hq])
  have hl : '\n' ∉ l := fun hmem => hline (l ++ p) (by simp [h]) (List.mem_append_left p hmem)
  have hle : (whole '\n' ps).length + l.length ≤ d.chars.length := by
    rw [hchars]
    simp only [List.length_append]
    omega
  have htake : d.chars.take ((whole '\n' ps).length + l.length) = whole '\n' ps ++ l := by
    rw [hchars, List.append_assoc, ← List.append_assoc, ← List.length_append, List.take_left]
  rw [positionAt_of_le hle, htake, List.count_append, count_whole hps, List.count_eq_zero.2 hl,
    column_whole hl, List.length_reverse, Nat.add_zero]

/-- An offset is on a line, some characters behind its start. -/
theorem line_of_le {o : Nat} (h : o ≤ d.chars.length) :
    ∃ n, ∃ hn : n < d.lines.length, ∃ column ≤ d.lines[n].length,
      d.positionAt o = ⟨n, column⟩ ∧ d.lineStart n + column = o := by
  obtain ⟨ps, l, hcut, hps, hl⟩ := exists_cut '\n' (d.chars.take o)
  obtain ⟨p, qs, -, hsplit⟩ := splitOn_append hl (d.chars.drop o)
  have hlines : d.lines = ps ++ (l ++ p) :: qs := by
    rw [lines, ← List.take_append_drop o d.chars, hcut, List.append_assoc, splitOn_whole hps,
      hsplit]
  have hstart : d.lineStart ps.length = (whole '\n' ps).length := by
    rw [lineStart, hlines, List.take_left]
    rfl
  have hlength : (whole '\n' ps).length + l.length = o := by
    rw [← List.length_append, ← hcut, List.length_take_of_le h]
  have hplace := positionAt_of_lines hlines
  rw [hlength] at hplace
  exact ⟨ps.length, by simp [hlines], l.length, by simp [hlines], hplace, by rw [hstart, hlength]⟩

/-- The offset of the place of an offset. -/
theorem offsetAt_positionAt {o : Nat} (h : o ≤ d.chars.length) :
    d.offsetAt (d.positionAt o).line (d.positionAt o).character = o := by
  obtain ⟨n, hn, column, hcolumn, hplace, hstart⟩ := line_of_le h
  rw [hplace, offsetAt_of_lt hn, Int.toNat_natCast, Nat.min_eq_left hcolumn, hstart]

/-- Offsets with one place are one offset of the text. -/
theorem clamp_eq_of_positionAt_eq {o o' : Int} (h : d.positionAt o = d.positionAt o') :
    d.clamp o = d.clamp o' := by
  rw [← offsetAt_positionAt (d.clamp_le o), ← offsetAt_positionAt (d.clamp_le o'),
    d.positionAt_clamp, d.positionAt_clamp, h]

theorem eq_of_positionAt_eq {o o' : Nat} (h : o ≤ d.chars.length) (h' : o' ≤ d.chars.length)
    (heq : d.positionAt o = d.positionAt o') : o = o' := by
  have hclamp := clamp_eq_of_positionAt_eq heq
  rwa [clamp_of_le h, clamp_of_le h'] at hclamp

/-! ### Ranges -/

/-- The range is the stretch of the text at the offset that reads `n`. -/
structure Covers (d : Document) (r : Range) (n : List Char) (pos : Nat) : Prop where
  start : d.offsetAt r.start.line r.start.character = pos
  stop : d.offsetAt r.stop.line r.stop.character = pos + n.length
  reads : slice d.chars pos (pos + n.length) = n

theorem covers_rangeOf {n : List Char} {pos : Nat} (hle : pos + n.length ≤ d.chars.length)
    (hreads : slice d.chars pos (pos + n.length) = n) :
    d.Covers (d.rangeOf pos (pos + n.length : Nat)) n pos :=
  ⟨offsetAt_positionAt (by omega), offsetAt_positionAt hle, hreads⟩

theorem covers_append {front n back : List Char} (h : d.chars = front ++ (n ++ back)) :
    d.Covers (d.rangeOf front.length (front.length + n.length : Nat)) n front.length := by
  refine covers_rangeOf ?_ (by rw [h, slice_append])
  rw [h, List.length_append, List.length_append]
  omega

theorem covers_slice {start stop : Nat} (hle : start ≤ stop) (hstop : stop ≤ d.chars.length) :
    d.Covers (d.rangeOf start stop) (slice d.chars start stop) start := by
  have hlength : start + (slice d.chars start stop).length = stop := by
    rw [slice, List.length_take, List.length_drop]
    omega
  have hcovers : d.Covers (d.rangeOf start (start + (slice d.chars start stop).length : Nat))
      (slice d.chars start stop) start :=
    covers_rangeOf (hlength.symm ▸ hstop) (by rw [hlength])
  rwa [hlength] at hcovers

theorem covers_char {c : Char} {pos : Nat} (h : d.chars[pos]? = some c) :
    d.Covers (d.rangeOf pos (pos + 1 : Nat)) [c] pos := by
  obtain ⟨hlt, -⟩ := List.getElem?_eq_some_iff.1 h
  have hreads : slice d.chars pos (pos + [c].length) = [c] := by
    simp [slice, List.take_one, h]
  exact covers_rangeOf (Nat.succ_le_of_lt hlt) hreads

end Document

end BurnLens
