import BurnLens.Proofs.File.Place
import BurnLens.Proofs.Text.Position

/-!
# Offsets and places are inverse

The lines of a text start one behind the other (`lineStart_succ`), and an offset is on the last line
that starts at or before it (`lineStart_le_iff`): this is what a binary search in the table of line
starts finds. From an offset to its place and back nothing is lost but what lies outside of the
text; from a place to its offset and back nothing but the columns behind the end of a line, and
lines the text does not have (`coordinates_inverse`).
-/

namespace BurnLens

/-- On an earlier line, or on the same line further to the left. -/
def Position.Before (a b : Position) : Prop :=
  a.line < b.line ∨ a.line = b.line ∧ a.character < b.character

namespace Document

open Text

variable {d : Document} {o n m : Nat}

/-! ### The table of line starts -/

theorem lineStart_succ (h : n < d.lines.length) :
    d.lineStart (n + 1) = d.lineStart n + d.lines[n].length + 1 := by
  unfold lineStart
  rw [List.take_add_one, List.getElem?_eq_getElem h, List.flatMap_append, List.length_append]
  simp
  omega

theorem lineStart_mono (h : n ≤ m) : d.lineStart n ≤ d.lineStart m := by
  obtain ⟨k, rfl⟩ := Nat.exists_eq_add_of_le h
  unfold lineStart
  rw [List.take_add, List.flatMap_append, List.length_append]
  exact Nat.le_add_right _ _

/-- An offset is on the last line that starts at or before it. -/
theorem lineStart_le_iff (ho : o ≤ d.chars.length) :
    d.lineStart n ≤ o ↔ n ≤ (d.positionAt o).line := by
  obtain ⟨m, hm, column, hcolumn, hplace, hstart⟩ := line_of_le ho
  rw [hplace]
  constructor
  · intro hle
    refine Int.ofNat_le.2 (Nat.le_of_not_lt fun hlt => ?_)
    have hnext : d.lineStart (m + 1) ≤ d.lineStart n := lineStart_mono hlt
    rw [lineStart_succ hm] at hnext
    omega
  · intro hle
    have hmono := lineStart_mono (d := d) (Int.ofNat_le.1 hle)
    omega

theorem positionAt_before {o' : Nat} (hlt : o < o') (ho' : o' ≤ d.chars.length) :
    (d.positionAt o).Before (d.positionAt o') := by
  obtain ⟨n, -, column, -, hplace, hstart⟩ := line_of_le (d := d) (o := o) (by omega)
  obtain ⟨n', -, column', -, hplace', hstart'⟩ := line_of_le ho'
  have hle : n ≤ (d.positionAt o').line := (lineStart_le_iff ho').1 (by omega)
  rw [hplace'] at hle
  rw [hplace, hplace']
  rcases Nat.lt_or_eq_of_le (Int.ofNat_le.1 hle) with hline | rfl
  · exact .inl (Int.ofNat_lt.2 hline)
  · exact .inr ⟨rfl, Int.ofNat_lt.2 (by omega)⟩

/-! ### Places that an editor may send -/

theorem positionAt_offsetAt (hn : n < d.lines.length) (c : Int) :
    d.positionAt (d.offsetAt n c) = ⟨n, (min c.toNat d.lines[n].length : Nat)⟩ := by
  have hsplit : d.lines = d.lines.take n ++
      (d.lines[n].take (min c.toNat d.lines[n].length) ++
        d.lines[n].drop (min c.toNat d.lines[n].length)) :: d.lines.drop (n + 1) := by
    rw [List.take_append_drop, List.getElem_cons_drop, List.take_append_drop]
  have hplace := positionAt_of_lines hsplit
  rw [List.length_take_of_le (Nat.min_le_right _ _), List.length_take_of_le (Nat.le_of_lt hn)]
    at hplace
  rw [offsetAt_of_lt hn]
  exact hplace

theorem intercalate_lines (d : Document) :
    "\n".intercalate (d.lines.map String.ofList) = d.text := by
  have hid : (d.lines.map String.ofList).map String.toList = d.lines := by
    rw [List.map_map]
    exact List.map_id'' (fun cs => String.toList_ofList) _
  refine String.toList_inj.1 ?_
  rw [String.toList_intercalate, hid]
  exact (intercalate_singleton '\n' _).trans (joinWith_splitOn '\n' d.chars)

/-- An offset is the offset of its place, moved into the text. A place on a line of the text is the
place of its offset, the column moved onto the line; a line in front of the text is its start, one
behind the text its end. Places come in the order of their offsets, each on the last line that
starts at or before the offset. The lines with newlines between them are the text. -/
theorem coordinates_inverse (d : Document) :
    (∀ o : Int, let p := d.positionAt o
      (d.offsetAt p.line p.character : Int) = max 0 (min o d.chars.length)) ∧
    (∀ l c : Int, 0 ≤ l → l < d.lineCount → ∃ t, d.lineText? l = some t ∧
      d.positionAt (d.offsetAt l c) = ⟨l, min (max 0 c) t.length⟩) ∧
    (∀ l c : Int, l < 0 → d.offsetAt l c = 0 ∧ d.lineText? l = none) ∧
    (∀ l c : Int, d.lineCount ≤ l → d.offsetAt l c = d.chars.length ∧ d.lineText? l = none) ∧
    (∀ o o' : Nat, o < o' → o' ≤ d.chars.length →
      (d.positionAt o).Before (d.positionAt o')) ∧
    (∀ o n : Nat, o ≤ d.chars.length → (d.lineStart n ≤ o ↔ n ≤ (d.positionAt o).line)) ∧
    ∃ ls : List String, ls.length = d.lineCount ∧ (∀ n : Nat, d.lineText? n = ls[n]?) ∧
      "\n".intercalate ls = d.text := by
  refine ⟨fun o => ?_, fun l c hl hlt => ?_, fun l c hl => ?_, fun l c hl => ?_,
    fun _ _ => positionAt_before, fun _ _ => lineStart_le_iff,
    d.lines.map String.ofList, by rw [List.length_map]; rfl, fun n => ?_, d.intercalate_lines⟩
  · have hback := offsetAt_positionAt (d.clamp_le o)
    rw [d.positionAt_clamp] at hback
    dsimp only
    rw [hback, clamp]
    omega
  · obtain ⟨n, rfl⟩ := Int.eq_ofNat_of_zero_le hl
    have hn : n < d.lines.length := Int.ofNat_lt.1 hlt
    refine ⟨String.ofList d.lines[n], ?_, ?_⟩
    · simp [lineText?, List.getElem?_eq_getElem hn]
    · rw [positionAt_offsetAt hn, Position.mk.injEq, String.length_ofList]
      omega
  · simp [offsetAt, lineText?, hl]
  · have hnone : d.lines[l.toNat]? = none := by
      rw [List.getElem?_eq_none_iff]
      unfold lineCount at hl
      omega
    simp [offsetAt, lineText?, hnone]
    omega
  · rw [lineText?, if_neg (by omega), Int.toNat_natCast, List.getElem?_map]

end Document

end BurnLens
