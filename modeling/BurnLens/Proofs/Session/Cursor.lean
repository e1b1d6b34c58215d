import BurnLens.Proofs.Text.Maximal
import BurnLens.Proofs.Text.Position
import BurnLens.Session

/-!
# The identifier at the cursor

The word at a cursor is the one longest run of identifier characters that it touches: it may stand
in front of the run, inside of it or directly behind it. So wherever it touches a name, one
declaration is found (`cursor_word`).
-/

namespace BurnLens

open Text

namespace Document
variable {d : Document} {offset : Int}

theorem clamp_eq (d : Document) (offset : Int) :
    (max 0 (min offset d.chars.length)).toNat = d.clamp offset := by
  rw [clamp]
  omega

theorem wordAt_eq_empty_iff :
    d.wordAt offset = "" ↔ ¬ Touches isIdentChar d.chars (d.clamp offset) := by
  rw [touches_iff (d.clamp_le offset), wordAt, String.ofList_eq_empty_iff, List.append_eq_nil_iff,
    List.reverse_eq_nil_iff, ← List.length_eq_zero_iff, ← List.length_eq_zero_iff]
  omega

/-- The longest run that an offset touches. -/
theorem exists_isRun (h : Touches isIdentChar d.chars (d.clamp offset)) :
    ∃ start stop, IsRun isIdentChar d.chars start stop ∧ start ≤ d.clamp offset ∧
      d.clamp offset ≤ stop ∧ d.wordAt offset = String.ofList (slice d.chars start stop) :=
  ⟨_, _, isRun_touching (d.clamp_le offset) ((touches_iff (d.clamp_le offset)).1 h),
    Nat.sub_le _ _, Nat.le_add_right _ _,
    congrArg String.ofList (slice_touching _ (d.clamp_le offset)).symm⟩

theorem wordAt_of_isRun {start stop : Nat} (h : IsRun isIdentChar d.chars start stop)
    (hstart : start ≤ d.clamp offset) (hstop : d.clamp offset ≤ stop) :
    d.wordAt offset = String.ofList (slice d.chars start stop) := by
  obtain ⟨start', stop', h', hstart', hstop', hword⟩ :=
    exists_isRun (h.touches hstart hstop)
  obtain ⟨rfl, rfl⟩ := h.eq_of_touches h' hstart hstop hstart' hstop'
  exact hword

end Document

/-- The word at an offset is the longest run of identifier characters that the offset touches, at
its end too. There is just one if an identifier character stands next to the offset, and no word
otherwise. With a cursor anywhere on a run, the definition asked for is that of the whole run. -/
theorem Session.cursor_word (d : Document) :
    (∀ offset : Int, let o := (max 0 (min offset d.chars.length)).toNat
      (d.wordAt offset = "" ↔ ¬ Touches isIdentChar d.chars o) ∧
      (Touches isIdentChar d.chars o →
        ∃! run : Nat × Nat, IsRun isIdentChar d.chars run.1 run.2 ∧ run.1 ≤ o ∧ o ≤ run.2) ∧
      ∀ start stop, IsRun isIdentChar d.chars start stop → start ≤ o → o ≤ stop →
        d.wordAt offset = String.ofList (slice d.chars start stop)) ∧
    ∀ (s : Session) (uri : String), s.documents.get? uri = some d →
      ∀ start stop, IsRun isIdentChar d.chars start stop → ∀ line character,
        start ≤ d.offsetAt line character → d.offsetAt line character ≤ stop →
        s.definitionAt uri line character =
          s.pipeline.index.definition (String.ofList (slice d.chars start stop)) uri := by
  constructor
  · intro offset
    rw [d.clamp_eq offset]
    refine ⟨Document.wordAt_eq_empty_iff, fun h => ?_,
      fun start stop => Document.wordAt_of_isRun⟩
    obtain ⟨start, stop, hrun, hstart, hstop, -⟩ := Document.exists_isRun h
    refine ⟨(start, stop), ⟨hrun, hstart, hstop⟩, ?_⟩
    rintro ⟨start', stop'⟩ ⟨hrun', hstart', hstop'⟩
    obtain ⟨rfl, rfl⟩ := hrun.eq_of_touches hrun' hstart hstop hstart' hstop'
    rfl
  · intro s uri hopen start stop hrun line character hstart hstop
    have hclamp : d.clamp (d.offsetAt line character) = d.offsetAt line character :=
      Document.clamp_of_le (Nat.le_trans hstop hrun.le)
    have hword := Document.wordAt_of_isRun hrun (hclamp.symm ▸ hstart) (hclamp.symm ▸ hstop)
    have hne : d.wordAt (d.offsetAt line character) ≠ "" := by
      rw [Ne, Document.wordAt_eq_empty_iff, hclamp, not_not]
      exact hrun.touches hstart hstop
    simp only [definitionAt, hopen, Option.bind_eq_bind, Option.bind_some]
    rw [if_neg hne, hword]

end BurnLens
