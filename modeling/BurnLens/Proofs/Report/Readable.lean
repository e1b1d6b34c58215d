import BurnLens.Proofs.File.Place
import BurnLens.Report.Parse

/-!
# Reports that can be read

A report says where something is in decimal digits of any length, but numbers of more than
`ReportFault.digitLimit` digits are not read, and no search in a line starts from a column of
`ReportFault.columnLimit` or more. A notice is `Readable` if it asks for neither. A report is read
iff all the notices in it are (`parse_returns_iff`): suppressed messages ask for no number at all.
-/

namespace BurnLens

theorem mapM_returns_iff {ε α β : Type} {f : α → Except ε β} {xs : List α} :
    (∃ ys, xs.mapM f = .ok ys) ↔ ∀ x ∈ xs, ∃ y, f x = .ok y := by
  induction xs with
  | nil => exact ⟨fun _ _ h => (nomatch h), fun _ => ⟨[], rfl⟩⟩
  | cons x xs ih =>
    rw [List.forall_mem_cons, ← ih]
    constructor
    · rintro ⟨ys, h⟩
      rw [List.mapM_cons] at h
      obtain ⟨y, hy, h⟩ := bind_eq_ok.1 h
      obtain ⟨zs, hzs, -⟩ := bind_eq_ok.1 h
      exact ⟨⟨y, hy⟩, zs, hzs⟩
    · rintro ⟨⟨y, hy⟩, ys, hys⟩
      refine ⟨y :: ys, ?_⟩
      rw [List.mapM_cons]
      exact bind_eq_ok.2 ⟨y, hy, bind_eq_ok.2 ⟨ys, hys, rfl⟩⟩

namespace Notice

/-- The numbers that are read from a notice. -/
def numbers : Notice → List (List Char)
  | .expected _ line => [line]
  | .coupled _ line column _ other => [line, column, other]
  | .coupledLines _ line _ other => [line, other]
  | .uninitialised line column _ => [line, column]
  | .kinded _ line column message => if Report.isSuppressed message then [] else [line, column]
  | .unexpectedToken _ line column => [line, column]
  | .undefinedVariable _ line column => [line, column]
  | .typeMismatch _ _ line column => [line, column]
  | .placed _ message line column =>
    if Report.isSuppressed message then [] else line :: column.toList

/-- The line and the column that a notice makes a search start from. -/
def searched? : Notice → Option (List Char × List Char)
  | .typeMismatch _ _ line column => some (line, column)
  | _ => none

/-- All that the notice asks for can be computed. -/
structure Readable (lines : Report.SourceLines) (n : Notice) : Prop where
  short : ∀ digits ∈ n.numbers, digits.length ≤ ReportFault.digitLimit
  near : ∀ p ∈ n.searched?, Text.numberOf p.1 - 1 < lines.length →
    Text.numberOf p.2 - 1 < ReportFault.columnLimit

end Notice

namespace Report

open Text

variable {lines : SourceLines}

theorem place_bind_returns_iff {α : Type} {digits : List Char} {f : Nat → Except ReportFault α} :
    (∃ a, (place digits >>= f) = .ok a) ↔
      digits.length ≤ ReportFault.digitLimit ∧ ∃ a, f (numberOf digits - 1) = .ok a := by
  unfold place
  split
  next h => exact ⟨fun ⟨a, ha⟩ => ⟨h, a, ha⟩, fun ⟨_, a, ha⟩ => ⟨a, ha⟩⟩
  next h => exact ⟨fun ⟨_, ha⟩ => (nomatch ha), fun ha => absurd ha.1 h⟩

theorem mismatchEnd_returns_iff {line column : Nat} :
    (∃ stop, mismatchEnd lines line column = .ok stop) ↔
      (line < lines.length → column < ReportFault.columnLimit) := by
  unfold mismatchEnd
  split
  next h =>
    have hline : ¬ line < lines.length := fun hlt => by simp [hlt] at h
    exact ⟨fun _ hlt => absurd hlt hline, fun _ => ⟨_, rfl⟩⟩
  next text h =>
    have hline : line < lines.length := (List.getElem?_eq_some_iff.1 h).1
    split
    next hcolumn => exact ⟨fun _ _ => hcolumn, fun _ => ⟨_, rfl⟩⟩
    next hcolumn => exact ⟨nofun, fun h => absurd (h hline) hcolumn⟩

theorem returns_pure {α : Type} (a : α) : ∃ b, (pure a : Except ReportFault α) = .ok b :=
  ⟨a, rfl⟩

theorem mismatch_bind_returns_iff {α : Type} {line column : Nat} {f : Nat → α} :
    (∃ a, (mismatchEnd lines line column >>= fun stop => pure (f stop)) = .ok a) ↔
      (line < lines.length → column < ReportFault.columnLimit) := by
  rw [← mismatchEnd_returns_iff]
  constructor
  · rintro ⟨a, h⟩
    obtain ⟨stop, hstop, -⟩ := bind_eq_ok.1 h
    exact ⟨stop, hstop⟩
  · rintro ⟨stop, h⟩
    exact ⟨f stop, bind_eq_ok.2 ⟨stop, h, rfl⟩⟩

end Report

namespace Notice

open Text Report

theorem readable_iff {lines : SourceLines} {n : Notice} :
    n.Readable lines ↔ (∀ digits ∈ n.numbers, digits.length ≤ ReportFault.digitLimit) ∧
      ∀ p ∈ n.searched?, numberOf p.1 - 1 < lines.length →
        numberOf p.2 - 1 < ReportFault.columnLimit :=
  ⟨fun h => ⟨h.short, h.near⟩, fun h => ⟨h.1, h.2⟩⟩

instance (lines : SourceLines) : DecidablePred (Readable lines) :=
  fun _ => decidable_of_iff _ readable_iff.symm

theorem diagnostics_returns_iff {lines : SourceLines} {n : Notice} :
    (∃ ds, n.diagnostics lines = .ok ds) ↔ n.Readable lines := by
  rw [readable_iff]
  cases n with
  | kinded kind line column message =>
    by_cases hs : isSuppressed message = true
    · simp only [diagnostics, numbers, searched?, if_pos hs, returns_pure]
      simp
    · simp only [diagnostics, numbers, searched?, if_neg hs, place_bind_returns_iff, returns_pure]
      simp
  | placed level message line column =>
    by_cases hs : isSuppressed message = true
    · simp only [diagnostics, numbers, searched?, if_pos hs, returns_pure]
      simp
    · cases column <;>
        simp only [diagnostics, numbers, searched?, if_neg hs, place_bind_returns_iff, pure_bind,
          returns_pure] <;>
        simp
  | typeMismatch wanted got line column =>
    simp only [diagnostics, numbers, searched?, place_bind_returns_iff, mismatch_bind_returns_iff]
    simp [and_assoc]
  | _ =>
    simp only [diagnostics, numbers, searched?, place_bind_returns_iff, returns_pure]
    simp [and_comm]

end Notice

namespace Report

open Text

/-! ### Reports as a whole -/

/-- Every notice in the report can be read. -/
def Readable (output text : String) : Prop :=
  ∀ line ∈ newsLines output.toList, ∀ n, Notice.read? line = some n →
    n.Readable (splitOn '\n' text.toList)

instance (output text : String) : Decidable (Readable output text) :=
  inferInstanceAs (Decidable (∀ line ∈ newsLines output.toList, ∀ n ∈ Notice.read? line,
    n.Readable (splitOn '\n' text.toList)))

theorem understood_returns_iff {lines : SourceLines} {news : List (List Char)} :
    (∃ ds, understood lines news = .ok ds) ↔
      ∀ line ∈ news, ∀ n, Notice.read? line = some n → n.Readable lines := by
  have hmapM : (∃ ds, understood lines news = .ok ds) ↔
      ∃ dss, (news.filterMap Notice.read?).mapM (Notice.diagnostics lines) = .ok dss := by
    constructor
    · rintro ⟨ds, h⟩
      obtain ⟨dss, hdss, -⟩ := bind_eq_ok.1 h
      exact ⟨dss, hdss⟩
    · rintro ⟨dss, h⟩
      exact ⟨_, bind_eq_ok.2 ⟨dss, h, rfl⟩⟩
  rw [hmapM, mapM_returns_iff]
  simp only [Notice.diagnostics_returns_iff, List.mem_filterMap]
  constructor
  · intro h line hline n hn
    exact h n ⟨line, hline, hn⟩
  · rintro h n ⟨line, hline, hn⟩
    exact h line hline n hn

/-- A report is read iff all its notices are; one without any notice always is. -/
theorem parse_returns_iff {output text : String} :
    (∃ ds, parse output text = .ok ds) ↔ Readable output text := by
  unfold parse Readable
  dsimp only
  split
  next => exact understood_returns_iff
  next hnone =>
    have hvacuous : ∀ line ∈ newsLines output.toList, ∀ n, Notice.read? line = some n →
        n.Readable (splitOn '\n' text.toList) := by
      intro line hline n hn
      refine absurd (List.any_eq_true.2 ⟨line, hline, ?_⟩) hnone
      simp [hn]
    split <;> exact ⟨fun _ => hvacuous, fun _ => ⟨_, rfl⟩⟩

/-! ### Blank lines -/

theorem reportLines_cons {c : Char} {cs : List Char} (h : ¬ (c = '\r' ∧ cs.head? = some '\n')) :
    reportLines (c :: cs) =
      if isLineBreak c then [] :: reportLines cs else consFirst c (reportLines cs) := by
  rw [reportLines]
  rintro cs' rfl rfl
  exact h ⟨rfl, rfl⟩

theorem consFirst_concat (c : Char) {ls : List (List Char)} (hne : ls ≠ []) :
    consFirst c (ls ++ [[]]) = consFirst c ls ++ [[]] := by
  cases ls with
  | nil => exact absurd rfl hne
  | cons l ls => rfl

/-- A newline at the end starts no line, or an empty one. -/
theorem reportLines_concat_newline (cs : List Char) :
    reportLines (cs ++ ['\n']) = reportLines cs ∨
      reportLines (cs ++ ['\n']) = reportLines cs ++ [[]] := by
  fun_induction reportLines cs with
  | case1 => exact .inr rfl
  | case2 cs ih =>
    rcases ih with ih | ih
    · exact .inl (congrArg ([] :: ·) ih)
    · exact .inr (congrArg ([] :: ·) ih)
  | case3 c cs hpair hbreak ih =>
    by_cases hreturn : c = '\r' ∧ cs = []
    · obtain ⟨rfl, rfl⟩ := hreturn
      exact .inl rfl
    · have hcons : reportLines (c :: cs ++ ['\n']) = [] :: reportLines (cs ++ ['\n']) := by
        rw [List.cons_append, reportLines_cons, if_pos hbreak]
        rintro ⟨rfl, hhead⟩
        cases cs with
        | nil => exact hreturn ⟨rfl, rfl⟩
        | cons d cs => exact hpair cs rfl (by simpa using hhead)
      rcases ih with ih | ih
      · exact .inl (by rw [hcons, ih])
      · exact .inr (by rw [hcons, ih]; rfl)
  | case4 c cs hpair hbreak ih =>
    have hcons : reportLines (c :: cs ++ ['\n']) = consFirst c (reportLines (cs ++ ['\n'])) := by
      rw [List.cons_append, reportLines_cons, if_neg hbreak]
      rintro ⟨rfl, -⟩
      exact hbreak rfl
    rcases ih with ih | ih
    · exact .inl (by rw [hcons, ih])
    · by_cases hne : reportLines cs = []
      · -- The new line holds the character that stood alone before.
        exact .inl (by rw [hcons, ih, hne]; rfl)
      · exact .inr (by rw [hcons, ih, consFirst_concat c hne])

theorem newsLines_concat_newline (cs : List Char) : newsLines (cs ++ ['\n']) = newsLines cs := by
  rcases reportLines_concat_newline cs with h | h
  · rw [newsLines, h, newsLines]
  · rw [newsLines, h, newsLines, List.map_append, List.filter_append]
    exact List.append_nil _

theorem newsLines_newline (cs : List Char) : newsLines ('\n' :: cs) = newsLines cs := rfl

theorem parse_congr {output output' text : String}
    (h : newsLines output.toList = newsLines output'.toList) :
    parse output text = parse output' text := by
  unfold parse
  rw [h]

end Report

end BurnLens
