import BurnLens.Proofs.Compiler.Validate
import BurnLens.Proofs.Text.Occurs

/-!
# Reports line by line

No line of a report has a say in what the others mean. Cut at any character that ends a line, a
report says what its two parts say, one after the other (`newsLines_append_break`): a cut between a
carriage return and the newline behind it leaves an empty line more, and those are no news. Only a
report in which nothing is understood is an error as a whole, so the diagnostics of two reports
follow each other once something is understood in both (`parse_line_by_line`).
-/

namespace BurnLens

namespace Report

open Text

/-! ### The news of a text in two parts -/

/-- The pieces between the characters that end lines. A carriage return and the newline behind it
are two of them, with nothing between. -/
def pieces (cs : List Char) : List (List Char) :=
  cs.splitOnP isLineBreak

theorem pieces_cons_break {c : Char} (hc : isLineBreak c = true) (cs : List Char) :
    pieces (c :: cs) = [] :: pieces cs := by
  simp [pieces, List.splitOnP_cons_eq_if_modifyHead, hc]

theorem pieces_cons_other {c : Char} (hc : isLineBreak c = false) (cs : List Char) :
    pieces (c :: cs) = (c :: (pieces cs).headD []) :: (pieces cs).tail := by
  rw [pieces, List.splitOnP_cons_eq_if_modifyHead, hc, pieces]
  cases h : cs.splitOnP isLineBreak with
  | nil => exact absurd h (List.splitOnP_ne_nil _ _)
  | cons p ps => rfl

theorem consFirst_eq (c : Char) (ls : List (List Char)) :
    consFirst c ls = (c :: ls.headD []) :: ls.tail := by
  cases ls <;> rfl

theorem filter_headD_tail {q : List Char → Bool} (hq : q [] = false) (ls : List (List Char)) :
    (ls.headD [] :: ls.tail).filter q = ls.filter q := by
  cases ls with
  | nil => simp [hq]
  | cons l ls => rfl

/-- Lines and pieces start alike, and they differ in empty ones only. -/
theorem reportLines_pieces {q : List Char → Bool} (hq : q [] = false) (cs : List Char) :
    (reportLines cs).headD [] = (pieces cs).headD [] ∧
      (reportLines cs).tail.filter q = (pieces cs).tail.filter q := by
  have hwhole : ∀ {ls ps : List (List Char)}, ls.headD [] = ps.headD [] →
      ls.tail.filter q = ps.tail.filter q → ls.filter q = ps.filter q := by
    intro ls ps hhead htail
    rw [← filter_headD_tail hq, ← filter_headD_tail hq ps, List.filter_cons, List.filter_cons,
      hhead, htail]
  fun_induction reportLines cs with
  | case1 => exact ⟨rfl, rfl⟩
  | case2 cs ih =>
    -- The pair ends one line and two pieces, the second of them empty.
    rw [pieces_cons_break rfl, pieces_cons_break rfl]
    refine ⟨rfl, ?_⟩
    rw [List.tail_cons, List.tail_cons, List.filter_cons_of_neg (by simp [hq])]
    exact hwhole ih.1 ih.2
  | case3 c cs _ hbreak ih =>
    rw [pieces_cons_break hbreak]
    exact ⟨rfl, hwhole ih.1 ih.2⟩
  | case4 c cs _ hbreak ih =>
    rw [consFirst_eq, pieces_cons_other (by simpa using hbreak)]
    exact ⟨congrArg (c :: ·) ih.1, ih.2⟩

/-- Whether a trimmed line carries news. -/
def isNews (l : List Char) : Bool :=
  !l.isEmpty && !occursIn endOfInput l

theorem newsLines_eq (cs : List Char) : newsLines cs = ((pieces cs).map trim).filter isNews := by
  have hblank : (isNews ∘ trim) [] = false := rfl
  obtain ⟨hhead, htail⟩ := reportLines_pieces hblank cs
  show ((reportLines cs).map trim).filter isNews = _
  rw [List.filter_map, List.filter_map, ← filter_headD_tail hblank,
    ← filter_headD_tail hblank (pieces cs), List.filter_cons, List.filter_cons, hhead, htail]

theorem newsLines_append_break {c : Char} (hc : isLineBreak c = true) (a b : List Char) :
    newsLines (a ++ c :: b) = newsLines a ++ newsLines b := by
  rw [newsLines_eq, newsLines_eq, newsLines_eq, pieces, List.splitOnP_append_cons a b hc,
    List.map_append, List.filter_append]
  rfl

/-- A text without line ends has itself for news, or none. -/
theorem newsLines_of_unbroken {l : List Char} (hl : ∀ c ∈ l, isLineBreak c = false) :
    newsLines l = [trim l].filter isNews := by
  have hpieces : pieces l = [l] := List.splitOnP_eq_singleton hl
  rw [newsLines_eq, hpieces]
  rfl

/-! ### Lines put in -/

/-- What ends a line. -/
inductive LineEnd : List Char → Prop where
  | one {c : Char} (hc : isLineBreak c = true) : LineEnd [c]
  | pair : LineEnd ['\r', '\n']

theorem newsLines_append_end {e : List Char} (he : LineEnd e) (a b : List Char) :
    newsLines (a ++ e ++ b) = newsLines a ++ newsLines b := by
  rw [List.append_assoc]
  cases he with
  | one hc => exact newsLines_append_break hc a b
  | pair => exact newsLines_append_break (c := '\r') rfl a ('\n' :: b)

theorem newsLines_concat_end {e : List Char} (he : LineEnd e) (a : List Char) :
    newsLines (a ++ e) = newsLines a := by
  have hnil := newsLines_append_end he a []
  rw [List.append_nil] at hnil
  exact hnil.trans (List.append_nil _)

/-- A text with one line more: in front of it, behind one of its line ends, or at its end. An empty
text may be the line alone. -/
inductive Inserted (line : List Char) : List Char → List Char → Prop where
  | alone : Inserted line [] line
  | first {e : List Char} (he : LineEnd e) (b : List Char) : Inserted line b (line ++ e ++ b)
  | between {e e' : List Char} (he : LineEnd e) (he' : LineEnd e') (a b : List Char) :
    Inserted line (a ++ e ++ b) (a ++ e ++ line ++ e' ++ b)
  | behind {e : List Char} (he : LineEnd e) (a : List Char) :
    Inserted line (a ++ e) (a ++ e ++ line)
  | last {e : List Char} (he : LineEnd e) (a : List Char) : Inserted line a (a ++ e ++ line)
  | ended {e e' : List Char} (he : LineEnd e) (he' : LineEnd e') (a : List Char) :
    Inserted line a (a ++ e ++ line ++ e')

/-- A line that is blank or tells that the input has ended. -/
structure Idle (line : List Char) : Prop where
  unbroken : ∀ c ∈ line, isLineBreak c = false
  silent : (∀ c ∈ line, isBlank c = true) ∨ endOfInput <:+: line

theorem isNews_trim {l : List Char} :
    isNews (trim l) = true ↔ ¬ (∀ c ∈ l, isBlank c = true) ∧ ¬ endOfInput <:+: l := by
  have hend : endOfInput <:+: trim l ↔ endOfInput <:+: l :=
    infix_trim_iff (List.cons_ne_nil _ _) rfl rfl
  rw [← hend, ← occursIn_iff, ← isEmpty_trim]
  simp [isNews]

theorem Idle.newsLines_eq {line : List Char} (h : Idle line) : newsLines line = [] := by
  rw [newsLines_of_unbroken h.unbroken, List.filter_eq_nil_iff]
  intro l hl hnews
  rw [List.mem_singleton.1 hl, isNews_trim] at hnews
  exact h.silent.elim hnews.1 hnews.2

theorem Inserted.newsLines_eq {line a b : List Char} (h : Inserted line a b) (hidle : Idle line) :
    newsLines b = newsLines a := by
  cases h with
  | alone => exact hidle.newsLines_eq
  | first he b => rw [newsLines_append_end he, hidle.newsLines_eq, List.nil_append]
  | between he he' a b =>
    rw [newsLines_append_end he', newsLines_append_end he, hidle.newsLines_eq, List.append_nil,
      newsLines_append_end he]
  | behind he a =>
    rw [newsLines_append_end he, hidle.newsLines_eq, List.append_nil, newsLines_concat_end he]
  | last he => rw [newsLines_append_end he, hidle.newsLines_eq, List.append_nil]
  | ended he he' =>
    rw [newsLines_concat_end he', newsLines_append_end he, hidle.newsLines_eq, List.append_nil]

/-! ### What is understood -/

/-- Some grammar reads a line of the report. -/
def Heard (output : String) : Prop :=
  ∃ l ∈ newsLines output.toList, (Notice.read? l).isSome = true

instance : DecidablePred Heard :=
  fun output => inferInstanceAs (Decidable (∃ l ∈ newsLines output.toList, _))

theorem parse_of_heard {output : String} (h : Heard output) (text : String) :
    parse output text = understood (splitOn '\n' text.toList) (newsLines output.toList) :=
  if_pos (List.any_eq_true.2 h)

theorem understood_append (lines : SourceLines) (a b : List (List Char)) :
    understood lines (a ++ b) = do
      return (← understood lines a) ++ (← understood lines b) := by
  simp only [understood, List.filterMap_append, List.mapM_append, bind_assoc, pure_bind,
    List.flatten_append]

theorem newsLines_append_newline (a b : String) :
    newsLines (a ++ "\n" ++ b).toList = newsLines a.toList ++ newsLines b.toList := by
  rw [String.toList_append, String.toList_append]
  exact newsLines_append_end (.one rfl) a.toList b.toList

theorem parse_append {a b : String} (ha : Heard a) (hb : Heard b) (text : String) :
    parse (a ++ "\n" ++ b) text = do return (← parse a text) ++ (← parse b text) := by
  have hnews := newsLines_append_newline a b
  have hboth : Heard (a ++ "\n" ++ b) := by
    obtain ⟨l, hl, hread⟩ := ha
    exact ⟨l, hnews ▸ List.mem_append_left _ hl, hread⟩
  rw [parse_of_heard hboth, parse_of_heard ha, parse_of_heard hb, hnews, understood_append]

/-- Two reports in which something is understood are read one after the other, and so are the two
outputs of a run, the errors first. A blank line or a notice of the end of the input changes
nothing, wherever it is put in. -/
theorem parse_line_by_line (text : String) :
    (∀ a b : String, Heard a → Heard b →
      parse (a ++ "\n" ++ b) text = do return (← parse a text) ++ (← parse b text)) ∧
    (∀ r : RunResult, Heard r.stderr → Heard r.stdout →
      parse r.output text = do return (← parse r.stderr text) ++ (← parse r.stdout text)) ∧
    ∀ line output output' : String, Idle line.toList →
      Inserted line.toList output.toList output'.toList →
      parse output' text = parse output text := by
  refine ⟨?_, ?_, ?_⟩
  · intro a b ha hb
    exact parse_append ha hb text
  · intro r herr hout
    rw [parse_congr r.newsLines_output, parse_append herr hout]
  · intro line output output' hidle hinserted
    exact parse_congr (hinserted.newsLines_eq hidle)

/-- The first report ends with a carriage return, which the newline between makes half of a line
end. The notice is put in between two line ends. -/
theorem parse_line_by_line_seam :
    let a := "syntax error at line 1, column 1: m\r"
    let b := "warning: n at line 1"
    let notice := "run: error reading input: EOF"
    Heard a ∧ Heard b ∧ Idle notice.toList ∧
      parse (a ++ "\n" ++ b) "var" = (do return (← parse a "var") ++ (← parse b "var")) ∧
      parse (⟨1, b, a⟩ : RunResult).output "var" =
        (do return (← parse a "var") ++ (← parse b "var")) ∧
      parse (a ++ "\n" ++ notice ++ "\r\n" ++ b) "var" = parse (a ++ "\n" ++ b) "var" := by
  intro a b notice
  obtain ⟨happend, houtputs, hinserted⟩ := parse_line_by_line "var"
  have ha : Heard a := by decide +kernel
  have hb : Heard b := by decide +kernel
  have hidle : Idle notice.toList :=
    ⟨unbroken_of_any (by decide), .inr (occursIn_iff.1 (by decide))⟩
  refine ⟨ha, hb, hidle, happend a b ha hb, houtputs ⟨1, b, a⟩ ha hb, ?_⟩
  refine hinserted notice _ _ hidle ?_
  rw [String.toList_append, String.toList_append, String.toList_append, String.toList_append,
    String.toList_append, String.toList_append]
  exact .between (.one rfl) .pair a.toList b.toList

end Report

end BurnLens
