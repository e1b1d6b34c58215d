import BurnLens.Proofs.Report.Opening
import BurnLens.Proofs.Report.Silence

/-!
# Diagnostics of the compiler are well formed

The grammars find their columns in different ways: at a keyword, at the end of a trimmed line, in
the run around a column, in a span cut at the end of the line, where it may become negative, or
nowhere at all if the snapshot lacks the line. All of them leave the start alone, and `onLine` moves
the end behind it. Only a message with a level could be empty, and neither grammar of these reads an
empty one (`Notice.worded_of_read?`). With one case for each notice (`Notice.proper_diagnostics`),
everything in a report is `WellFormed`, and no line of it says more than two things
(`parse_wellFormed`).
-/

namespace BurnLens

namespace Report

open Text

/-- A compiler diagnostic that an editor can show: some columns of one line and a text. -/
structure WellFormed (d : Diagnostic) : Prop where
  line : 0 ≤ d.range.start.line
  sameLine : d.range.stop.line = d.range.start.line
  start : 0 ≤ d.range.start.character
  covers : d.range.start.character < d.range.stop.character
  severity : d.severity = .error ∨ d.severity = .warning
  source : ∃ kind, d.source = .compiler kind
  code : d.code = some Code.compilerError
  message : d.message ≠ ""

theorem WellFormed.not_critical {d : Diagnostic} (h : WellFormed d) : d.isCritical = false := by
  have hcode : (some Code.compilerError).any Code.critical.contains = false := by decide
  rw [Diagnostic.isCritical, h.code, hcode, Bool.and_false]

variable {lines : SourceLines}

/-! ### One diagnostic -/

theorem onLine_wellFormed {line : Nat} {start stop : Int} {message : List Char}
    {kind : Option ErrorKind} {severity : Severity} (hstart : 0 ≤ start) (hmessage : message ≠ [])
    (hseverity : severity = .error ∨ severity = .warning) :
    WellFormed (onLine line start stop message (.compiler kind) severity) where
  line := Int.natCast_nonneg line
  sameLine := rfl
  start := hstart
  covers := by
    show start < max stop (start + 1)
    omega
  severity := hseverity
  source := ⟨kind, rfl⟩
  code := rfl
  message := fun h => hmessage (String.ofList_injective h)

theorem wholeLine_wellFormed {line : Nat} {message : List Char} (h : message ≠ []) :
    WellFormed (wholeLine lines line message) :=
  onLine_wellFormed (Int.le_refl 0) h (.inl rfl)

theorem widened_wellFormed {line column : Nat} {message : List Char} {kind : Option ErrorKind}
    (h : message ≠ []) : WellFormed (widened lines line column message (.compiler kind)) := by
  unfold widened
  split
  · exact onLine_wellFormed (Int.natCast_nonneg column) h (.inl rfl)
  · exact onLine_wellFormed (Int.natCast_nonneg _) h (.inl rfl)

theorem kindText_ne_nil (kind : ErrorKind) (message : List Char) : kindText kind message ≠ [] := by
  cases kind <;> exact List.cons_ne_nil _ _

theorem referred_ne_nil (line : Nat) (message : List Char) : referred line message ≠ [] :=
  List.append_ne_nil_of_right_ne_nil _ (List.cons_ne_nil ')' [])

theorem expectedDiagnostic_wellFormed (name : Bool) (line : Nat) :
    WellFormed (expectedDiagnostic lines name line) := by
  unfold expectedDiagnostic
  dsimp only
  generalize hmessage : (if name then _ else _ : List Char) = message
  have hne : message ≠ [] := by
    rw [← hmessage]
    cases name <;> exact List.cons_ne_nil _ _
  split
  · exact onLine_wellFormed (Int.natCast_nonneg _) hne (.inl rfl)
  · split
    · exact onLine_wellFormed (Int.le_refl 0) hne (.inl rfl)
    · exact onLine_wellFormed (Int.natCast_nonneg _) hne (.inl rfl)

/-- The span may be negative, behind the end of the line. -/
theorem placedDiagnostic_wellFormed (level : Level) {message : List Char} (line column : Nat)
    (h : message ≠ []) : WellFormed (placedDiagnostic lines level message line column) := by
  refine onLine_wellFormed (Int.natCast_nonneg column) h ?_
  cases level
  · exact .inl rfl
  · exact .inr rfl

/-! ### What one line may say -/

/-- If anything is said, it is at most two things, and they are well formed. -/
def Proper (said : Except ReportFault (List Diagnostic)) : Prop :=
  ∀ ds, said = .ok ds → ds.length ≤ 2 ∧ ∀ d ∈ ds, WellFormed d

theorem Proper.bind {α : Type} {x : Except ReportFault α}
    {f : α → Except ReportFault (List Diagnostic)} (h : ∀ a, Proper (f a)) : Proper (x >>= f) := by
  intro ds hds
  obtain ⟨a, -, ha⟩ := bind_eq_ok.1 hds
  exact h a ds ha

theorem Proper.none : Proper (pure []) := by
  rintro ds ⟨⟩
  exact ⟨Nat.zero_le 2, List.forall_mem_nil _⟩

theorem Proper.unless {c : Prop} [Decidable c] {said : Except ReportFault (List Diagnostic)}
    (h : Proper said) : Proper (if c then pure [] else said) := by
  split
  · exact .none
  · exact h

theorem Proper.one {d : Diagnostic} (h : WellFormed d) : Proper (pure [d]) := by
  rintro ds ⟨⟩
  exact ⟨Nat.le_succ 1, List.forall_mem_singleton.2 h⟩

theorem Proper.two {d e : Diagnostic} (hd : WellFormed d) (he : WellFormed e) :
    Proper (pure [d, e]) := by
  rintro ds ⟨⟩
  exact ⟨Nat.le_refl 2, List.forall_mem_cons.2 ⟨hd, List.forall_mem_singleton.2 he⟩⟩

end Report

namespace Notice

open Text Report

/-- The notice has a text to show. All but one are put into words of their own. -/
def Worded : Notice → Prop
  | .placed _ message _ _ => message ≠ []
  | _ => True

theorem proper_diagnostics {n : Notice} (hn : n.Worded) (lines : SourceLines) :
    Proper (n.diagnostics lines) := by
  cases n with
  | expected name line => exact .bind fun line => .one (expectedDiagnostic_wellFormed name line)
  | coupled kind line column message other =>
    exact .bind fun _ => .bind fun _ => .bind fun _ =>
      .two (widened_wellFormed (kindText_ne_nil _ _)) (wholeLine_wellFormed (referred_ne_nil _ _))
  | coupledLines kind line message other =>
    exact .bind fun _ => .bind fun _ =>
      .two (wholeLine_wellFormed (kindText_ne_nil _ _)) (wholeLine_wellFormed (referred_ne_nil _ _))
  | uninitialised line column name =>
    exact .bind fun _ => .bind fun column => .one
      (onLine_wellFormed (Int.natCast_nonneg column) (List.cons_ne_nil _ _) (.inl rfl))
  | kinded kind line column message =>
    refine .unless ?_
    exact .bind fun _ => .bind fun _ => .one (widened_wellFormed (kindText_ne_nil _ _))
  | unexpectedToken token line column =>
    exact .bind fun column => .bind fun _ => .one
      (onLine_wellFormed (Int.natCast_nonneg column) (List.cons_ne_nil _ _) (.inl rfl))
  | undefinedVariable name line column =>
    exact .bind fun column => .bind fun _ => .one
      (onLine_wellFormed (Int.natCast_nonneg column) (List.cons_ne_nil _ _) (.inl rfl))
  | typeMismatch wanted got line column =>
    exact .bind fun _ => .bind fun column => .bind fun _ => .one
      (onLine_wellFormed (Int.natCast_nonneg column) (List.cons_ne_nil _ _) (.inl rfl))
  | placed level message line column =>
    refine .unless (.bind fun line => ?_)
    cases column with
    | none => exact .one (placedDiagnostic_wellFormed level line 0 hn)
    | some digits =>
      exact .bind fun column => .one (placedDiagnostic_wellFormed level line column hn)

/-! ### What is read is in words -/

section
variable {α : Type} {x : Option α} {f : α → Option (Notice × List Char)}

theorem worded_bind (h : ∀ a, ∀ p ∈ f a, p.1.Worded) : ∀ p ∈ x >>= f, p.1.Worded := by
  intro p hp
  obtain ⟨a, -, ha⟩ := Option.bind_eq_some_iff.1 hp
  exact h a p ha

theorem worded_unless {c : Prop} [Decidable c] {read : Option (Notice × List Char)}
    (h : ∀ p ∈ read, p.1.Worded) : ∀ p ∈ (if c then none else read), p.1.Worded := by
  split
  · exact nofun
  · exact h

theorem worded_pure {n : Notice} {r : List Char} (h : n.Worded) :
    ∀ p ∈ (pure (n, r) : Option (Notice × List Char)), p.1.Worded := by
  rintro p ⟨⟩
  exact h

end

/-- What the grammars in front read has no message with a level. -/
theorem worded_leading : ∀ g ∈ leading, ∀ cs, ∀ p ∈ g cs, p.1.Worded := by
  intro g hg cs
  simp only [leading, List.mem_cons, List.not_mem_nil, or_false] at hg
  rcases hg with rfl | rfl | rfl | rfl | rfl | rfl | rfl | rfl
  · exact worded_bind fun _ => worded_bind fun _ => worded_bind fun _ => worded_pure trivial
  · exact worded_bind fun _ => worded_bind fun _ => worded_unless (worded_pure trivial)
  · exact worded_bind fun _ => worded_bind fun _ => worded_bind fun _ => worded_pure trivial
  · exact worded_bind fun _ => worded_bind fun _ => worded_bind fun _ => worded_bind fun _ =>
      worded_pure trivial
  · exact worded_bind fun _ => worded_unless (worded_pure trivial)
  · exact worded_bind fun _ => worded_bind fun _ => worded_bind fun _ => worded_pure trivial
  · exact worded_bind fun _ => worded_bind fun _ => worded_unless (worded_bind fun _ =>
      worded_pure trivial)
  · exact worded_bind fun _ => worded_bind fun _ => worded_bind fun _ => worded_bind fun _ =>
      worded_bind fun _ => worded_pure trivial

theorem worded_behindFile (cs : List Char) : ∀ p ∈ behindFile cs, p.1.Worded := by
  refine worded_bind fun _ => worded_bind fun _ => worded_bind fun _ => worded_bind fun _ => ?_
  dsimp only
  split
  · exact nofun
  next h => exact worded_pure fun hnil => h (List.isEmpty_iff.2 hnil)

theorem worded_trailingPlace (cs : List Char) : ∀ p ∈ trailingPlace cs, p.1.Worded := by
  intro p hp
  obtain ⟨⟨level, r⟩, -, hp⟩ := Option.bind_eq_some_iff.1 hp
  obtain ⟨last, hlast, hp⟩ := Option.bind_eq_some_iff.1 hp
  have hmem : last ∈ hitsBehind (anywhere atLine) [] r := List.mem_of_getLast? hlast
  obtain ⟨piece, y, rest, hr, -, hstart⟩ := exists_of_mem_hitsBehind hmem
  have hle : last.start ≤ r.length := by
    rw [hstart, hr, List.nil_append, List.length_append]
    omega
  dsimp only at hp
  split at hp
  · cases hp
  next hskipped =>
    cases hp
    -- One character in front of the place is not skipped.
    show slice r _ _ ≠ []
    rw [← List.length_pos_iff, slice, List.length_take, List.length_drop]
    simp only [beq_iff_eq] at hskipped
    omega

theorem exists_of_find? {grammar : List Char → Option (Notice × List Char)} {line : List Char}
    {n : Notice} (h : find? grammar line = some n) : ∃ cs, ∃ p ∈ grammar cs, p.1 = n := by
  obtain ⟨hit, hfirst, rfl⟩ := Option.map_eq_some_iff.1 h
  have hmem : hit ∈ hitsBehind (anywhere grammar) [] line := List.mem_of_head? hfirst
  obtain ⟨piece, cs, rest, -, hread, -⟩ := exists_of_mem_hitsBehind hmem
  exact ⟨cs, (hit.value, rest), hread, rfl⟩

theorem worded_of_read? {l : List Char} {n : Notice} (h : Notice.read? l = some n) : n.Worded := by
  rw [Notice.read?, Option.or_eq_some_iff, Option.or_eq_some_iff] at h
  rcases h with (h | ⟨-, h⟩) | ⟨-, h⟩
  · obtain ⟨g, hg, h⟩ := List.exists_of_findSome?_eq_some h
    obtain ⟨cs, p, hp, rfl⟩ := exists_of_find? h
    exact worded_leading g hg cs p hp
  · obtain ⟨cs, p, hp, rfl⟩ := exists_of_find? h
    exact worded_behindFile cs p hp
  · obtain ⟨cs, p, hp, rfl⟩ := exists_of_find? h
    exact worded_trailingPlace cs p hp

end Notice

namespace Report

open Text

/-! ### What each line says -/

theorem unbroken_of_mem_reportLines {cs l : List Char} (hl : l ∈ reportLines cs) :
    ∀ c ∈ l, isLineBreak c = false := by
  have hempty : ∀ c ∈ ([] : List Char), isLineBreak c = false := nofun
  fun_induction reportLines cs generalizing l with
  | case1 => cases hl
  | case2 cs ih | case3 c cs _ _ ih =>
    rcases List.mem_cons.1 hl with rfl | hl
    · exact hempty
    · exact ih hl
  | case4 c cs _ hbreak ih =>
    rw [consFirst_eq] at hl
    rcases List.mem_cons.1 hl with rfl | hl
    · refine List.forall_mem_cons.2 ⟨by simpa using hbreak, ?_⟩
      cases hlines : reportLines cs with
      | nil => exact hempty
      | cons l ls =>
        rw [hlines] at ih
        exact ih List.mem_cons_self
    · exact ih (List.mem_of_mem_tail hl)

/-- Each line has its own news. -/
theorem newsLines_eq_flatMap (cs : List Char) :
    newsLines cs = (reportLines cs).flatMap newsLines := by
  have hlines : ∀ l ∈ reportLines cs, newsLines l = [trim l].filter isNews := fun l hl =>
    newsLines_of_unbroken (unbroken_of_mem_reportLines hl)
  rw [List.flatMap_congr hlines]
  show ((reportLines cs).map trim).filter isNews = _
  induction reportLines cs with
  | nil => rfl
  | cons l ls ih =>
    rw [List.map_cons, List.flatMap_cons, ← ih, ← List.filter_append]
    rfl

theorem understood_flatMap {lines : SourceLines} {α : Type} (news : α → List (List Char))
    (xs : List α) : understood lines (xs.flatMap news) = do
      return (← xs.mapM fun x => understood lines (news x)).flatten := by
  induction xs with
  | nil => rfl
  | cons x xs ih =>
    rw [List.flatMap_cons, understood_append, ih, List.mapM_cons]
    simp only [bind_assoc, pure_bind, List.flatten_cons]

theorem proper_line {l : List Char} (hl : ∀ c ∈ l, isLineBreak c = false) (lines : SourceLines) :
    Proper (understood lines (newsLines l)) := by
  rw [newsLines_of_unbroken hl, List.filter_cons]
  split
  · rw [understood, List.filter_nil, List.filterMap_cons]
    split
    · exact .none
    next n hn =>
      have hproper := Notice.proper_diagnostics (Notice.worded_of_read? hn) lines
      intro ds hds
      obtain ⟨dss, hdss, hds⟩ := bind_eq_ok.1 hds
      obtain ⟨es, hes, hdss⟩ := bind_eq_ok.1 hdss
      cases hdss
      cases hds
      simpa using hproper es hes
  · exact .none

theorem exists_of_mem_mapM {ε α β : Type} {f : α → Except ε β} {xs : List α} {ys : List β}
    (h : xs.mapM f = .ok ys) {y : β} (hy : y ∈ ys) : ∃ x ∈ xs, f x = .ok y := by
  induction xs generalizing ys with
  | nil =>
    cases h
    cases hy
  | cons x xs ih =>
    rw [List.mapM_cons] at h
    obtain ⟨z, hz, h⟩ := bind_eq_ok.1 h
    obtain ⟨zs, hzs, h⟩ := bind_eq_ok.1 h
    cases h
    rcases List.mem_cons.1 hy with rfl | hy
    · exact ⟨x, List.mem_cons_self, hz⟩
    · obtain ⟨x', hx', hread⟩ := ih hzs hy
      exact ⟨x', List.mem_cons_of_mem _ hx', hread⟩

theorem joinWith_newsLines_ne_nil {cs : List Char} (h : newsLines cs ≠ []) :
    joinWith '\n' (newsLines cs) ≠ [] := by
  obtain ⟨l, hl⟩ := List.exists_mem_of_ne_nil _ h
  intro hnil
  have hempty : l = [] := List.infix_nil.1 (hnil ▸ infix_joinWith '\n' hl)
  obtain ⟨-, hnews⟩ := List.mem_filter.1 hl
  rw [hempty] at hnews
  cases hnews

/-- Whenever a report can be read, its diagnostics are well formed. If something is understood, they
are what its lines say one by one, each of them two things at most. If nothing is, there is one at
most. -/
theorem parse_wellFormed {output text : String} {ds : List Diagnostic}
    (h : parse output text = .ok ds) :
    (∀ d ∈ ds, WellFormed d ∧ d.isCritical = false) ∧
    (Heard output → ∃ said, (reportLines output.toList).mapM (fun l =>
      understood (splitOn '\n' text.toList) (newsLines l)) = .ok said ∧
        said.flatten = ds ∧ ∀ es ∈ said, es.length ≤ 2) ∧
    (¬ Heard output → ds.length ≤ 1) := by
  by_cases hheard : Heard output
  · rw [parse_of_heard hheard, newsLines_eq_flatMap, understood_flatMap] at h
    obtain ⟨said, hsaid, hds⟩ := bind_eq_ok.1 h
    cases hds
    have hproper : ∀ es ∈ said, es.length ≤ 2 ∧ ∀ d ∈ es, WellFormed d := by
      intro es hes
      obtain ⟨l, hl, hes⟩ := exists_of_mem_mapM hsaid hes
      exact proper_line (unbroken_of_mem_reportLines hl) _ es hes
    refine ⟨?_, fun _ => ⟨said, hsaid, rfl, fun es hes => (hproper es hes).1⟩,
      fun hnot => absurd hheard hnot⟩
    intro d hd
    obtain ⟨es, hes, hd⟩ := List.mem_flatten.1 hd
    have hd := (hproper es hes).2 d hd
    exact ⟨hd, hd.not_critical⟩
  · rw [parse_of_not_heard hheard] at h
    refine ⟨?_, fun hyes => absurd hyes hheard, fun _ => ?_⟩ <;> split at h <;> cases h
    · exact List.forall_mem_nil _
    next hnews =>
      have hd : WellFormed (onLine 0 0 1 (joinWith '\n' (newsLines output.toList))) :=
        onLine_wellFormed (Int.le_refl 0) (joinWith_newsLines_ne_nil hnews) (.inl rfl)
      exact List.forall_mem_singleton.2 ⟨hd, hd.not_critical⟩
    · exact Nat.zero_le 1
    · exact Nat.le_refl 1

/-- A line that is not in the snapshot, and a span that is negative where it is cut. -/
theorem parse_wellFormed_outside :
    let output := "syntax error at line 1, column 9: m at line 3\nwarning: n at line 1, column 9"
    let ds := [onLine 0 2 3 "syntax error: m".toList,
      onLine 2 0 1 "syntax error: m (referenced from line 1)".toList,
      onLine 0 8 9 "n".toList (.compiler none) .warning]
    parse output "var" = .ok ds ∧ (∀ d ∈ ds, WellFormed d ∧ d.isCritical = false) ∧
      ∃ said, (reportLines output.toList).mapM (fun l =>
        understood (splitOn '\n' "var".toList) (newsLines l)) = .ok said ∧
          said.flatten = ds ∧ ∀ es ∈ said, es.length ≤ 2 := by
  intro output ds
  have hparse : parse output "var" = .ok ds := by decide +kernel
  have hheard : Heard output := by decide +kernel
  obtain ⟨hall, hsaid, -⟩ := parse_wellFormed hparse
  exact ⟨hparse, hall, hsaid hheard⟩

end Report

end BurnLens
