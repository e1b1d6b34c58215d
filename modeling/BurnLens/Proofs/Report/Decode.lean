import BurnLens.Proofs.Report.Lines
import BurnLens.Proofs.Report.Rendered
import BurnLens.Proofs.Report.Token

/-!
# Messages are decoded as they are meant

A report of one line that is a message of the compiler has the one diagnostic that the message
stands for (`parse_render`): its grammar reads it, the numbers in it are within all limits, its text
is not taken for the end of the input, and the line is neither blank nor broken.
-/

namespace BurnLens.Report

open Text
open Notice (quote)

variable {line column : Numeral} {rest front back : List Char}

/-! ### What the notice says -/

theorem onLine_eq_shown {line start stop' : Nat} {stop : Int} {message : List Char}
    {kind : Option ErrorKind} {severity : Severity} (h : max stop (start + 1) = stop') :
    onLine line start stop message (.compiler kind) severity =
      shown line start stop' message kind severity := by
  rw [onLine, shown, h]

theorem Payload.not_suppressed (p : Payload) : isSuppressed p.chars = false := by
  rw [isSuppressed, Bool.or_eq_false_iff, ← Bool.not_eq_true, ← Bool.not_eq_true, occursIn_iff,
    occursIn_iff]
  exact ⟨p.notReading, p.notEnd⟩

theorem Payload.not_suppressed_trim (p : Payload) : isSuppressed (trim p.chars) = false := by
  rw [isSuppressed, Bool.or_eq_false_iff, ← Bool.not_eq_true, ← Bool.not_eq_true, occursIn_iff,
    occursIn_iff, infix_trim_iff (by decide) (by decide) (by decide),
    infix_trim_iff (by decide) (by decide) (by decide)]
  exact ⟨p.notReading, p.notEnd⟩

theorem mismatch_message (wanted got : List Char) :
    "Type mismatch: expected '".toList ++ wanted ++ "', got '".toList ++ got ++ ['\''] =
      "Type mismatch: expected ".toList ++ quote wanted ++ ", got ".toList ++ quote got := by
  have hexpected : "Type mismatch: expected '".toList =
      "Type mismatch: expected ".toList ++ ['\''] := by decide
  have hgot : "', got '".toList = '\'' :: (", got ".toList ++ ['\'']) := by decide
  rw [hexpected, hgot]
  simp only [quote, List.append_assoc, List.cons_append, List.nil_append]

theorem Message.diagnostics_notice (m : Message) (lines : SourceLines) :
    m.notice.diagnostics lines = .ok [m.diagnostic lines] := by
  cases m with
  | kinded kind line column text =>
    refine (if_neg (by simp [text.not_suppressed])).trans ?_
    refine bind_eq_ok.2 ⟨_, line.place_digits, bind_eq_ok.2 ⟨_, column.place_digits, ?_⟩⟩
    refine congrArg (fun d => Except.ok [d]) ?_
    dsimp only [Message.diagnostic, widened]
    cases lines[line.index]? with
    | none => exact onLine_eq_shown (by dsimp only [Option.map_none, Option.getD_none]; omega)
    | some source =>
      have hlt := widen_lt source column.index
      refine onLine_eq_shown ?_
      dsimp only [Option.map_some, Option.getD_some]
      omega
  | unexpectedToken token line column =>
    refine bind_eq_ok.2 ⟨_, column.place_digits, bind_eq_ok.2 ⟨_, line.place_digits, ?_⟩⟩
    exact congrArg (fun d => Except.ok [d]) (onLine_eq_shown (by omega))
  | undefinedVariable name hname line column =>
    refine bind_eq_ok.2 ⟨_, column.place_digits, bind_eq_ok.2 ⟨_, line.place_digits, ?_⟩⟩
    exact congrArg (fun d => Except.ok [d]) (onLine_eq_shown (by omega))
  | typeMismatch wanted got line column =>
    have hstop : mismatchEnd lines line.index column.index = .ok (column.index +
        max 1 ((lines[line.index]?.map fun source =>
          runFrom isExpressionChar source column.index).getD 0)) := by
      unfold mismatchEnd
      cases lines[line.index]? with
      | none => rfl
      | some source =>
        refine (if_pos column.index_lt).trans (congrArg Except.ok ?_)
        dsimp only [Option.map_some, Option.getD_some]
        omega
    refine bind_eq_ok.2 ⟨_, line.place_digits, bind_eq_ok.2 ⟨_, column.place_digits, ?_⟩⟩
    refine bind_eq_ok.2 ⟨_, hstop, ?_⟩
    refine congrArg (fun d => Except.ok [d]) ?_
    rw [mismatch_message]
    refine onLine_eq_shown ?_
    push_cast
    omega
  | inFile file line column level text =>
    refine (if_neg (by simp [text.not_suppressed_trim])).trans ?_
    refine bind_eq_ok.2 ⟨_, line.place_digits, bind_eq_ok.2 ⟨_, column.place_digits, ?_⟩⟩
    refine congrArg (fun d => Except.ok [d]) ?_
    dsimp only [Message.diagnostic, placedDiagnostic, maxSpan]
    cases lines[line.index]? with
    | none => exact onLine_eq_shown (by dsimp only [Option.map_none, Option.getD_none]; omega)
    | some source =>
      refine onLine_eq_shown ?_
      dsimp only [Option.map_some, Option.getD_some]
      push_cast
      omega

/-! ### Reports of one message -/

theorem Numeral.unbroken (n : Numeral) : ∀ c ∈ n.digits, isLineBreak c = false := by
  intro c hc
  rw [← Bool.not_eq_true]
  intro hbreak
  have hblank := isBlank_of_isLineBreak hbreak
  rw [n.notBlank c hc] at hblank
  cases hblank

theorem placed_unbroken (hrest : ∀ c ∈ rest, isLineBreak c = false) :
    ∀ c ∈ " at line ".toList ++ placed line column rest, isLineBreak c = false := by
  simp only [placed, List.forall_mem_append]
  exact ⟨unbroken_of_any (by decide),
    ⟨⟨line.unbroken, unbroken_of_any (by decide)⟩, column.unbroken⟩, hrest⟩

theorem quote_unbroken (p : Payload) : ∀ c ∈ quote p.chars, isLineBreak c = false := by
  have hclosed : ∀ c ∈ p.chars ++ ['\''], isLineBreak c = false :=
    List.forall_mem_append.2 ⟨p.unbroken, unbroken_of_any (by decide)⟩
  exact List.forall_mem_cons.2 ⟨by decide, hclosed⟩

theorem Message.unbroken (m : Message) : ∀ c ∈ m.render, isLineBreak c = false := by
  cases m with
  | kinded kind line column text =>
    refine List.forall_mem_append.2 ⟨unbroken_of_any (by cases kind <;> decide), ?_⟩
    exact placed_unbroken (List.forall_mem_append.2 ⟨unbroken_of_any (by decide), text.unbroken⟩)
  | unexpectedToken token line column =>
    exact List.forall_mem_append.2 ⟨List.forall_mem_append.2
      ⟨unbroken_of_any (by decide), quote_unbroken token.toPayload⟩, placed_unbroken nofun⟩
  | undefinedVariable name hname line column =>
    exact List.forall_mem_append.2 ⟨List.forall_mem_append.2
      ⟨unbroken_of_any (by decide), quote_unbroken name.toPayload⟩, placed_unbroken nofun⟩
  | typeMismatch wanted got line column =>
    have hfront : ∀ c ∈ "type mismatch: expected ".toList ++ quote wanted.chars ++
        ", got ".toList ++ quote got.chars, isLineBreak c = false := by
      simp only [List.forall_mem_append]
      exact ⟨⟨⟨unbroken_of_any (by decide), quote_unbroken wanted.toPayload⟩,
        unbroken_of_any (by decide)⟩, quote_unbroken got.toPayload⟩
    exact List.forall_mem_append.2 ⟨hfront, placed_unbroken nofun⟩
  | inFile file line column level text =>
    have hlevel : ∀ c ∈ (levelWord level).toList, isLineBreak c = false :=
      unbroken_of_any (by cases level <;> decide)
    have hplace : ∀ c ∈ inFilePlace line column level text.chars, isLineBreak c = false := by
      simp only [inFilePlace, List.forall_mem_append, List.forall_mem_cons]
      exact ⟨by decide, line.unbroken, by decide, column.unbroken, by decide, by decide, hlevel,
        by decide, by decide, text.unbroken⟩
    exact List.forall_mem_append.2 ⟨file.unbroken, hplace⟩

theorem notEnd_line {rest : List Char} (hfront : ¬ "EOF".toList <:+: front)
    (hrest : Follows "EOF".toList rest) :
    ¬ "EOF".toList <:+: front ++ (" at line ".toList ++ placed line column rest) := by
  refine not_infix_line (by decide) (not_infix_of_occursIn (by decide)) hfront ?_
  exact not_infix_placed (c := 'E') (by decide) (by decide) (by decide) (by decide) hrest

theorem Message.notEnd (m : Message) : ¬ "EOF".toList <:+: m.render := by
  cases m with
  | kinded kind line column text =>
    refine notEnd_line ?_ (.inr ⟨_, rfl, text.notEnd⟩)
    cases kind <;> exact not_infix_of_occursIn (by decide)
  | unexpectedToken token line column =>
    refine notEnd_line (not_infix_append_quote (by decide) (by decide) ?_ token.notEnd) (.inl rfl)
    exact not_infix_of_occursIn (by decide)
  | undefinedVariable name hname line column =>
    refine notEnd_line (not_infix_append_quote (by decide) (by decide) ?_ name.notEnd) (.inl rfl)
    exact not_infix_of_occursIn (by decide)
  | typeMismatch wanted got line column =>
    have hfront : ¬ "EOF".toList <:+: "type mismatch: expected ".toList ++ quote wanted.chars ++
        ", got ".toList :=
      not_infix_quote (by decide) (not_infix_of_occursIn (by decide)) wanted.notEnd
        (not_infix_of_occursIn (by decide))
    exact notEnd_line (not_infix_append_quote (by decide) (by decide) hfront got.notEnd) (.inl rfl)
  | inFile file line column level text =>
    refine not_infix_inFilePlace (c := 'E') (by decide) (by decide) (by decide) (by decide) ?_
      file.notEnd text.notEnd
    cases level <;> decide

theorem ended_append (a : List Char) {b : List Char} (hne : b ≠ [])
    (hb : b.getLast?.any isBlank = false) : (a ++ b).getLast?.any isBlank = false := by
  rwa [List.getLast?_append_of_ne_nil a hne]

theorem Numeral.ended (n : Numeral) : n.digits.getLast?.any isBlank = false := by
  rw [Option.any_eq_false]
  intro c hc
  simp [n.notBlank c (List.mem_of_getLast? hc)]

theorem ended_placed :
    (" at line ".toList ++ placed line column []).getLast?.any isBlank = false := by
  rw [placed, List.append_nil, ← List.append_assoc]
  exact ended_append _ column.ne_nil column.ended

theorem trim_line {c : Char} (hhead : front.head? = some c) (hc : isBlank c = false)
    (hlast : (" at line ".toList ++ back).getLast?.any isBlank = false) :
    trim (front ++ (" at line ".toList ++ back)) = front ++ (" at line ".toList ++ back) := by
  have hne : " at line ".toList ++ back ≠ [] := List.cons_ne_nil ' ' _
  have hline : (front ++ (" at line ".toList ++ back)).getLast?.any isBlank = false :=
    ended_append front hne hlast
  have hfirst : (front ++ (" at line ".toList ++ back)).head?.any isBlank = false := by
    rw [List.head?_append, hhead]
    simpa using hc
  exact trim_of_ends hfirst hline

/-- Only a message about a file is trimmed. -/
theorem Message.read? (m : Message) : Notice.read? (trim m.render) = some m.notice := by
  cases m with
  | kinded kind line column text =>
    have hlast : (" at line ".toList ++ placed line column (": ".toList ++ text.chars)).getLast?.any
        isBlank = false := by
      rw [placed, ← List.append_assoc, ← List.append_assoc]
      exact ended_append _ text.ne_nil text.ended
    have htrim : trim (Message.kinded kind line column text).render =
        (Message.kinded kind line column text).render := by
      cases kind <;> exact trim_line rfl (by decide) hlast
    rw [htrim, read?_kinded]
  | unexpectedToken token line column =>
    have htrim : trim (Message.unexpectedToken token line column).render =
        (Message.unexpectedToken token line column).render :=
      trim_line (c := 'u') rfl (by decide) ended_placed
    rw [htrim]
    exact read?_unexpectedToken token
  | undefinedVariable name hname line column =>
    have htrim : trim (Message.undefinedVariable name hname line column).render =
        (Message.undefinedVariable name hname line column).render :=
      trim_line (c := 'u') rfl (by decide) ended_placed
    rw [htrim]
    exact read?_undefinedVariable name hname
  | typeMismatch wanted got line column =>
    have htrim : trim (Message.typeMismatch wanted got line column).render =
        (Message.typeMismatch wanted got line column).render :=
      trim_line (c := 't') rfl (by decide) ended_placed
    rw [htrim]
    exact read?_typeMismatch wanted got
  | inFile file line column level text => exact read?_inFile file level text

/-- A message that the compiler writes on a line of its own comes back as the one diagnostic that it
stands for. -/
theorem parse_render (m : Message) (text : String) :
    parse (String.ofList m.render) text = .ok [m.diagnostic (splitOn '\n' text.toList)] := by
  have hend : ¬ endOfInput <:+: m.render := fun h => m.notEnd
    (List.IsInfix.trans ⟨"error reading input: ".toList, [], by decide⟩ h)
  have hspoken : ¬ ∀ c ∈ m.render, isBlank c = true := by
    intro h
    have hnil := List.isEmpty_iff.1 (isEmpty_trim.2 h)
    have hread := m.read?
    rw [hnil] at hread
    exact Option.some_ne_none _ (hread.symm.trans rfl)
  have hnews : newsLines (String.ofList m.render).toList = [trim m.render] := by
    rw [String.toList_ofList, newsLines_of_unbroken m.unbroken]
    exact List.filter_cons_of_pos (isNews_trim.2 ⟨hspoken, hend⟩)
  have hheard : Heard (String.ofList m.render) :=
    ⟨trim m.render, hnews ▸ List.mem_singleton.2 rfl, by rw [m.read?]; rfl⟩
  rw [parse_of_heard hheard, hnews, understood, List.filterMap_cons, m.read?]
  refine bind_eq_ok.2 ⟨[[m.diagnostic (splitOn '\n' text.toList)]], ?_, rfl⟩
  exact bind_eq_ok.2 ⟨_, m.diagnostics_notice _, rfl⟩

theorem parse_render_inFile : parse "main.bn:2:5: warning: unused" "var x\nvar name = 1" =
    .ok [shown 1 4 12 "unused".toList none .warning] := by
  have hm : ∃ c ∈ "main.bn".toList, isBlank c = false := ⟨'m', by decide, by decide⟩
  have hcolon : ':' ∉ "main.bn".toList := by decide
  have hu : ∃ c ∈ "unused".toList, isBlank c = false := ⟨'u', by decide, by decide⟩
  exact parse_render (.inFile
    (Remark.fileName ⟨.ofText "main.bn" (by decide) (by decide), hm⟩ hcolon)
    (.ofNat 2 (by decide) (by decide)) (.ofNat 5 (by decide) (by decide)) .warning
    ⟨.ofText "unused" (by decide) (by decide), hu⟩) "var x\nvar name = 1"

end BurnLens.Report
