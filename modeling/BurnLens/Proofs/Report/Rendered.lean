import BurnLens.Proofs.Report.Message

/-!
# Which grammar reads a message

Each message is read by the grammar made for it, and of the grammars that are tried before that one
none reads anything: they open with other words, need ` at line ` twice, or do not find these words
at all (`read?_kinded`, `read?_unexpectedToken`, `read?_undefinedVariable`, `read?_typeMismatch`,
`read?_inFile`). A file name takes any text up to the first place behind it, which is why a place
that starts inside of it must be shown to end there too (`StartsPlace.cut`).
-/

namespace BurnLens.Report

open Text
open Notice (mark quote Opens find? leading expectedName coupledPlace coupledLine missingInitialiser
  kindMessage token undefinedName mismatch behindFile)

variable {line column : Numeral} {rest front back : List Char}

/-! ### Grammars read their own messages -/

theorem number_append (word : String) (hrest : ∀ c ∈ rest.head?, isDigit c = false) :
    Notice.number word (word.toList ++ (line.digits ++ rest)) = some (line.digits, rest) := by
  rw [Notice.number, literal_append]
  exact run1_exact line.ne_nil line.digit hrest

theorem atLine_placed : Notice.atLine (" at line ".toList ++ placed line column rest) =
    some (line.digits, ", column ".toList ++ (column.digits ++ rest)) := by
  rw [placed, List.append_assoc, List.append_assoc]
  exact number_append _ (by rintro c ⟨⟩; decide)

theorem atPlace_placed (hrest : ∀ c ∈ rest.head?, isDigit c = false) :
    Notice.atPlace (" at line ".toList ++ placed line column rest) =
      some ((line.digits, column.digits), rest) := by
  refine Option.bind_eq_some_iff.2 ⟨_, atLine_placed, ?_⟩
  exact Option.bind_eq_some_iff.2 ⟨_, number_append _ hrest, rfl⟩

theorem kindMessage_render (kind : ErrorKind) (text : Sentence) :
    kindMessage (kind.label.toList ++ " error".toList ++
      (" at line ".toList ++ placed line column (": ".toList ++ text.chars))) =
        some (.kinded kind line.digits column.digits text.chars, []) := by
  have hkind : ∀ cs, Notice.kindOf [.lexical, .syntactic, .typing, .runtime]
      (kind.label.toList ++ cs) = some (kind, cs) := by
    cases kind <;> intro cs <;> rfl
  have hline : Notice.kindAtLine [.lexical, .syntactic, .typing, .runtime]
      (kind.label.toList ++ " error".toList ++
        (" at line ".toList ++ placed line column (": ".toList ++ text.chars))) =
      some ((kind, line.digits), ", column ".toList ++ (column.digits ++ (": ".toList ++
        text.chars))) := by
    rw [List.append_assoc]
    refine Option.bind_eq_some_iff.2 ⟨_, hkind _, ?_⟩
    refine Option.bind_eq_some_iff.2 ⟨_, literal_append _ _, ?_⟩
    exact Option.bind_eq_some_iff.2 ⟨_, atLine_placed, rfl⟩
  have hplace : Notice.kindAtPlace [.lexical, .syntactic, .typing, .runtime]
      (kind.label.toList ++ " error".toList ++
        (" at line ".toList ++ placed line column (": ".toList ++ text.chars))) =
      some ((kind, line.digits, column.digits), text.chars) := by
    refine Option.bind_eq_some_iff.2 ⟨_, hline, ?_⟩
    refine Option.bind_eq_some_iff.2 ⟨_, number_append _ (by rintro c ⟨⟩; decide), ?_⟩
    exact Option.bind_eq_some_iff.2 ⟨_, literal_append _ _, rfl⟩
  refine Option.bind_eq_some_iff.2 ⟨_, hplace, ?_⟩
  exact if_neg (by simpa using text.ne_nil)

theorem inQuotes_quote {text : List Char} (htext : '\'' ∉ text) :
    Notice.inQuotes (quote text ++ rest) = some (text, rest) := by
  have hrun : run (· != '\'') (text ++ ['\''] ++ rest) = (text, '\'' :: rest) := by
    rw [List.append_assoc]
    exact run_until htext rest
  unfold Notice.inQuotes
  refine Option.bind_eq_some_iff.2 ⟨text ++ ['\''] ++ rest, literal_append ['\''] _, ?_⟩
  rw [hrun]
  exact Option.bind_eq_some_iff.2 ⟨rest, literal_append ['\''] rest, rfl⟩

theorem token_render (t : Quotable) :
    token ("unexpected token ".toList ++ quote t.chars ++
      (" at line ".toList ++ placed line column [])) =
        some (.unexpectedToken t.chars line.digits column.digits, []) := by
  rw [List.append_assoc]
  unfold token
  refine Option.bind_eq_some_iff.2 ⟨_, literal_append _ _, ?_⟩
  refine Option.bind_eq_some_iff.2 ⟨_, inQuotes_quote t.unquoted, ?_⟩
  exact Option.bind_eq_some_iff.2 ⟨_, atPlace_placed (by simp), rfl⟩

theorem undefinedName_render (name : Quotable) (hname : name.chars ≠ []) :
    undefinedName ("undefined variable ".toList ++ quote name.chars ++
      (" at line ".toList ++ placed line column [])) =
        some (.undefinedVariable name.chars line.digits column.digits, []) := by
  rw [List.append_assoc]
  unfold undefinedName
  refine Option.bind_eq_some_iff.2 ⟨_, literal_append _ _, ?_⟩
  refine Option.bind_eq_some_iff.2 ⟨_, inQuotes_quote name.unquoted, ?_⟩
  refine (if_neg (by simpa using hname)).trans ?_
  exact Option.bind_eq_some_iff.2 ⟨_, atPlace_placed (by simp), rfl⟩

theorem mismatch_render (wanted got : Quotable) :
    mismatch ("type mismatch: expected ".toList ++ quote wanted.chars ++ ", got ".toList ++
      quote got.chars ++ (" at line ".toList ++ placed line column [])) =
        some (.typeMismatch wanted.chars got.chars line.digits column.digits, []) := by
  rw [List.append_assoc, List.append_assoc, List.append_assoc]
  unfold mismatch
  refine Option.bind_eq_some_iff.2 ⟨_, literal_append _ _, ?_⟩
  refine Option.bind_eq_some_iff.2 ⟨_, inQuotes_quote wanted.unquoted, ?_⟩
  refine Option.bind_eq_some_iff.2 ⟨_, literal_append _ _, ?_⟩
  refine Option.bind_eq_some_iff.2 ⟨_, inQuotes_quote got.unquoted, ?_⟩
  exact Option.bind_eq_some_iff.2 ⟨_, atPlace_placed (by simp), rfl⟩

theorem levelMark_word (level : Level) (rest : List Char) :
    Notice.levelMark ((levelWord level).toList ++ ':' :: rest) = some (level, rest) := by
  cases level <;> rfl

theorem behindFile_inFilePlace {level : Level} (hrest : blanks rest ≠ []) :
    behindFile (inFilePlace line column level rest) =
      some (.placed level (blanks rest) line.digits (some column.digits), []) := by
  unfold behindFile
  refine Option.bind_eq_some_iff.2 ⟨_, number_append ":" (by rintro c ⟨⟩; decide), ?_⟩
  refine Option.bind_eq_some_iff.2 ⟨_, number_append ":" (by rintro c ⟨⟩; decide), ?_⟩
  refine Option.bind_eq_some_iff.2 ⟨_, literal_append [':'] _, ?_⟩
  have hlevel : blanks (' ' :: ((levelWord level).toList ++ ':' :: ' ' :: rest)) =
      (levelWord level).toList ++ ':' :: ' ' :: rest := by
    cases level <;> rfl
  rw [hlevel]
  refine Option.bind_eq_some_iff.2 ⟨_, levelMark_word level _, ?_⟩
  exact if_neg (by simpa [blanks_space] using hrest)

/-! ### Where a place behind a file name starts -/

theorem startsPlace_of_behindFile {cs r : List Char} {n : Notice}
    (h : behindFile cs = some (n, r)) : StartsPlace cs := by
  obtain ⟨⟨line, r₁⟩, hline, h⟩ := Option.bind_eq_some_iff.1 h
  obtain ⟨⟨column, r₂⟩, hcolumn, h⟩ := Option.bind_eq_some_iff.1 h
  obtain ⟨r₃, hcolon, h⟩ := Option.bind_eq_some_iff.1 h
  obtain ⟨⟨level, r₄⟩, hlevel, -⟩ := Option.bind_eq_some_iff.1 h
  obtain ⟨⟨word, r₅⟩, hword, hlevel⟩ := Option.bind_eq_some_iff.1 hlevel
  obtain ⟨r₆, hend, -⟩ := Option.bind_eq_some_iff.1 hlevel
  obtain ⟨hmem, hr₃⟩ := oneOf_eq_some hword
  obtain ⟨gap, hgap, hblanks⟩ := exists_blanks r₃
  refine ⟨line, column, gap, r₆, word, hmem, (Notice.digits_of_number hline).1,
    (Notice.digits_of_number hcolumn).1, (Notice.digits_of_number hline).2,
    (Notice.digits_of_number hcolumn).2, hgap, ?_⟩
  rw [Notice.number_eq_some hline, Notice.number_eq_some hcolumn, literal_eq_some_iff.1 hcolon,
    hblanks, hr₃, literal_eq_some_iff.1 hend, ← List.append_assoc gap]
  rfl

/-- A place that starts in front of a colon and numbers ends at the colon. -/
theorem StartsPlace.cut {y t : List Char} (hy : y ≠ [])
    (h : StartsPlace (y ++ ':' :: (line.digits ++ ':' :: (column.digits ++ ':' :: t)))) :
    StartsPlace (y ++ [':']) := by
  obtain ⟨l, c, gap, rest, level, hlevel, hl, hc, hldigit, hcdigit, hgap, heq⟩ := h
  have hdigits : ∀ {ds : List Char}, (∀ d ∈ ds, isDigit d = true) → ':' ∉ ds := by
    intro ds hds hmem
    exact absurd (hds ':' hmem) (by decide)
  have hword : ':' ∉ gap ++ level.toList := by
    have hlevels : ∀ w ∈ ["error", "warning"], ':' ∉ w.toList := by decide
    intro hmem
    rcases List.mem_append.1 hmem with hmem | hmem
    · exact absurd (hgap ':' hmem) (by decide)
    · exact hlevels level hlevel hmem
  -- The level has a letter, so it is not one of the numbers.
  have hletter : ∀ n : Numeral, gap ++ level.toList ≠ n.digits := by
    have hlevels : ∀ w ∈ ["error", "warning"], 'r' ∈ w.toList := by decide
    intro n heq
    refine n.notMem (c := 'r') (by decide) ?_
    rw [← heq]
    exact List.mem_append_right _ (hlevels level hlevel)
  cases y with
  | nil => exact absurd rfl hy
  | cons d y =>
    obtain ⟨rfl, hline⟩ := List.cons.inj heq
    have hstarts : ∀ rest', y ++ [':'] = l ++ ':' :: (c ++ ':' :: (gap ++ level.toList ++
        ':' :: rest')) → StartsPlace (':' :: y ++ [':']) := by
      intro rest' hy
      exact ⟨l, c, gap, rest', level, hlevel, hl, hc, hldigit, hcdigit, hgap, congrArg _ hy⟩
    rcases split_of_append_cons_eq (hdigits hldigit) hline with ⟨-, heq⟩ | ⟨y₁, rfl, hcolumn⟩
    · obtain ⟨-, heq⟩ := eq_of_append_cons_eq (hdigits line.digit) (hdigits hcdigit) heq
      obtain ⟨heq, -⟩ := eq_of_append_cons_eq (hdigits column.digit) hword heq
      exact absurd heq.symm (hletter column)
    · rcases split_of_append_cons_eq (hdigits hcdigit) hcolumn with ⟨-, heq⟩ | ⟨y₂, rfl, hend⟩
      · obtain ⟨heq, -⟩ := eq_of_append_cons_eq (hdigits line.digit) hword heq
        exact absurd heq.symm (hletter line)
      · rcases split_of_append_cons_eq hword hend with ⟨rfl, -⟩ | ⟨y₃, rfl, -⟩
        · exact hstarts [] (by simp)
        · exact hstarts (y₃ ++ [':']) (by simp)

/-! ### Which grammar reads a message -/

/-- The notice that a message is read as. -/
def Message.notice : Message → Notice
  | .kinded kind line column text => .kinded kind line.digits column.digits text.chars
  | .unexpectedToken token line column => .unexpectedToken token.chars line.digits column.digits
  | .undefinedVariable name _ line column =>
    .undefinedVariable name.chars line.digits column.digits
  | .typeMismatch wanted got line column =>
    .typeMismatch wanted.chars got.chars line.digits column.digits
  | .inFile _ line column level text =>
    .placed level (trim text.chars) line.digits (some column.digits)

theorem read?_of_leading {line : List Char} {n : Notice}
    (before : List (List Char → Option (Notice × List Char)))
    (grammar : List Char → Option (Notice × List Char))
    {after : List (List Char → Option (Notice × List Char))}
    (hleading : leading = before ++ grammar :: after)
    (hbefore : ∀ g ∈ before, find? g line = none) (h : find? grammar line = some n) :
    Notice.read? line = some n := by
  have hfirst : (leading.findSome? fun g => find? g line) = some n := by
    rw [hleading, List.findSome?_append, List.findSome?_eq_none_iff.2 hbefore,
      List.findSome?_cons, h]
    rfl
  rw [Notice.read?, hfirst]
  rfl

theorem find?_line {grammar : List Char → Option (Notice × List Char)} {n : Notice}
    {r : List Char} (h : grammar (front ++ (" at line ".toList ++ back)) = some (n, r)) :
    find? grammar (front ++ (" at line ".toList ++ back)) = some n := by
  have hne : front ++ (" at line ".toList ++ back) ≠ [] :=
    List.append_ne_nil_of_right_ne_nil _ (List.cons_ne_nil ' ' _)
  refine Notice.find?_append (x := []) ?_ hne h
  intro a b hab hb
  exact absurd (List.append_eq_nil_iff.1 hab.symm).2 hb

/-- The grammars that need a name, an expression, a second line or a missing initialiser. -/
def special : List (List Char → Option (Notice × List Char)) :=
  [expectedName, coupledPlace, coupledLine, missingInitialiser]

theorem find?_eq_none_of_front (hfront : ¬ mark <:+: front) (hback : ¬ mark <:+: back)
    (hmissing : ¬ "must have a type or initializer".toList <:+: back)
    (hname : ¬ "expected variable name".toList <:+ front)
    (hexpression : ¬ "expected expression".toList <:+ front) :
    ∀ g ∈ special, find? g (front ++ (" at line ".toList ++ back)) = none := by
  intro g hg
  simp only [special, List.mem_cons, List.not_mem_nil, or_false] at hg
  rcases hg with rfl | rfl | rfl | rfl
  · refine Notice.find?_eq_none_of_opens Notice.expectedName_opens hfront hback ?_
    rintro x u rfl (rfl | rfl)
    · exact hname (List.suffix_append x _)
    · exact hexpression (List.suffix_append x _)
  · exact Notice.find?_eq_none_of_opens Notice.coupledPlace_opens hfront hback
      fun _ _ _ => hback
  · exact Notice.find?_eq_none_of_opens Notice.coupledLine_opens hfront hback
      fun _ _ _ => hback
  · exact Notice.find?_eq_none_of_opens Notice.missingInitialiser_opens hfront hback
      fun _ _ _ => hmissing

theorem unmarked_placed {rest : List Char} (hrest : Follows mark rest) :
    ¬ mark <:+: placed line column rest :=
  not_infix_placed (c := 't') (by decide) (by decide) (by decide) (by decide) hrest

theorem notMissing_placed {rest : List Char}
    (hrest : Follows "must have a type or initializer".toList rest) :
    ¬ "must have a type or initializer".toList <:+: placed line column rest :=
  not_infix_placed (c := 'h') (by decide) (by decide) (by decide) (by decide) hrest

theorem read?_kinded (kind : ErrorKind) (text : Sentence) :
    Notice.read? (Message.kinded kind line column text).render =
      some (Message.kinded kind line column text).notice := by
  refine read?_of_leading special kindMessage rfl ?_ (find?_line (kindMessage_render kind text))
  refine find?_eq_none_of_front ?_ (unmarked_placed (.inr ⟨_, rfl, text.unmarked⟩))
    (notMissing_placed (.inr ⟨_, rfl, text.notMissing⟩)) ?_ ?_
  · cases kind <;> exact not_infix_of_occursIn (by decide)
  · cases kind <;> decide
  · cases kind <;> decide

/-- A front that ends in quotes is no name, no expression and no kind of error. -/
theorem find?_eq_none_of_quote {a t : List Char} (hfront : ¬ mark <:+: a ++ quote t) :
    ∀ g ∈ special ++ [kindMessage],
      find? g (a ++ quote t ++ (" at line ".toList ++ placed line column [])) = none := by
  have hlast : ∀ {u x : List Char} {c : Char}, u.getLast? = some c → a ++ quote t = x ++ u →
      c = '\'' := by
    intro u x c hc hu
    have hquote : (a ++ quote t).getLast? = some '\'' := by
      rw [quote, ← List.cons_append, ← List.append_assoc, List.getLast?_concat]
    rw [hu, List.getLast?_append, hc] at hquote
    exact Option.some.inj hquote
  have hback : ¬ mark <:+: placed line column [] := unmarked_placed (.inl rfl)
  have hword : ∀ {u : List Char} {c : Char}, u.getLast? = some c → c ≠ '\'' →
      ¬ u <:+ a ++ quote t := by
    intro u c hc hne hu
    obtain ⟨x, hx⟩ := hu
    exact hne (hlast hc hx.symm)
  have hnone := find?_eq_none_of_front hfront hback (notMissing_placed (.inl rfl))
    (hword rfl (by decide)) (hword rfl (by decide))
  have hkind : find? kindMessage
      (a ++ quote t ++ (" at line ".toList ++ placed line column [])) = none := by
    refine Notice.find?_eq_none_of_opens Notice.kindMessage_opens hfront hback ?_
    rintro x u hu ⟨⟨kind, rfl⟩, -⟩
    have hr : (kind.label.toList ++ " error".toList).getLast? = some 'r' := by
      cases kind <;> rfl
    exact absurd (hlast hr hu) (by decide)
  intro g hg
  rcases List.mem_append.1 hg with hg | hg
  · exact hnone g hg
  · rw [List.mem_singleton.1 hg]
    exact hkind

/-- What is quoted last behind other words is not read as if it stood behind the word. -/
theorem find?_eq_none_of_word {grammar : List Char → Option (Notice × List Char)}
    {word a t : List Char}
    (hopens : Opens grammar fun u _ => ∃ text, '\'' ∉ text ∧ u = word ++ quote text)
    (hfront : ¬ mark <:+: a ++ quote t) (ht : '\'' ∉ t) (ha : ¬ word <:+ a) :
    find? grammar (a ++ quote t ++ (" at line ".toList ++ placed line column [])) = none := by
  refine Notice.find?_eq_none_of_opens hopens hfront (unmarked_placed (.inl rfl)) ?_
  rintro x u hu ⟨text, htext, rfl⟩
  rw [← List.append_assoc] at hu
  exact ha ⟨x, (Notice.append_quote_inj ht htext hu).1.symm⟩

theorem read?_unexpectedToken (t : Quotable) :
    Notice.read? (Message.unexpectedToken t line column).render =
      some (Message.unexpectedToken t line column).notice := by
  refine read?_of_leading (special ++ [kindMessage]) token rfl ?_
    (find?_line (token_render t))
  refine find?_eq_none_of_quote (not_infix_append_quote (by decide) (by decide) ?_ t.unmarked)
  exact not_infix_of_occursIn (by decide)

theorem read?_undefinedVariable (name : Quotable) (hname : name.chars ≠ []) :
    Notice.read? (Message.undefinedVariable name hname line column).render =
      some (Message.undefinedVariable name hname line column).notice := by
  have hfront : ¬ mark <:+: "undefined variable ".toList ++ quote name.chars :=
    not_infix_append_quote (by decide) (by decide) (not_infix_of_occursIn (by decide)) name.unmarked
  refine read?_of_leading (special ++ [kindMessage] ++ [token]) undefinedName rfl ?_
    (find?_line (undefinedName_render name hname))
  intro g hg
  rcases List.mem_append.1 hg with hg | hg
  · exact find?_eq_none_of_quote hfront g hg
  · rw [List.mem_singleton.1 hg]
    exact find?_eq_none_of_word Notice.token_opens hfront name.unquoted (by decide)

theorem read?_typeMismatch (wanted got : Quotable) :
    Notice.read? (Message.typeMismatch wanted got line column).render =
      some (Message.typeMismatch wanted got line column).notice := by
  have hfront : ¬ mark <:+: "type mismatch: expected ".toList ++ quote wanted.chars ++
      ", got ".toList ++ quote got.chars := by
    refine not_infix_append_quote (by decide) (by decide) ?_ got.unmarked
    exact not_infix_quote (by decide) (not_infix_of_occursIn (by decide)) wanted.unmarked
      (not_infix_of_occursIn (by decide))
  refine read?_of_leading (special ++ [kindMessage] ++ [token, undefinedName]) mismatch rfl ?_
    (find?_line (mismatch_render wanted got))
  have hends : ∀ {w : List Char}, ", got ".toList.length ≤ w.length → ¬ ", got ".toList <:+ w →
      ¬ w <:+ "type mismatch: expected ".toList ++ quote wanted.chars ++ ", got ".toList := by
    intro w hlength hnot hw
    exact hnot (List.suffix_of_suffix_length_le (List.suffix_append _ _) hw hlength)
  intro g hg
  rcases List.mem_append.1 hg with hg | hg
  · exact find?_eq_none_of_quote hfront g hg
  · rcases List.mem_pair.1 hg with rfl | rfl
    · exact find?_eq_none_of_word Notice.token_opens hfront got.unquoted
        (hends (by decide) (by decide))
    · exact find?_eq_none_of_word Notice.undefinedName_opens hfront got.unquoted
        (hends (by decide) (by decide))

theorem leading_passes {line : List Char} (hline : ¬ mark <:+: line) :
    ∀ g ∈ leading, find? g line = none := by
  have hopens : ∀ g ∈ leading, ∃ shape, Opens g shape := by
    simp only [leading, List.forall_mem_cons]
    exact ⟨⟨_, Notice.expectedName_opens⟩, ⟨_, Notice.coupledPlace_opens⟩,
      ⟨_, Notice.coupledLine_opens⟩, ⟨_, Notice.missingInitialiser_opens⟩,
      ⟨_, Notice.kindMessage_opens⟩, ⟨_, Notice.token_opens⟩, ⟨_, Notice.undefinedName_opens⟩,
      ⟨_, Notice.mismatch_opens⟩, nofun⟩
  intro g hg
  obtain ⟨shape, hshape⟩ := hopens g hg
  exact Notice.find?_eq_none_of_unmarked hshape hline

theorem trimRight_inFilePlace {level : Level} {text : List Char}
    (htext : ∃ c ∈ text, isBlank c = false) :
    trimRight (inFilePlace line column level text) =
      inFilePlace line column level (trimRight text) := by
  have hsplit : ∀ t, inFilePlace line column level t = (':' :: (line.digits ++ ':' ::
      (column.digits ++ ':' :: ' ' :: ((levelWord level).toList ++ [':', ' '])))) ++ t := by
    intro t
    simp only [inFilePlace, List.cons_append, List.append_assoc, List.nil_append]
  calc trimRight (inFilePlace line column level text)
      = trimRight (_ ++ text) := congrArg trimRight (hsplit text)
    _ = _ ++ trimRight text := trimRight_append htext _
    _ = inFilePlace line column level (trimRight text) := (hsplit _).symm

theorem trim_inFile (file : FileName) (level : Level) (text : Remark) :
    trim (Message.inFile file line column level text).render =
      trimLeft file.chars ++ inFilePlace line column level (trimRight text.chars) := by
  have hplace : ∃ c ∈ inFilePlace line column level text.chars, isBlank c = false :=
    ⟨':', List.mem_cons_self, by decide⟩
  show trimRight (trimLeft (file.chars ++ inFilePlace line column level text.chars)) = _
  rw [trimLeft_append file.spoken, trimRight_append hplace, trimRight_inFilePlace text.spoken]

/-- The first character of a file name belongs to it whatever it is. No place starts behind it. -/
theorem behindFile_passes (file : FileName) {c : Char} {name a b t : List Char}
    (hname : trimLeft file.chars = c :: name) (hab : name = a ++ b) (hb : b ≠ []) {level : Level} :
    behindFile (b ++ inFilePlace line column level t) = none := by
  refine Option.eq_none_iff_forall_not_mem.2 fun m hm => ?_
  have hstarts : StartsPlace (b ++ inFilePlace line column level t) := startsPlace_of_behindFile hm
  have hfile : file.chars = (file.chars.takeWhile isBlank ++ c :: a) ++ b := by
    rw [List.append_assoc, List.cons_append, ← hab, ← hname]
    exact List.takeWhile_append_dropWhile.symm
  have hhead := head?_trimLeft file.chars
  rw [hname] at hhead
  exact file.first _ b hfile ⟨c, by simp, by simpa using hhead⟩ (hstarts.cut hb)

theorem read?_inFile (file : FileName) (level : Level) (text : Remark) :
    Notice.read? (trim (Message.inFile file line column level text).render) =
      some (Message.inFile file line column level text).notice := by
  have hunmarked : ¬ mark <:+: trim (Message.inFile file line column level text).render := by
    rw [infix_trim_iff (w := mark) (by decide) (by decide) (by decide)]
    refine not_infix_inFilePlace (c := 't') (by decide) (by decide) (by decide) (by decide) ?_
      file.unmarked text.unmarked
    cases level <;> decide
  have hleading := List.findSome?_eq_none_iff.2 (leading_passes hunmarked)
  have htext : blanks (trimRight text.chars) = trim text.chars := trimLeft_trimRight text.spoken
  have hspoken : blanks (trimRight text.chars) ≠ [] := by
    obtain ⟨c, hc, hblank⟩ := text.spoken
    intro hnil
    have hall := isEmpty_trim.1 (List.isEmpty_iff.2 (htext.symm.trans hnil))
    simp [hall c hc] at hblank
  have hfile : find? behindFile
      ((trim (Message.inFile file line column level text).render).drop 1) =
      some (Message.inFile file line column level text).notice := by
    rw [trim_inFile]
    cases hname : trimLeft file.chars with
    | nil =>
      obtain ⟨c, hc, hblank⟩ := file.spoken
      simp [List.dropWhile_eq_nil_iff.1 hname c hc] at hblank
    | cons c name =>
      rw [List.cons_append, List.drop_succ_cons, List.drop_zero, Message.notice, ← htext]
      exact Notice.find?_append (fun a b hab hb => behindFile_passes file hname hab hb)
        (List.cons_ne_nil _ _) (behindFile_inFilePlace hspoken)
  rw [Notice.read?, hleading, hfile]
  rfl

end BurnLens.Report
