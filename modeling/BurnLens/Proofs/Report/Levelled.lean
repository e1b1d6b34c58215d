import BurnLens.Proofs.Report.Decode

/-!
# Messages with a level and a place

The last grammar reads `level: message at line N`, with or without a column. It is reached only if
none of the others reads something inside of the message. Without quotes, further colons and a
second ` at line ` there is one that can: `expected expression at line ` is looked for by its
letters, so `unexpected expression` is reported as an expression that is missing, the opposite of
what it says (`parse_levelled_opposite`). `parse_levelled_iff` tells exactly when the message that
is reported is the one that was written.
-/

namespace BurnLens.Report

open Text
open Notice (mark find? leading expectedName kindMessage token undefinedName mismatch behindFile
  trailingPlace atLine)

/-! ### What is written -/

/-- A trimmed text in one line without single quotes, colons and the words by which lines are
told. -/
structure Phrase where
  chars : List Char
  ne_nil : chars ≠ []
  started : chars.head?.any isBlank = false
  ended : chars.getLast?.any isBlank = false
  unbroken : ∀ c ∈ chars, isLineBreak c = false
  unquoted : '\'' ∉ chars
  plain : ':' ∉ chars
  unmarked : ¬ mark <:+: chars
  notEnd : ¬ "EOF".toList <:+: chars
  notReading : ¬ "error reading input".toList <:+: chars

/-- Whether a text may stand between a level and a place can be computed. -/
def Phrase.ofText (text : String)
    (hblank : text.toList.head?.any isBlank = false ∧ text.toList.getLast?.any isBlank = false ∧
      text.toList.any isLineBreak = false)
    (hchars : text.toList ≠ [] ∧ '\'' ∉ text.toList ∧ ':' ∉ text.toList)
    (hwords : ∀ w ∈ ["at line", "EOF", "error reading input"],
      occursIn w.toList text.toList = false) : Phrase where
  chars := text.toList
  ne_nil := hchars.1
  started := hblank.1
  ended := hblank.2.1
  unbroken := unbroken_of_any hblank.2.2
  unquoted := hchars.2.1
  plain := hchars.2.2
  unmarked := not_infix_of_occursIn (hwords "at line" List.mem_cons_self)
  notEnd := not_infix_of_occursIn (hwords "EOF" (List.mem_cons_of_mem _ List.mem_cons_self))
  notReading := not_infix_of_occursIn (hwords "error reading input"
    (List.mem_cons_of_mem _ (List.mem_cons_of_mem _ List.mem_cons_self)))

def columnText (column : Option Numeral) : List Char :=
  (column.map fun n => ", column ".toList ++ n.digits).getD []

/-- `N` or `N, column N` -/
def placeText (line : Numeral) (column : Option Numeral) : List Char :=
  line.digits ++ columnText column

def levelFront (level : Level) (m : Phrase) : List Char :=
  (levelWord level).toList ++ ':' :: ' ' :: m.chars

/-- `level: message at line N`, with an optional column. -/
def levelled (level : Level) (m : Phrase) (line : Numeral) (column : Option Numeral) : List Char :=
  levelFront level m ++ (" at line ".toList ++ placeText line column)

/-- The diagnostic that such a line stands for. -/
def levelledDiagnostic (lines : SourceLines) (level : Level) (m : Phrase) (line : Numeral)
    (column : Option Numeral) : Diagnostic :=
  let start := (column.map Numeral.index).getD 0
  let length := (lines[line.index]?.map fun source => min 10 (source.length - start)).getD 0
  shown line.index start (start + max 1 length) m.chars none
    (match level with | .error => .error | .warning => .warning)

/-- Behind these words the place is read as that of something missing. -/
def missingWords : List String := ["expected variable name", "expected expression"]

section
variable {level : Level} {m : Phrase} {line : Numeral} {column : Option Numeral} {w : List Char}
  {c : Char}

/-! ### What the line holds -/

theorem not_infix_levelFront (hcolon : ':' ∉ w) (hhead : w.head? = some c) (hc : c ≠ ' ')
    (hlevel : ¬ w <:+: (levelWord level).toList) (hm : ¬ w <:+: m.chars) :
    ¬ w <:+: levelFront level m := by
  rw [levelFront, infix_append_cons_iff hcolon]
  rintro (h | h)
  · exact hlevel h
  · rcases List.infix_cons_iff.1 h with h | h
    · have hne : w ≠ [] := by
        rintro rfl
        cases hhead
      rw [head?_of_prefix_cons hne h] at hhead
      exact hc (Option.some.inj hhead).symm
    · exact hm h

theorem placeText_some (line column : Numeral) :
    placeText line (some column) = placed line column [] := by
  rw [placed, List.append_nil, List.append_assoc]
  rfl

theorem not_infix_placeText (hmarks : ',' ∉ w ∧ ':' ∉ w ∧ w.head? ≠ some ' ') (hc : c ∈ w)
    (hdigit : isDigit c = false) (hcolumn : c ∉ " column ".toList) :
    ¬ w <:+: placeText line column := by
  cases column with
  | none =>
    show ¬ w <:+: line.digits ++ []
    rw [List.append_nil]
    exact not_infix_of_mem hc (line.notMem hdigit)
  | some column =>
    rw [placeText_some]
    exact not_infix_placed hmarks hc hdigit hcolumn (.inl rfl)

theorem unmarked_levelFront : ¬ mark <:+: levelFront level m :=
  not_infix_levelFront (c := 'a') (by decide) rfl (by decide) (by cases level <;> decide) m.unmarked

theorem unmarked_placeText : ¬ mark <:+: placeText line column :=
  not_infix_placeText (c := 't') (by decide) (by decide) (by decide) (by decide)

theorem notMissing_placeText :
    ¬ "must have a type or initializer".toList <:+: placeText line column :=
  not_infix_placeText (c := 'h') (by decide) (by decide) (by decide) (by decide)

theorem notMem_columnText (hdigit : isDigit c = false) (hcolumn : c ∉ ", column ".toList) :
    c ∉ columnText column := by
  cases column with
  | none => exact List.not_mem_nil
  | some column =>
    intro h
    rcases List.mem_append.1 h with h | h
    · exact hcolumn h
    · exact column.notMem hdigit h

theorem columnText_head : ∀ d ∈ (columnText column).head?, isDigit d = false := by
  cases column with
  | none => exact nofun
  | some column =>
    rintro d ⟨⟩
    decide

theorem notEnd_levelled : ¬ "EOF".toList <:+: levelled level m line column := by
  refine not_infix_line (by decide) (by decide) ?_ ?_
  · exact not_infix_levelFront (c := 'E') (by decide) rfl (by decide) (by cases level <;> decide)
      m.notEnd
  · exact not_infix_placeText (c := 'E') (by decide) (by decide) (by decide) (by decide)

/-- The line ends as the message does in front of the place. -/
theorem suffix_levelFront_iff (hcolon : ':' ∉ w) (hhead : w.head? = some c) (hc : c ≠ ' ') :
    w <:+ levelFront level m ↔ w <:+ m.chars := by
  constructor
  · intro h
    have hreverse : w.reverse <+: (' ' :: m.chars).reverse := by
      have hline := List.reverse_prefix.2 h
      rw [levelFront, List.reverse_append, List.reverse_cons, List.append_assoc,
        List.singleton_append] at hline
      exact prefix_of_prefix_append_cons (by simpa using hcolon) hline
    rcases List.suffix_cons_iff.1 (List.reverse_prefix.1 hreverse) with rfl | h
    · exact absurd (Option.some.inj hhead).symm hc
    · exact h
  · intro h
    refine h.trans ?_
    exact ((List.suffix_cons ' ' m.chars).trans (List.suffix_cons ':' _)).trans
      (List.suffix_append _ _)

theorem suffix_missing_iff {word : String} (h : word ∈ missingWords) :
    word.toList <:+ levelFront level m ↔ word.toList <:+ m.chars := by
  rcases List.mem_pair.1 h with rfl | rfl <;>
    exact suffix_levelFront_iff (c := 'e') (by decide) rfl (by decide)

/-! ### The last grammar reads it -/

theorem atLine_placeText : atLine (" at line ".toList ++ placeText line column) =
    some (line.digits, columnText column) :=
  number_append _ columnText_head

theorem atLine_eq_none {cs : List Char} (h : ¬ mark <:+: cs) : atLine cs = none := by
  refine Option.eq_none_iff_forall_not_mem.2 fun p hp => h ?_
  rw [Notice.number_eq_some hp]
  exact Notice.mark_occurs [] _

/-- The place is found once, behind the front. -/
theorem hits_atLine {front : List Char} (hfront : ¬ mark <:+: front) :
    hits (anywhere atLine) (front ++ (" at line ".toList ++ placeText line column)) =
      [⟨front.length, front.length + (" at line ".toList ++ line.digits).length, line.digits⟩] := by
  have hnone : ∀ x y, front = x ++ y → y ≠ [] →
      atLine (y ++ (" at line ".toList ++ placeText line column)) = none := by
    intro x y hxy hy
    refine Option.eq_none_iff_forall_not_mem.2 fun p hp => hy ?_
    have hmark : ¬ mark <:+: y := fun h => hfront (hxy ▸ h.trans (List.suffix_append x y).isInfix)
    exact (Notice.mark_once hmark unmarked_placeText (x := []) (Notice.number_eq_some hp)).1.symm
  have hsplit : " at line ".toList ++ placeText line column =
      (" at line ".toList ++ line.digits) ++ columnText column := by
    rw [placeText, List.append_assoc]
  have hread : atLine (" at line ".toList ++ placeText line column) =
      some (line.digits, columnText column) := atLine_placeText
  have hrest : ∀ pos, search atLine pos (columnText column) = [] := by
    intro pos
    have hcolumn : ¬ mark <:+: columnText column := fun h =>
      unmarked_placeText (h.trans (List.suffix_append line.digits _).isInfix)
    have hnowhere : ∀ x y, columnText column = x ++ y → y ≠ [] → atLine (y ++ []) = none := by
      intro x y hxy _
      refine atLine_eq_none fun h => hcolumn ?_
      rw [List.append_nil] at h
      rw [hxy]
      exact h.trans (List.suffix_append x y).isInfix
    have hsearch : search atLine pos (columnText column ++ []) =
        search atLine (pos + (columnText column).length) [] := search_append_none hnowhere pos
    rwa [List.append_nil] at hsearch
  rw [hsplit] at hread
  rw [hits_anywhere, search_append_none hnone, hsplit, search_append_some (by simp) hread, hrest,
    Nat.zero_add]

theorem number_columnText : (Notice.number ", column " (columnText column)).map (·.1) =
    column.map (·.digits) := by
  cases column with
  | none => rfl
  | some column =>
    have hread : Notice.number ", column " (", column ".toList ++ (column.digits ++ [])) =
        some (column.digits, []) := number_append ", column " nofun
    rw [List.append_nil] at hread
    exact congrArg (Option.map (·.1)) hread

/-- The blank behind the colon is skipped, and no more. -/
theorem takeWhile_blank_phrase (m : Phrase) (back : List Char) :
    (' ' :: m.chars ++ back).takeWhile isBlank = [' '] := by
  cases hm : m.chars with
  | nil => exact absurd hm m.ne_nil
  | cons c cs =>
    have hc := m.started
    rw [hm] at hc
    have hc : isBlank c = false := by simpa using hc
    rw [List.cons_append, List.takeWhile_cons_of_pos (by decide), List.cons_append,
      List.takeWhile_cons_of_neg (by simp [hc])]

theorem trailingPlace_levelled : trailingPlace (levelled level m line column) =
    some (.placed level m.chars line.digits (column.map (·.digits)), columnText column) := by
  have hline : levelled level m line column = (levelWord level).toList ++
      ':' :: ((' ' :: m.chars) ++ (" at line ".toList ++ placeText line column)) := by
    simp only [levelled, levelFront, List.append_assoc, List.cons_append]
  have hfront : ¬ mark <:+: levelFront level m := unmarked_levelFront
  have hmark : ¬ mark <:+: ' ' :: m.chars := fun h => hfront
    (h.trans ((List.suffix_cons ':' _).trans (List.suffix_append _ _)).isInfix)
  have hlast : (hits (anywhere atLine)
      ((' ' :: m.chars) ++ (" at line ".toList ++ placeText line column))).getLast? =
        some ⟨(' ' :: m.chars).length,
          (' ' :: m.chars).length + (" at line ".toList ++ line.digits).length, line.digits⟩ :=
    congrArg List.getLast? (hits_atLine hmark)
  have hdrop : ((' ' :: m.chars) ++ (" at line ".toList ++ placeText line column)).drop
      ((' ' :: m.chars).length + (" at line ".toList ++ line.digits).length) =
        columnText column := by
    rw [placeText, ← List.append_assoc " at line ".toList, ← List.append_assoc,
      ← List.length_append, List.drop_left]
  have hslice : slice ((' ' :: m.chars) ++ (" at line ".toList ++ placeText line column)) 1
      (' ' :: m.chars).length = m.chars := by
    rw [slice, List.cons_append, List.drop_succ_cons, List.drop_zero, List.length_cons,
      Nat.add_sub_cancel, List.take_left]
  have hlength := List.length_pos_iff.2 m.ne_nil
  have hmin : min 1 ((' ' :: m.chars).length - 1) = 1 := by
    rw [List.length_cons, Nat.add_sub_cancel]
    omega
  rw [hline]
  unfold trailingPlace
  refine Option.bind_eq_some_iff.2 ⟨_, levelMark_word level _, ?_⟩
  refine Option.bind_eq_some_iff.2 ⟨_, hlast, ?_⟩
  dsimp only
  rw [takeWhile_blank_phrase, List.length_singleton, hmin, hdrop, hslice, number_columnText]
  rfl

/-! ### Who reads it -/

/-- One colon is not enough for the place behind a file name. -/
theorem behindFile_passes_levelled :
    find? behindFile ((levelled level m line column).drop 1) = none := by
  have hword : ':' ∉ (levelWord level).toList := by
    cases level <;> decide
  have htail : ':' ∉ ' ' :: m.chars ++ (" at line ".toList ++ placeText line column) := by
    have hplace : ':' ∉ placeText line column := fun h =>
      (List.mem_append.1 h).elim (line.notMem (by decide))
        (notMem_columnText (by decide) (by decide))
    simp only [List.mem_append, List.mem_cons, not_or]
    exact ⟨⟨by decide, m.plain⟩, by decide, hplace⟩
  refine Notice.find?_eq_none fun x y hxy => Option.eq_none_iff_forall_not_mem.2 fun p hp => ?_
  obtain ⟨ds, es, gap, rest, word, -, -, -, -, -, -, hy⟩ := startsPlace_of_behindFile hp
  have hline : (levelled level m line column).take 1 ++ x ++
      ':' :: (ds ++ ':' :: (es ++ ':' :: (gap ++ word.toList ++ ':' :: rest))) =
        (levelWord level).toList ++
          ':' :: (' ' :: m.chars ++ (" at line ".toList ++ placeText line column)) := by
    rw [← hy, List.append_assoc, ← hxy, List.take_append_drop]
    simp only [levelled, levelFront, List.append_assoc, List.cons_append]
  rcases split_of_append_cons_eq hword hline with ⟨-, heq⟩ | ⟨z, -, heq⟩ <;>
    exact htail (heq ▸ by simp)

theorem find?_eq_none_of_unquoted {grammar : List Char → Option (Notice × List Char)}
    {shape : List Char → List Char → Prop} (hopens : Notice.Opens grammar shape)
    (hshape : ∀ u v, shape u v → '\'' ∈ u) :
    find? grammar (levelled level m line column) = none := by
  refine Notice.find?_eq_none_of_opens hopens unmarked_levelFront unmarked_placeText ?_
  intro x u hu h
  have hquote : '\'' ∉ levelFront level m := by
    simp only [levelFront, List.mem_append, List.mem_cons, not_or]
    exact ⟨by cases level <;> decide, by decide, by decide, m.unquoted⟩
  exact hquote (hu ▸ List.mem_append_right x (hshape u _ h))

theorem leading_passes_levelled (h : ∀ w ∈ missingWords, ¬ w.toList <:+ m.chars) :
    ∀ g ∈ leading, find? g (levelled level m line column) = none := by
  have hmissing : ∀ w ∈ missingWords, ¬ w.toList <:+ levelFront level m :=
    fun w hw hsuffix => h w hw ((suffix_missing_iff hw).1 hsuffix)
  have hspecial : ∀ g ∈ special, find? g (levelled level m line column) = none :=
    find?_eq_none_of_front unmarked_levelFront unmarked_placeText notMissing_placeText
      (hmissing _ (by decide)) (hmissing _ (by decide))
  have hkind : find? kindMessage (levelled level m line column) = none := by
    refine Notice.find?_eq_none_of_opens Notice.kindMessage_opens unmarked_levelFront
      unmarked_placeText ?_
    rintro x u - ⟨-, hcolon⟩
    exact (List.mem_append.1 hcolon).elim (line.notMem (by decide))
      (notMem_columnText (by decide) (by decide))
  have htoken : find? token (levelled level m line column) = none := by
    refine find?_eq_none_of_unquoted Notice.token_opens ?_
    rintro u v ⟨text, -, rfl⟩
    simp [Notice.quote]
  have hname : find? undefinedName (levelled level m line column) = none := by
    refine find?_eq_none_of_unquoted Notice.undefinedName_opens ?_
    rintro u v ⟨text, -, rfl⟩
    simp [Notice.quote]
  have hmismatch : find? mismatch (levelled level m line column) = none := by
    refine find?_eq_none_of_unquoted Notice.mismatch_opens ?_
    rintro u v ⟨wanted, got, -, rfl⟩
    simp [Notice.quote]
  intro g hg
  have hg : g ∈ special ++ [kindMessage, token, undefinedName, mismatch] := hg
  rcases List.mem_append.1 hg with hg | hg
  · exact hspecial g hg
  · simp only [List.mem_cons, List.not_mem_nil, or_false] at hg
    rcases hg with rfl | rfl | rfl | rfl
    exacts [hkind, htoken, hname, hmismatch]

theorem read?_levelled (h : ∀ w ∈ missingWords, ¬ w.toList <:+ m.chars) :
    Notice.read? (levelled level m line column) =
      some (.placed level m.chars line.digits (column.map (·.digits))) := by
  rw [Notice.read?, List.findSome?_eq_none_iff.2 (leading_passes_levelled h),
    behindFile_passes_levelled]
  exact find?_line trailingPlace_levelled

theorem expectedName_missing {word : String} (hword : word ∈ missingWords) :
    expectedName (word.toList ++ (" at line ".toList ++ placeText line column)) =
      some (.expected (word == "expected variable name") line.digits, columnText column) := by
  have hwhat : ∃ what ∈ ["variable name", "expression"],
      word.toList = "expected ".toList ++ what.toList ∧
        (what == "variable name") = (word == "expected variable name") := by
    rcases List.mem_pair.1 hword with rfl | rfl
    · exact ⟨"variable name", by decide, rfl, rfl⟩
    · exact ⟨"expression", by decide, rfl, rfl⟩
  obtain ⟨what, hmem, hwords, heq⟩ := hwhat
  have hone : ∀ cs, oneOf ["variable name", "expression"] (what.toList ++ cs) =
      some (what, cs) := by
    rcases List.mem_pair.1 hmem with rfl | rfl <;> exact fun _ => rfl
  rw [hwords, List.append_assoc, ← heq]
  unfold expectedName
  refine Option.bind_eq_some_iff.2 ⟨_, literal_append _ _, ?_⟩
  refine Option.bind_eq_some_iff.2 ⟨_, hone _, ?_⟩
  exact Option.bind_eq_some_iff.2 ⟨_, atLine_placeText, rfl⟩

/-- Neither of the two phrases ends in the other, so only one of them is read. -/
theorem expectedName_passes_before {x a b : List Char} {word : String} (hword : word ∈ missingWords)
    (hx : x ++ word.toList = levelFront level m) (hab : x = a ++ b) (hb : b ≠ []) :
    expectedName (b ++ (word.toList ++ (" at line ".toList ++ placeText line column))) = none := by
  have hborder : ∀ v ∈ missingWords, ∀ w ∈ missingWords, v.toList <:+ w.toList → v = w := by
    decide
  refine Option.eq_none_iff_forall_not_mem.2 fun p hp => hb ?_
  obtain ⟨u, v, hy, hu⟩ := Notice.expectedName_opens _ p.1 p.2 hp
  have hfront : ¬ mark <:+: levelFront level m := unmarked_levelFront
  have hmark : ¬ mark <:+: b ++ word.toList := by
    intro hmark
    refine hfront ?_
    rw [← hx, hab, List.append_assoc]
    exact hmark.trans (List.suffix_append a _).isInfix
  rw [← List.append_assoc] at hy
  obtain ⟨rfl, -⟩ := Notice.mark_once hmark unmarked_placeText hy
  obtain ⟨w, hw, hbw⟩ : ∃ w ∈ missingWords, b ++ word.toList = w.toList := by
    rcases hu with hu | hu
    · exact ⟨_, List.mem_cons_self, hu⟩
    · exact ⟨_, List.mem_cons_of_mem _ List.mem_cons_self, hu⟩
  obtain rfl := hborder word hword w hw (hbw ▸ List.suffix_append b _)
  exact List.append_left_eq_self.1 hbw

/-- Behind the words of a missing part the first grammar reads the place. -/
theorem read?_missing {word : String} (hword : word ∈ missingWords) (h : word.toList <:+ m.chars) :
    Notice.read? (levelled level m line column) =
      some (.expected (word == "expected variable name") line.digits) := by
  obtain ⟨x, hx⟩ : word.toList <:+ levelFront level m := (suffix_missing_iff hword).2 h
  have hfind : find? expectedName (levelled level m line column) =
      some (.expected (word == "expected variable name") line.digits) := by
    rw [levelled, ← hx, List.append_assoc]
    refine Notice.find?_append (fun a b hab hb => ?_) (by simp) (expectedName_missing hword)
    exact expectedName_passes_before hword hx hab hb
  exact read?_of_leading [] expectedName rfl nofun hfind

/-! ### What is reported -/

theorem trim_levelled : trim (levelled level m line column) = levelled level m line column := by
  obtain ⟨c, hhead, hc⟩ : ∃ c, (levelFront level m).head? = some c ∧ isBlank c = false := by
    cases level
    · exact ⟨'e', rfl, by decide⟩
    · exact ⟨'w', rfl, by decide⟩
  refine trim_line hhead hc ?_
  cases column with
  | none =>
    show (" at line ".toList ++ (line.digits ++ [])).getLast?.any isBlank = false
    rw [List.append_nil]
    exact ended_append _ line.ne_nil line.ended
  | some column =>
    rw [placeText_some]
    exact ended_placed

theorem unbroken_levelled : ∀ c ∈ levelled level m line column, isLineBreak c = false := by
  have hplace : ∀ c ∈ placeText line column, isLineBreak c = false := by
    refine List.forall_mem_append.2 ⟨line.unbroken, ?_⟩
    cases column with
    | none => exact nofun
    | some column => exact List.forall_mem_append.2 ⟨unbroken_of_any (by decide), column.unbroken⟩
  have hfront : ∀ c ∈ levelFront level m, isLineBreak c = false := by
    simp only [levelFront, List.forall_mem_append, List.forall_mem_cons]
    exact ⟨unbroken_of_any (by cases level <;> decide), by decide, by decide, m.unbroken⟩
  refine List.forall_mem_append.2 ⟨hfront, List.forall_mem_append.2 ⟨?_, hplace⟩⟩
  exact unbroken_of_any (by decide)

theorem not_suppressed_phrase : isSuppressed m.chars = false := by
  rw [isSuppressed, Bool.or_eq_false_iff, ← Bool.not_eq_true, ← Bool.not_eq_true, occursIn_iff,
    occursIn_iff]
  exact ⟨m.notReading, m.notEnd⟩

theorem diagnostics_levelled (lines : SourceLines) :
    (Notice.placed level m.chars line.digits (column.map (·.digits))).diagnostics lines =
      .ok [levelledDiagnostic lines level m line column] := by
  have hshown : placedDiagnostic lines level m.chars line.index
      ((column.map Numeral.index).getD 0) = levelledDiagnostic lines level m line column := by
    dsimp only [placedDiagnostic, levelledDiagnostic, maxSpan]
    cases lines[line.index]? with
    | none => exact onLine_eq_shown (by dsimp only [Option.map_none, Option.getD_none]; omega)
    | some source =>
      refine onLine_eq_shown ?_
      dsimp only [Option.map_some, Option.getD_some]
      push_cast
      omega
  refine (if_neg (by simp [not_suppressed_phrase])).trans ?_
  refine bind_eq_ok.2 ⟨_, line.place_digits, ?_⟩
  cases column with
  | none => exact congrArg (fun d => Except.ok [d]) hshown
  | some column =>
    exact bind_eq_ok.2 ⟨_, column.place_digits, congrArg (fun d => Except.ok [d]) hshown⟩

/-- A report of one line that is read as a notice says what the notice says. -/
theorem parse_of_read? {l : List Char} {n : Notice} {ds : List Diagnostic} {text : String}
    (hl : ∀ c ∈ l, isLineBreak c = false) (hend : ¬ endOfInput <:+: l)
    (hread : Notice.read? (trim l) = some n)
    (hds : n.diagnostics (splitOn '\n' text.toList) = .ok ds) :
    parse (String.ofList l) text = .ok ds := by
  have hspoken : ¬ ∀ c ∈ l, isBlank c = true := by
    intro h
    rw [List.isEmpty_iff.1 (isEmpty_trim.2 h)] at hread
    exact Option.some_ne_none _ (hread.symm.trans rfl)
  have hnews : newsLines (String.ofList l).toList = [trim l] := by
    rw [String.toList_ofList, newsLines_of_unbroken hl]
    exact List.filter_cons_of_pos (isNews_trim.2 ⟨hspoken, hend⟩)
  have hheard : Heard (String.ofList l) :=
    ⟨trim l, hnews ▸ List.mem_singleton.2 rfl, by rw [hread]; rfl⟩
  rw [parse_of_heard hheard, hnews, understood, List.filterMap_cons, hread]
  refine bind_eq_ok.2 ⟨[ds], bind_eq_ok.2 ⟨_, hds, rfl⟩, ?_⟩
  exact congrArg Except.ok (List.append_nil ds)

theorem parse_levelled {text : String} {n : Notice} {ds : List Diagnostic}
    (hread : Notice.read? (levelled level m line column) = some n)
    (hds : n.diagnostics (splitOn '\n' text.toList) = .ok ds) :
    parse (String.ofList (levelled level m line column)) text = .ok ds := by
  have hend : ¬ endOfInput <:+: levelled level m line column := fun h => notEnd_levelled
    (List.IsInfix.trans ⟨"error reading input: ".toList, [], by decide⟩ h)
  exact parse_of_read? unbroken_levelled hend (by rw [trim_levelled]; exact hread) hds

theorem message_expectedDiagnostic (lines : SourceLines) (name : Bool) (n : Nat) :
    (expectedDiagnostic lines name n).message = String.ofList (if name then
        "Expected variable name after '".toList ++
          (((firstHit? danglingKeyword (lines[n]?.getD [])).map (·.value)).getD "var").toList ++
            ['\'']
      else "Expected expression".toList) := by
  unfold expectedDiagnostic
  dsimp only
  split
  · rfl
  · split <;> rfl

/-- What is reported for a missing part has quotes or a capital letter that the message has not. -/
theorem expectedDiagnostic_ne (lines : SourceLines) {word : String} (hword : word ∈ missingWords)
    (h : word.toList <:+ m.chars) :
    expectedDiagnostic lines (word == "expected variable name") line.index ≠
      levelledDiagnostic lines level m line column := by
  intro heq
  have hmessage := congrArg Diagnostic.message heq
  rw [message_expectedDiagnostic] at hmessage
  have hchars := String.ofList_injective hmessage
  rcases List.mem_pair.1 hword with rfl | rfl
  · refine m.unquoted ?_
    rw [← hchars, if_pos (by decide)]
    exact List.mem_append_right _ (List.mem_singleton_self '\'')
  · rw [← hchars, if_neg (by decide)] at h
    exact absurd h (by decide)

end

/-- A message with a level and a place is reported as it was written iff it does not end, in
letters, as one about a missing variable name or expression. If it does, that is what is
reported. -/
theorem parse_levelled_iff (level : Level) (m : Phrase) (line : Numeral) (column : Option Numeral)
    (text : String) :
    (parse (String.ofList (levelled level m line column)) text =
        .ok [levelledDiagnostic (splitOn '\n' text.toList) level m line column] ↔
      ∀ w ∈ missingWords, ¬ w.toList <:+ m.chars) ∧
    ∀ w ∈ missingWords, w.toList <:+ m.chars →
      parse (String.ofList (levelled level m line column)) text =
        .ok [expectedDiagnostic (splitOn '\n' text.toList) (w == "expected variable name")
          line.index] := by
  have hmissing : ∀ w ∈ missingWords, w.toList <:+ m.chars →
      parse (String.ofList (levelled level m line column)) text =
        .ok [expectedDiagnostic (splitOn '\n' text.toList) (w == "expected variable name")
          line.index] := by
    intro w hw h
    refine parse_levelled (read?_missing hw h) ?_
    exact bind_eq_ok.2 ⟨_, line.place_digits, rfl⟩
  refine ⟨⟨?_, ?_⟩, hmissing⟩
  · intro hparse w hw h
    rw [hmissing w hw h] at hparse
    exact expectedDiagnostic_ne _ hw h (List.cons.inj (Except.ok.inj hparse)).1
  · intro h
    exact parse_levelled (read?_levelled h) (diagnostics_levelled _)

/-- A message that is reported as it was written, and one that is not. -/
theorem parse_levelled_both :
    parse "warning: missing semicolon at line 2, column 5" "a\nvar b = 1" =
        .ok [shown 1 4 9 "missing semicolon".toList none .warning] ∧
      parse "error: expected expression at line 1" "var a =  " =
        .ok [shown 0 6 7 "Expected expression".toList none] := by
  let semicolon : Phrase := .ofText "missing semicolon" (by decide) (by decide) (by decide)
  let expression : Phrase := .ofText "expected expression" (by decide) (by decide) (by decide)
  let one : Numeral := .ofNat 1 (by decide) (by decide)
  let two : Numeral := .ofNat 2 (by decide) (by decide)
  let five : Numeral := .ofNat 5 (by decide) (by decide)
  have hwritten : ∀ w ∈ missingWords, ¬ w.toList <:+ semicolon.chars := by decide
  obtain ⟨hiff, -⟩ := parse_levelled_iff .warning semicolon two (some five) "a\nvar b = 1"
  obtain ⟨-, hmissing⟩ := parse_levelled_iff .error expression one none "var a =  "
  exact ⟨hiff.2 hwritten,
    hmissing "expected expression" (List.mem_cons_of_mem _ List.mem_cons_self) List.suffix_rfl⟩

/-- The word ends the text and no letter stands in front of it. -/
def EndsInWord (w cs : List Char) : Prop :=
  ∃ x, cs = x ++ w ∧ isWordAt x.getLast? = false

/-- Neither phrase is at the end of `unexpected expression` as whole words, but the letters are. -/
theorem parse_levelled_opposite :
    ∃ m : Phrase, m.chars = "unexpected expression".toList ∧
      (∀ w ∈ missingWords, ¬ EndsInWord w.toList m.chars) ∧
      let line : Numeral := .ofNat 1 (by decide) (by decide)
      parse (String.ofList (levelled .error m line none)) "var a" =
        .ok [shown 0 4 5 "Expected expression".toList none] ∧
      levelledDiagnostic ["var a".toList] .error m line none =
        shown 0 0 5 "unexpected expression".toList none := by
  refine ⟨.ofText "unexpected expression" (by decide) (by decide) (by decide), rfl, ?_,
    by decide +kernel, by decide +kernel⟩
  rintro w hw ⟨x, hx, hword⟩
  rcases List.mem_pair.1 hw with rfl | rfl
  · have hnot : ¬ "expected variable name".toList <:+ "unexpected expression".toList := by decide
    exact hnot ⟨x, hx.symm⟩
  · have hun : "un".toList = x := List.append_cancel_right (hx : "un".toList ++ _ = _)
    rw [← hun] at hword
    exact absurd hword (by decide)

end BurnLens.Report
