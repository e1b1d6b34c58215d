import BurnLens.Proofs.Report.Numeral
import BurnLens.Proofs.Report.Opening

/-!
# Messages as the compiler writes them

The five kinds of messages that the compiler is known to write, with any texts in their places, and
the diagnostic that each of them stands for. A text in a message may hold anything but the words by
which other lines are told (`Payload`). That is why the line that a message makes has ` at line `
once or, behind a file name, not at all.
-/

namespace BurnLens.Report

open Text
open Notice (mark quote)

/-! ### Texts in a message -/

/-- A text without line ends and without the words by which lines are told. -/
structure Payload where
  chars : List Char
  unbroken : ∀ c ∈ chars, isLineBreak c = false
  unmarked : ¬ mark <:+: chars
  notEnd : ¬ "EOF".toList <:+: chars
  notReading : ¬ "error reading input".toList <:+: chars
  notMissing : ¬ "must have a type or initializer".toList <:+: chars

/-- The words by which lines are told. -/
def reserved : List String :=
  ["at line", "EOF", "error reading input", "must have a type or initializer"]

/-- Whether a text may stand in a message can be computed. -/
def Payload.ofText (text : String) (hunbroken : text.toList.any isLineBreak = false)
    (hreserved : ∀ w ∈ reserved, occursIn w.toList text.toList = false) : Payload where
  chars := text.toList
  unbroken := unbroken_of_any hunbroken
  unmarked := not_infix_of_occursIn (hreserved "at line" (by simp [reserved]))
  notEnd := not_infix_of_occursIn (hreserved "EOF" (by simp [reserved]))
  notReading := not_infix_of_occursIn (hreserved "error reading input" (by simp [reserved]))
  notMissing :=
    not_infix_of_occursIn (hreserved "must have a type or initializer" (by simp [reserved]))

/-- A text that may stand at the end of a line. -/
structure Sentence extends Payload where
  ne_nil : chars ≠ []
  ended : chars.getLast?.any isBlank = false

/-- A text that may stand between quotes. -/
structure Quotable extends Payload where
  unquoted : '\'' ∉ chars

/-- A text that says something. -/
structure Remark extends Payload where
  spoken : ∃ c ∈ chars, isBlank c = false

/-- `:N:N: level:` stands here. -/
def StartsPlace (cs : List Char) : Prop :=
  ∃ line column gap rest, ∃ level ∈ ["error", "warning"], line ≠ [] ∧ column ≠ [] ∧
    (∀ c ∈ line, isDigit c = true) ∧ (∀ c ∈ column, isDigit c = true) ∧
    (∀ c ∈ gap, isBlank c = true) ∧
    cs = ':' :: (line ++ ':' :: (column ++ ':' :: (gap ++ level.toList ++ ':' :: rest)))

/-- A file name ends where a place starts for the first time. -/
structure FileName extends Remark where
  first : ∀ x y, chars = x ++ y → (∃ c ∈ x, isBlank c = false) → ¬ StartsPlace (y ++ [':'])

/-- A name without colons is a file name. -/
def Remark.fileName (r : Remark) (hcolon : ':' ∉ r.chars) : FileName where
  toRemark := r
  first x y hxy _ := by
    rintro ⟨line, column, gap, rest, level, -, hline, -, -, -, -, heq⟩
    cases y with
    | nil =>
      obtain ⟨-, heq⟩ := List.cons.inj heq
      simp [hline] at heq
    | cons c y =>
      obtain ⟨rfl, -⟩ := List.cons.inj heq
      exact hcolon (by rw [hxy]; simp)

/-! ### Messages -/

inductive Message where
  | kinded (kind : ErrorKind) (line column : Numeral) (text : Sentence)
  | unexpectedToken (token : Quotable) (line column : Numeral)
  | undefinedVariable (name : Quotable) (hname : name.chars ≠ []) (line column : Numeral)
  | typeMismatch (wanted got : Quotable) (line column : Numeral)
  | inFile (file : FileName) (line column : Numeral) (level : Level) (text : Remark)

def levelWord : Level → String
  | .error => "error"
  | .warning => "warning"

/-- `line N, column N` and what follows, as it stands behind ` at `. -/
def placed (line column : Numeral) (rest : List Char) : List Char :=
  line.digits ++ ", column ".toList ++ column.digits ++ rest

/-- `:N:N: level: ` and what follows, as it stands behind a file name. -/
def inFilePlace (line column : Numeral) (level : Level) (rest : List Char) : List Char :=
  ':' :: (line.digits ++ ':' :: (column.digits ++ ':' :: ' ' ::
    ((levelWord level).toList ++ ':' :: ' ' :: rest)))

namespace Message

/-- The line that the compiler writes. -/
def render : Message → List Char
  | .kinded kind line column text =>
    kind.label.toList ++ " error".toList ++
      (" at line ".toList ++ placed line column (": ".toList ++ text.chars))
  | .unexpectedToken token line column =>
    "unexpected token ".toList ++ quote token.chars ++
      (" at line ".toList ++ placed line column [])
  | .undefinedVariable name _ line column =>
    "undefined variable ".toList ++ quote name.chars ++
      (" at line ".toList ++ placed line column [])
  | .typeMismatch wanted got line column =>
    "type mismatch: expected ".toList ++ quote wanted.chars ++ ", got ".toList ++ quote got.chars ++
      (" at line ".toList ++ placed line column [])
  | .inFile file line column level text =>
    file.chars ++ inFilePlace line column level text.chars

end Message

/-! ### What messages stand for -/

/-- A diagnostic of the compiler about some columns of a line. -/
def shown (line start stop : Nat) (message : List Char) (kind : Option ErrorKind)
    (severity : Severity := .error) : Diagnostic where
  severity := severity
  range := .onLine line start stop
  message := String.ofList message
  source := .compiler kind
  code := some Code.compilerError

namespace Message

/-- The diagnostic that a message about the text with these lines stands for. -/
def diagnostic (lines : SourceLines) : Message → Diagnostic
  | .kinded kind line column text =>
    let columns := (lines[line.index]?.map fun source => widen source column.index).getD
      (column.index, column.index + 1)
    shown line.index columns.1 columns.2 (kind.label.toList ++ " error: ".toList ++ text.chars) kind
  | .unexpectedToken token line column =>
    shown line.index column.index (column.index + max 1 token.chars.length)
      ("Unexpected token ".toList ++ quote token.chars) (some .syntactic)
  | .undefinedVariable name _ line column =>
    shown line.index column.index (column.index + max 1 name.chars.length)
      ("Undefined variable ".toList ++ quote name.chars) none
  | .typeMismatch wanted got line column =>
    let length := (lines[line.index]?.map fun source =>
      runFrom isExpressionChar source column.index).getD 0
    shown line.index column.index (column.index + max 1 length)
      ("Type mismatch: expected ".toList ++ quote wanted.chars ++ ", got ".toList ++
        quote got.chars) (some .typing)
  | .inFile _ line column level text =>
    let length := (lines[line.index]?.map fun source =>
      min 10 (source.length - column.index)).getD 0
    shown line.index column.index (column.index + max 1 length) (trim text.chars) none
      (match level with | .error => .error | .warning => .warning)

end Message

/-! ### What a line holds -/

section
variable {w a b t rest : List Char} {c : Char} {line column : Numeral}

theorem Numeral.notMem (n : Numeral) (hc : isDigit c = false) : c ∉ n.digits := by
  intro hmem
  rw [n.digit c hmem] at hc
  cases hc

theorem Numeral.notBlank (n : Numeral) : ∀ c ∈ n.digits, isBlank c = false :=
  fun c hc => isBlank_of_isDigit (n.digit c hc)

theorem head?_of_prefix_cons (hne : w ≠ []) (h : w <+: c :: t) : w.head? = some c := by
  cases w with
  | nil => exact absurd rfl hne
  | cons d w =>
    obtain ⟨rfl, -⟩ := List.cons_prefix_cons.1 h
    rfl

/-- What may follow a place in a line: nothing, or a colon and a text without the word. -/
def Follows (w rest : List Char) : Prop :=
  rest = [] ∨ ∃ t, rest = ": ".toList ++ t ∧ ¬ w <:+: t

theorem not_infix_placed (hmarks : ',' ∉ w ∧ ':' ∉ w ∧ w.head? ≠ some ' ') (hc : c ∈ w)
    (hdigit : isDigit c = false) (hcolumn : c ∉ " column ".toList) (hrest : Follows w rest) :
    ¬ w <:+: placed line column rest := by
  obtain ⟨hcomma, hcolon, hspace⟩ := hmarks
  have hplaced : placed line column rest =
      line.digits ++ ',' :: (" column ".toList ++ column.digits ++ rest) := by
    show line.digits ++ ',' :: " column ".toList ++ column.digits ++ rest = _
    simp only [List.append_assoc, List.cons_append]
  have hbefore : ¬ w <:+: " column ".toList ++ column.digits :=
    not_infix_of_mem hc fun hmem => (List.mem_append.1 hmem).elim hcolumn (column.notMem hdigit)
  rw [hplaced, infix_append_cons_iff hcomma]
  rintro (h | h)
  · exact not_infix_of_mem hc (line.notMem hdigit) h
  · rcases hrest with rfl | ⟨t, rfl, ht⟩
    · rw [List.append_nil] at h
      exact hbefore h
    · rcases (infix_append_cons_iff hcolon (b := ' ' :: t)).1 h with h | h
      · exact hbefore h
      · rcases List.infix_cons_iff.1 h with h | h
        · exact hspace (head?_of_prefix_cons (List.ne_nil_of_mem hc) h)
        · exact ht h

theorem not_infix_inFilePlace {level : Level} (hcolon : ':' ∉ w) (hspace : w.head? ≠ some ' ')
    (hc : c ∈ w) (hdigit : isDigit c = false) (hlevel : c ∉ ' ' :: (levelWord level).toList)
    (ha : ¬ w <:+: a) (ht : ¬ w <:+: t) : ¬ w <:+: a ++ inFilePlace line column level t := by
  have htext : ¬ w <:+: ' ' :: t := by
    intro h
    rcases List.infix_cons_iff.1 h with h | h
    · exact hspace (head?_of_prefix_cons (List.ne_nil_of_mem hc) h)
    · exact ht h
  rw [inFilePlace, infix_append_cons_iff hcolon, infix_append_cons_iff hcolon,
    infix_append_cons_iff hcolon, ← List.cons_append, infix_append_cons_iff hcolon]
  rintro (h | h | h | h | h)
  · exact ha h
  · exact not_infix_of_mem hc (line.notMem hdigit) h
  · exact not_infix_of_mem hc (column.notMem hdigit) h
  · exact not_infix_of_mem hc hlevel h
  · exact htext h

theorem not_infix_quote (hquote : '\'' ∉ w) (ha : ¬ w <:+: a) (ht : ¬ w <:+: t)
    (hb : ¬ w <:+: b) : ¬ w <:+: a ++ quote t ++ b := by
  have hline : a ++ quote t ++ b = a ++ '\'' :: (t ++ '\'' :: b) := by
    simp only [quote, List.append_assoc, List.cons_append, List.nil_append]
  rw [hline, infix_append_cons_iff hquote, infix_append_cons_iff hquote]
  rintro (h | h | h)
  · exact ha h
  · exact ht h
  · exact hb h

theorem not_infix_append_quote (hne : w ≠ []) (hquote : '\'' ∉ w) (ha : ¬ w <:+: a)
    (ht : ¬ w <:+: t) : ¬ w <:+: a ++ quote t := by
  have hnil : ¬ w <:+: [] := fun h => hne (List.infix_nil.1 h)
  have hline := not_infix_quote hquote ha ht hnil
  rwa [List.append_nil] at hline

theorem not_infix_line (hspace : ' ' ∉ w) (hmark : ¬ w <:+: mark) (ha : ¬ w <:+: a)
    (hb : ¬ w <:+: b) : ¬ w <:+: a ++ (" at line ".toList ++ b) := by
  have hline : a ++ (" at line ".toList ++ b) = a ++ ' ' :: (mark ++ ' ' :: b) := by
    rw [Notice.atLine_eq]
    simp only [List.append_assoc, List.cons_append, List.nil_append]
  rw [hline, infix_append_cons_iff hspace, infix_append_cons_iff hspace]
  rintro (h | h | h)
  · exact ha h
  · exact hmark h
  · exact hb h

end

end BurnLens.Report
