import Mathlib.Data.List.TakeWhile
import BurnLens.Lexeme

/-!
# Code characters

`code` reads a text one character at a time and keeps what lies outside string literals and
comments. The reader only ever knows whether it is in a comment, in a literal, or behind a backslash
in a literal. `tokens` cuts the same text into whole lexemes. The two agree: code is what the words
and marks are made of (`code_eq_flatMap`). They agree on more, the offsets of code and the literals
that end without their quote, which `notes` keeps too; and this is what is proved (`notesFrom_eq`).
-/

namespace BurnLens.Lexeme

/-- What a reader is in the middle of. -/
inductive Mode where
  | code
  | comment
  | quoted (quote : Char)
  | escaped (quote : Char)
  deriving DecidableEq, Repr

/-- Reads a character, with a look at the next: whether it is code, and what the reader is in the
middle of behind it. A newline that ends a comment or cuts off a literal is code. -/
def Mode.step (next : Option Char) (c : Char) : Mode → Bool × Mode
  | .code =>
    if c == '/' && next == some '/' then (false, .comment)
    else if c == '"' || c == '\'' then (false, .quoted c)
    else (true, .code)
  | .comment => if c == '\n' then (true, .code) else (false, .comment)
  | .quoted quote =>
    if c == '\\' then (false, .escaped quote)
    else if c == quote then (false, .code)
    else if c == '\n' then (true, .code)
    else (false, .quoted quote)
  | .escaped quote => (false, .quoted quote)

/-- The characters that are code, for a reader in the middle of something. -/
def codeFrom (m : Mode) : List Char → List Char
  | [] => []
  | c :: cs =>
    if (m.step cs.head? c).1 then c :: codeFrom (m.step cs.head? c).2 cs
    else codeFrom (m.step cs.head? c).2 cs

/-- The characters of a text outside string literals and comments. -/
def code (cs : List Char) : List Char :=
  codeFrom .code cs

/-- What a reader writes down: a character of code, with its offset, and a literal that ends without
its quote, from its opening quote up to its end. -/
inductive Note where
  | code (c : Char) (pos : Nat)
  | broken (start stop : Nat)
  deriving DecidableEq, Repr

/-- A literal that the reader is still in, opened at `start`, has no quote up to `pos`. -/
def Mode.broken (start pos : Nat) : Mode → List Note
  | .code => []
  | .comment => []
  | .quoted _ => [.broken start pos]
  | .escaped _ => [.broken start pos]

/-- The notes of a reader at offset `pos` in the middle of something; `start` is where the literal
was opened, if it is in one. A literal is broken where it meets code or the end of the text. -/
def notesFrom (m : Mode) (start pos : Nat) : List Char → List Note
  | [] => m.broken start pos
  | c :: cs =>
    (if (m.step cs.head? c).1 then m.broken start pos ++ [.code c pos] else []) ++
      notesFrom (m.step cs.head? c).2 (if m = .code then pos else start) (pos + 1) cs

/-- The notes on a text. -/
def notes (cs : List Char) : List Note :=
  notesFrom .code 0 0 cs

def Note.spot? : Note → Option (Char × Nat)
  | .code c pos => some (c, pos)
  | .broken _ _ => none

def Note.broken? : Note → Option (Nat × Nat)
  | .code _ _ => none
  | .broken start stop => some (start, stop)

/-- The characters of code with their offsets. -/
def spots (cs : List Char) : List (Char × Nat) :=
  (notes cs).filterMap Note.spot?

/-- The literals that end without their quote, each from its opening quote to the newline or the end
of the text. -/
def brokenLiterals (cs : List Char) : List (Nat × Nat) :=
  (notes cs).filterMap Note.broken?

/-- The characters that a lexeme has of its own: words and marks are code. -/
def spelled : Lexeme → List Char
  | .word name _ => name
  | .mark c => [c]
  | .comment => []
  | .quoted _ => []

/-- What there is to note about a lexeme from `start` to `stop`. -/
def noted (start stop : Nat) : Lexeme → List Note
  | .word name _ => (name.zipIdx start).map fun x => .code x.1 x.2
  | .mark c => [.code c start]
  | .comment => []
  | .quoted e => if e = .closed then [] else [.broken start stop]

/-! ### One lexeme after another -/

/-- Everything that can stand at the start of a text. -/
inductive ReadCase (c : Char) (cs : List Char) : Prop where
  | comment (body rest : List Char) (hcs : c :: cs = '/' :: '/' :: body ++ rest)
      (hbody : '\n' ∉ body) (hrest : rest.head?.all (· == '\n') = true)
      (heq : read c cs = (.comment, ('/' :: '/' :: body).length))
  | quoted (hquote : c = '"' ∨ c = '\'')
      (heq : read c cs = (.quoted (quotedTail c cs).2, (quotedTail c cs).1 + 1))
  | word (name rest : List Char) (hcs : c :: cs = name ++ rest)
      (hname : ∀ d ∈ name, Text.isIdentChar d = true) (hne : name ≠ [])
      (heq : read c cs = (.word name (rest.dropWhile Text.isBlank).head?, name.length))
  | mark (hcomment : ¬ (c = '/' ∧ cs.head? = some '/')) (hquote : ¬ (c = '"' ∨ c = '\''))
      (hword : Text.isIdentStart c = false) (heq : read c cs = (.mark c, 1))

theorem read_case (c : Char) (cs : List Char) : ReadCase c cs := by
  by_cases hcomment : c = '/' ∧ cs.head? = some '/'
  · obtain ⟨rfl, hhead⟩ := hcomment
    cases cs with
    | nil => cases hhead
    | cons d cs =>
      cases hhead
      refine .comment (cs.takeWhile (· != '\n')) (cs.dropWhile (· != '\n')) ?_ ?_ ?_ ?_
      · simp [List.takeWhile_append_dropWhile]
      · intro hmem
        simpa using List.mem_takeWhile_imp hmem
      · cases hdrop : cs.dropWhile (· != '\n') with
        | nil => rfl
        | cons d rest =>
          have hstop := List.head?_dropWhile_not (· != '\n') cs
          simpa [hdrop] using hstop
      · simp [read]
  by_cases hquote : c = '"' ∨ c = '\''
  · exact .quoted hquote (by simp [read, hcomment, hquote])
  by_cases hword : Text.isIdentStart c = true
  · refine .word ((c :: cs).takeWhile Text.isIdentChar) ((c :: cs).dropWhile Text.isIdentChar)
      List.takeWhile_append_dropWhile.symm (fun d hd => List.mem_takeWhile_imp hd) ?_ ?_
    · simp [Text.isIdentChar_of_isIdentStart hword]
    · simp [read, hcomment, hquote, hword]
  · exact .mark hcomment hquote (by simpa using hword) (by simp [read, hcomment, hquote, hword])

theorem read_pos (c : Char) (cs : List Char) : 0 < (read c cs).2 := by
  cases read_case c cs with
  | comment _ _ _ _ _ heq => simp [heq]
  | quoted _ heq => simp [heq]
  | word name _ _ _ hne heq => simpa [heq] using List.length_pos_iff.2 hne
  | mark _ _ _ heq => simp [heq]

theorem quotedTail_le (quote : Char) (cs : List Char) : (quotedTail quote cs).1 ≤ cs.length := by
  fun_induction quotedTail quote cs <;> simp_all

/-- A lexeme does not reach over the end of the text. -/
theorem read_le (c : Char) (cs : List Char) : (read c cs).2 ≤ (c :: cs).length := by
  cases read_case c cs with
  | comment body rest hcs _ _ heq =>
    rw [heq, hcs, List.length_append]
    exact Nat.le_add_right _ _
  | quoted _ heq =>
    rw [heq]
    exact Nat.succ_le_succ (quotedTail_le c cs)
  | word name rest hcs _ _ heq =>
    rw [heq, hcs, List.length_append]
    exact Nat.le_add_right _ _
  | mark _ _ _ heq => simp [heq]

theorem tokensFrom_skip (pos skip : Nat) (cs : List Char) :
    tokensFrom pos skip cs = tokensFrom (pos + skip) 0 (cs.drop skip) := by
  induction skip generalizing pos cs with
  | zero => rfl
  | succ skip ih =>
    cases cs with
    | nil => rfl
    | cons c cs =>
      rw [tokensFrom, ih, List.drop_succ_cons]
      congr 1
      omega

/-- A text is cut into its first lexeme and the lexemes of the rest. -/
theorem tokensFrom_cons (pos : Nat) (c : Char) (cs : List Char) :
    tokensFrom pos 0 (c :: cs) = ⟨pos, pos + (read c cs).2, (read c cs).1⟩ ::
      tokensFrom (pos + (read c cs).2) 0 ((c :: cs).drop (read c cs).2) := by
  have hpos := read_pos c cs
  rw [tokensFrom, tokensFrom_skip]
  obtain ⟨n, hn⟩ : ∃ n, (read c cs).2 = n + 1 := ⟨(read c cs).2 - 1, by omega⟩
  rw [hn, List.drop_succ_cons, Nat.add_sub_cancel]
  congr 2
  omega

/-- Induction along the lexemes of a text. -/
theorem read_induction {motive : List Char → Prop} (nil : motive [])
    (cons : ∀ c cs, motive ((c :: cs).drop (read c cs).2) → motive (c :: cs)) (cs : List Char) :
    motive cs := by
  induction hn : cs.length using Nat.strongRecOn generalizing cs with
  | _ n ih =>
    cases cs with
    | nil => exact nil
    | cons c cs =>
      have hpos := read_pos c cs
      have hlt : ((c :: cs).drop (read c cs).2).length < n := by
        rw [List.length_drop, List.length_cons, ← hn, List.length_cons]
        omega
      exact cons c cs (ih _ hlt _ rfl)

theorem le_start_of_mem_tokensFrom {pos : Nat} {cs : List Char} {t : Token}
    (h : t ∈ tokensFrom pos 0 cs) : pos ≤ t.start := by
  induction cs using read_induction generalizing pos with
  | nil => cases h
  | cons c cs ih =>
    rw [tokensFrom_cons] at h
    rcases List.mem_cons.1 h with rfl | h
    · exact Nat.le_refl pos
    · exact Nat.le_trans (Nat.le_add_right _ _) (ih h)

/-! ### The reader passes whole lexemes -/

/-- Where the last literal was opened does not matter in code. -/
theorem notesFrom_code (start start' pos : Nat) (cs : List Char) :
    notesFrom .code start pos cs = notesFrom .code start' pos cs := by
  cases cs <;> rfl

theorem notesFrom_comment {body rest : List Char} (hbody : '\n' ∉ body)
    (hrest : rest.head?.all (· == '\n') = true) (start pos : Nat) :
    notesFrom .comment start pos (body ++ rest) =
      notesFrom .code start (pos + body.length) rest := by
  induction body generalizing pos with
  | nil =>
    cases rest with
    | nil => rfl
    | cons d rest =>
      obtain rfl : d = '\n' := by simpa using hrest
      exact congrArg (_ :: ·) (notesFrom_code start pos (pos + 1) rest)
  | cons c body ih =>
    have hc : c ≠ '\n' := fun h => hbody (h ▸ List.mem_cons_self)
    have hrest' := ih (fun h => hbody (List.mem_cons_of_mem c h)) (pos + 1)
    simpa [notesFrom, Mode.step, hc, Nat.add_assoc, Nat.add_comm 1] using hrest'

/-- A literal is noted if it ends without its quote. -/
theorem notesFrom_quoted (quote : Char) (start pos : Nat) (cs : List Char) :
    notesFrom (.quoted quote) start pos cs =
      (if (quotedTail quote cs).2 = .closed then []
        else [.broken start (pos + (quotedTail quote cs).1)]) ++
        notesFrom .code start (pos + (quotedTail quote cs).1)
          (cs.drop (quotedTail quote cs).1) := by
  fun_induction quotedTail quote cs generalizing pos with
  | case1 => rfl
  | case2 c h => simp [notesFrom, Mode.step, Mode.broken, h]
  | case3 c h d rest ih =>
    simp [notesFrom, Mode.step, h, ih, Nat.add_assoc, Nat.add_comm 2]
  | case4 c cs hb hq => simp [notesFrom, Mode.step, hb, hq]
  | case5 c cs hb hq hn =>
    obtain rfl : c = '\n' := by simpa using hn
    have hcode := notesFrom_code start pos (pos + 1) cs
    simp [notesFrom, Mode.step, Mode.broken, hq, hcode]
  | case6 c cs hb hq hn ih =>
    simp [notesFrom, Mode.step, hb, hq, hn, ih, Nat.add_assoc, Nat.add_comm 1]

theorem notesFrom_word {w : List Char} (hw : ∀ c ∈ w, Text.isIdentChar c = true) (start pos : Nat)
    (cs : List Char) :
    notesFrom .code start pos (w ++ cs) =
      (w.zipIdx pos).map (fun x => .code x.1 x.2) ++
        notesFrom .code start (pos + w.length) cs := by
  induction w generalizing pos with
  | nil => rfl
  | cons c w ih =>
    have hc := hw c List.mem_cons_self
    have hplain : c ≠ '/' ∧ c ≠ '"' ∧ c ≠ '\'' := by
      refine ⟨?_, ?_, ?_⟩ <;> rintro rfl <;> exact absurd hc (by decide)
    have hrest := ih (fun d hd => hw d (List.mem_cons_of_mem c hd)) (pos + 1)
    rw [notesFrom_code start pos] at hrest
    simp [notesFrom, Mode.step, Mode.broken, hplain, hrest, Nat.add_assoc, Nat.add_comm 1]

/-- The notes on a text are those on its first lexeme and those on the rest. -/
theorem notesFrom_cons (start pos : Nat) (c : Char) (cs : List Char) :
    notesFrom .code start pos (c :: cs) =
      (read c cs).1.noted pos (pos + (read c cs).2) ++
        notesFrom .code start (pos + (read c cs).2) ((c :: cs).drop (read c cs).2) := by
  cases read_case c cs with
  | comment body rest hcs hbody hrest heq =>
    rw [heq, hcs, List.drop_left' rfl]
    have hslash : '\n' ∉ '/' :: body := by simp [hbody]
    have hcomment := notesFrom_comment hslash hrest pos (pos + 1)
    rw [notesFrom_code pos start] at hcomment
    simpa [notesFrom, Mode.step, Lexeme.noted, Nat.add_assoc, Nat.add_comm 1] using hcomment
  | quoted hquote heq =>
    rw [heq, List.drop_succ_cons, Lexeme.noted]
    have hquoted := notesFrom_quoted c pos (pos + 1) cs
    rw [notesFrom_code pos start] at hquoted
    have hopen : c ≠ '/' := by rcases hquote with rfl | rfl <;> decide
    simpa [notesFrom, Mode.step, hopen, hquote, Nat.add_assoc, Nat.add_comm 1] using hquoted
  | word name rest hcs hname _ heq =>
    rw [heq, hcs, List.drop_left' rfl]
    exact notesFrom_word hname start pos rest
  | mark hcomment hquote _ heq =>
    rw [heq]
    have hcode := notesFrom_code pos start (pos + 1) cs
    simp [notesFrom, Mode.step, Mode.broken, Lexeme.noted, hcomment, hquote, hcode]

/-- Reading character by character, one notes what there is to note about the lexemes. -/
theorem notesFrom_eq (start pos : Nat) (cs : List Char) :
    notesFrom .code start pos cs =
      (tokensFrom pos 0 cs).flatMap fun t => t.lexeme.noted t.start t.stop := by
  induction cs using read_induction generalizing pos with
  | nil => rfl
  | cons c cs ih => rw [notesFrom_cons, tokensFrom_cons, List.flatMap_cons, ih]

/-- A literal that is broken is not code. -/
theorem spots_broken (m : Mode) (start pos : Nat) :
    (m.broken start pos).filterMap Note.spot? = [] := by
  cases m <;> rfl

theorem codeFrom_eq (m : Mode) (start pos : Nat) (cs : List Char) :
    codeFrom m cs = ((notesFrom m start pos cs).filterMap Note.spot?).map Prod.fst := by
  induction cs generalizing m start pos with
  | nil =>
    rw [notesFrom, spots_broken]
    rfl
  | cons c cs ih =>
    rw [codeFrom, notesFrom, List.filterMap_append, List.map_append, ← ih]
    split
    · rw [List.filterMap_append, spots_broken]
      rfl
    · rfl

/-- Code with its offsets is code. -/
theorem spots_map_fst (cs : List Char) : (spots cs).map Prod.fst = code cs :=
  (codeFrom_eq .code 0 0 cs).symm

/-- Code is what the words and marks of a text are made of. -/
theorem code_eq_flatMap (pos : Nat) (cs : List Char) :
    code cs = (tokensFrom pos 0 cs).flatMap (·.lexeme.spelled) := by
  have hnoted : ∀ (l : Lexeme) (start stop : Nat),
      ((l.noted start stop).filterMap Note.spot?).map Prod.fst = l.spelled := by
    intro l start stop
    cases l with
    | quoted e => cases e <;> rfl
    | comment => rfl
    | word name next =>
      have hspot : Note.spot? ∘ (fun x : Char × Nat => .code x.1 x.2) = some := rfl
      rw [noted, List.filterMap_map, hspot, List.filterMap_some, List.zipIdx_map_fst, spelled]
    | mark c => rfl
  rw [code, codeFrom_eq .code 0 pos, notesFrom_eq, List.filterMap_flatMap, List.map_flatMap]
  simp only [hnoted]

/-- Code stands in the text at its offsets, in order. -/
theorem spotsFrom_sublist (m : Mode) (start pos : Nat) (cs : List Char) :
    ((notesFrom m start pos cs).filterMap Note.spot?).Sublist (cs.zipIdx pos) := by
  induction cs generalizing m start pos with
  | nil =>
    rw [notesFrom, spots_broken]
    exact .slnil
  | cons c cs ih =>
    rw [notesFrom, List.filterMap_append, List.zipIdx_cons]
    split
    · rw [List.filterMap_append, spots_broken]
      exact (ih _ _ _).cons_cons (c, pos)
    · exact (ih _ _ _).cons (c, pos)

theorem spots_sublist (cs : List Char) : (spots cs).Sublist cs.zipIdx :=
  spotsFrom_sublist .code 0 0 cs

theorem quotedTail_endOfText {quote : Char} {cs : List Char}
    (h : (quotedTail quote cs).2 = .endOfText) : (quotedTail quote cs).1 = cs.length := by
  fun_induction quotedTail quote cs <;> simp_all

/-- A literal cut off by the end of the text is the last lexeme. -/
theorem tokensFrom_last (pos : Nat) (cs : List Char) :
    (tokensFrom pos 0 cs).Pairwise fun t _ => t.lexeme ≠ .quoted .endOfText := by
  induction cs using read_induction generalizing pos with
  | nil => exact .nil
  | cons c cs ih =>
    rw [tokensFrom_cons]
    refine List.pairwise_cons.2 ⟨fun t ht hread => ?_, ih _⟩
    cases read_case c cs with
    | quoted hquote heq =>
      rw [heq] at ht hread
      cases hquoted : (quotedTail c cs).2 with
      | endOfText =>
        rw [List.drop_succ_cons, quotedTail_endOfText hquoted, List.drop_length] at ht
        cases ht
      | _ => simp [hquoted] at hread
    | comment _ _ _ _ _ heq => simp [heq] at hread
    | word _ _ _ _ _ heq => simp [heq] at hread
    | mark _ _ _ heq => simp [heq] at hread

theorem isIdentChar_of_mem_word {pos : Nat} {cs : List Char} {t : Token} {name : List Char}
    {next : Option Char} (h : t ∈ tokensFrom pos 0 cs) (hword : t.lexeme = .word name next) :
    ∀ c ∈ name, Text.isIdentChar c = true := by
  induction cs using read_induction generalizing pos with
  | nil => cases h
  | cons c cs ih =>
    rw [tokensFrom_cons] at h
    rcases List.mem_cons.1 h with rfl | h
    · cases read_case c cs with
      | comment _ _ _ _ _ heq => rw [heq] at hword; cases hword
      | quoted _ heq => rw [heq] at hword; cases hword
      | word _ _ _ hname _ heq =>
        rw [heq] at hword
        cases hword
        exact hname
      | mark _ _ _ heq => rw [heq] at hword; cases hword
    · exact ih h

end BurnLens.Lexeme
