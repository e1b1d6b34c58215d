import BurnLens.Proofs.Check.Declaration
import BurnLens.Proofs.Symbol.Agreement
import BurnLens.Proofs.Symbol.Parts
import BurnLens.Proofs.Text.Occurs
import BurnLens.Proofs.Text.Position

/-!
# Variables that start with a literal

The type of a literal is told by its shape (`Literal.inferType_render`). What is looked at is not
the literal, though, but the value that the search for variables has cut out of the line, and that
ends in front of the first comma or semicolon, also in a string literal. So a literal without either
is recorded with its type, and the others are not: only a part of the literal is left, without the
quote at its end, and the search goes on inside the literal (`extract_literal_iff`).
-/

namespace BurnLens.Source

open Text

/-! ### Literals -/

/-- Decimal digits of any script. -/
structure Numeral where
  chars : List Char
  ne_nil : chars ≠ []
  digit : ∀ c ∈ chars, isDigit c = true

/-- A text between two quotes of one kind, without quotes, backslashes and newlines. -/
structure Quotation where
  quote : Char
  body : List Char
  isQuote : Pattern.isQuote quote = true
  plain : ∀ c ∈ body, Pattern.isQuote c = false ∧ c ≠ '\\' ∧ c ≠ '\n'

inductive Literal where
  | boolean (value : Bool)
  | nil
  | integer (negative : Bool) (digits : Numeral)
  | decimal (negative : Bool) (whole fraction : Numeral)
  | quoted (q : Quotation)

namespace Literal

def render : Literal → List Char
  | .boolean value => (toString value).toList
  | .nil => "nil".toList
  | .integer negative digits => signed negative digits.chars
  | .decimal negative whole fraction => signed negative (whole.chars ++ '.' :: fraction.chars)
  | .quoted q => q.quote :: (q.body ++ [q.quote])

/-- The type that a literal tells. -/
def type : Literal → String
  | .boolean _ => "bool"
  | .nil => "nil"
  | .integer _ _ => "int"
  | .decimal _ _ _ => "float"
  | .quoted _ => "string"

end Literal

/-! ### The type of a literal -/

/-- The characters of numbers. -/
def isNumberChar (c : Char) : Bool :=
  isDigit c || c == '-' || c == '.'

section
variable {c : Char} {cs : List Char}

theorem isBlank_of_isNumberChar (h : isNumberChar c = true) : isBlank c = false := by
  simp only [isNumberChar, Bool.or_eq_true, beq_iff_eq] at h
  rcases h with (h | rfl) | rfl
  · exact isBlank_of_isDigit h
  · rfl
  · rfl

theorem isQuote_of_isNumberChar (h : isNumberChar c = true) : Pattern.isQuote c = false := by
  refine Bool.eq_false_iff.2 fun hquote => ?_
  rcases Pattern.isQuote_iff.1 hquote with rfl | rfl <;> exact absurd h (by decide)

theorem endsValue_of_isNumberChar (h : isNumberChar c = true) : Pattern.endsValue c = false := by
  refine Bool.eq_false_iff.2 fun hends => ?_
  simp only [Pattern.endsValue, Bool.or_eq_true, beq_iff_eq] at hends
  rcases hends with (rfl | rfl) | rfl <;> exact absurd h (by decide)

theorem inferType_number (hne : cs ≠ []) (hcs : ∀ c ∈ cs, isNumberChar c = true)
    (lookup : FunctionLookup) :
    Symbol.inferType lookup cs =
      if Symbol.isInteger cs then "int"
      else if Symbol.isDecimal cs then "float"
      else Symbol.calledType lookup cs := by
  obtain ⟨c, cs, rfl⟩ := List.exists_cons_of_ne_nil hne
  have hc := hcs c List.mem_cons_self
  have hword : c ∉ "truefalsenil".toList := by
    have hletters : ("truefalsenil".toList.all fun c => !isNumberChar c) = true := by
      decide +kernel
    intro hmem
    have hnot := List.all_eq_true.1 hletters c hmem
    rw [hc] at hnot
    cases hnot
  have hlast : (c :: cs).getLast?.any isBlank = false := by
    rw [List.getLast?_eq_getLast_of_ne_nil hne]
    exact isBlank_of_isNumberChar (hcs _ (List.getLast_mem hne))
  have htrim : Text.trim (c :: cs) = c :: cs := trim_of_ends (isBlank_of_isNumberChar hc) hlast
  have hquoted : Symbol.isQuoted (c :: cs) = false := by
    simp [Symbol.isQuoted, isQuote_of_isNumberChar hc]
  exact inferType_eq htrim hquoted List.mem_cons_self hword lookup

end

namespace Quotation
variable (q : Quotation)

theorem isBlank_quote : isBlank q.quote = false := by
  rcases Pattern.isQuote_iff.1 q.isQuote with h | h <;> rw [h] <;> rfl

theorem isNumberChar_quote : isNumberChar q.quote = false := by
  refine Bool.eq_false_iff.2 fun h => ?_
  have hquote := q.isQuote
  rw [isQuote_of_isNumberChar h] at hquote
  cases hquote

/-- None of the words starts with a quote. -/
theorem ne_word (cs : List Char) : ∀ w ∈ ["true", "false", "nil"].map String.toList,
    q.quote :: cs ≠ w := by
  intro w hw heq
  have hhead : ∀ w ∈ ["true", "false", "nil"].map String.toList,
      w.head?.any Pattern.isQuote = false := by decide
  have hnot := hhead w hw
  rw [← heq] at hnot
  simp [q.isQuote] at hnot

end Quotation

namespace Literal

theorem render_ne_nil (v : Literal) : v.render ≠ [] := by
  cases v with
  | boolean value => cases value <;> decide
  | nil => decide
  | integer negative digits => cases negative <;> simp [render, signed, digits.ne_nil]
  | decimal negative whole fraction => cases negative <;> simp [render, signed]
  | quoted q => exact List.cons_ne_nil _ _

/-- Numbers are made of their characters. -/
theorem isNumberChar_of_mem {v : Literal} (hv : v.type = "int" ∨ v.type = "float") {c : Char}
    (h : c ∈ v.render) : isNumberChar c = true := by
  have hdigit : ∀ {n : Numeral} {d}, d ∈ n.chars → isNumberChar d = true := by
    intro n d hd
    simp [isNumberChar, n.digit d hd]
  cases v with
  | integer negative digits =>
    rcases mem_signed h with rfl | h
    · rfl
    · exact hdigit h
  | decimal negative whole fraction =>
    rcases mem_signed h with rfl | h
    · rfl
    · rcases List.mem_append.1 h with h | h
      · exact hdigit h
      · rcases List.mem_cons.1 h with rfl | h
        · rfl
        · exact hdigit h
  | _ => simp [type] at hv

/-- The shape of a literal tells its type. -/
theorem inferType_render (v : Literal) (lookup : FunctionLookup) :
    Symbol.inferType lookup v.render = v.type := by
  cases v with
  | boolean value => cases value <;> rfl
  | nil => rfl
  | integer negative digits =>
    rw [inferType_number (render_ne_nil _) fun c => isNumberChar_of_mem (.inl rfl), render,
      if_pos (isInteger_signed negative digits.ne_nil digits.digit)]
    rfl
  | decimal negative whole fraction =>
    rw [inferType_number (render_ne_nil _) fun c => isNumberChar_of_mem (.inr rfl), render,
      isInteger_decimal negative whole.ne_nil whole.digit, if_neg Bool.false_ne_true,
      if_pos (isDecimal_signed negative whole.ne_nil whole.digit fraction.ne_nil fraction.digit)]
    rfl
  | quoted q =>
    have hlast : (q.quote :: (q.body ++ [q.quote])).getLast? = some q.quote := by
      rw [← List.cons_append, List.getLast?_concat]
    have htrim : Text.trim (q.quote :: (q.body ++ [q.quote])) = q.quote :: (q.body ++ [q.quote]) :=
      trim_of_ends q.isBlank_quote (by rw [hlast]; exact q.isBlank_quote)
    have hquoted : Symbol.isQuoted (q.quote :: (q.body ++ [q.quote])) = true := by
      simp [Symbol.isQuoted, hlast, q.isQuote]
    have htrue := decide_eq_false (q.ne_word (q.body ++ [q.quote]) "true".toList (by decide))
    have hfalse := decide_eq_false (q.ne_word (q.body ++ [q.quote]) "false".toList (by decide))
    simp only [Symbol.inferType, render, htrim, hquoted, htrue, hfalse, Bool.or_self,
      Bool.false_eq_true, ↓reduceIte]
    rfl

/-- No literal starts with white space. -/
theorem head_render (v : Literal) : v.render.head?.any isBlank = false := by
  have hnumber : (v.type = "int" ∨ v.type = "float") → v.render.head?.any isBlank = false := by
    intro htype
    obtain ⟨c, cs, hv⟩ := List.exists_cons_of_ne_nil v.render_ne_nil
    have hc := isNumberChar_of_mem htype (hv ▸ List.mem_cons_self)
    rw [hv]
    exact isBlank_of_isNumberChar hc
  cases v with
  | boolean value => cases value <;> rfl
  | nil => rfl
  | integer negative digits => exact hnumber (.inl rfl)
  | decimal negative whole fraction => exact hnumber (.inr rfl)
  | quoted q => exact q.isBlank_quote

end Literal

/-! ### What is cut out of a line -/

/-- A declaration up to its value. -/
def Declarator.front (e : Declarator) : List Char :=
  e.render ++ [' ', '=', ' ']

/-- The value ends in front of the first comma, semicolon or newline, and that is taken along. -/
theorem Declarator.initialisedVariable_front (e : Declarator) {a rest : List Char} (hne : a ≠ [])
    (hhead : a.head?.any isBlank = false) (ha : ∀ c ∈ a, Pattern.endsValue c = false)
    (hrest : ∀ c ∈ rest.head?, Pattern.endsValue c = true) :
    Pattern.initialisedVariable (e.front ++ (a ++ rest)) =
      some (⟨e.isConst, e.name.chars, [], a, (e.front ++ a).length⟩, rest.tail) := by
  obtain ⟨c, r, rfl⟩ := List.exists_cons_of_ne_nil hne
  have hsplit :
      e.front ++ (c :: r ++ rest) = e.render ++ ' ' :: '=' :: ' ' :: c :: (r ++ rest) := by
    simp [front]
  have hdeclarator : Pattern.declarator (e.render ++ ' ' :: '=' :: ' ' :: c :: (r ++ rest)) =
      some (e.read, ' ' :: '=' :: ' ' :: c :: (r ++ rest)) :=
    declarator_render (apart_cons.2 rfl)
  have htyped : typed (' ' :: '=' :: ' ' :: c :: (r ++ rest)) = none := rfl
  have hequals : literal ['='] (Text.blanks (' ' :: '=' :: ' ' :: c :: (r ++ rest))) =
      some (' ' :: c :: (r ++ rest)) := rfl
  have hvalue :
      Pattern.initialiser (' ' :: c :: (r ++ rest)) = some (c :: r, c :: (r ++ rest)) := by
    have hblanks : Text.blanks (' ' :: c :: (r ++ rest)) = c :: (r ++ rest) :=
      blanks_cons_of_not (by simpa using hhead) _
    have hrun : (r ++ rest).takeWhile (fun d => !Pattern.endsValue d) = r :=
      congrArg Prod.fst (run_exact (p := fun d => !Pattern.endsValue d)
        (fun d hd => by simp [ha d (.tail c hd)]) (fun d hd => by simp [hrest d hd]))
    simp only [Pattern.initialiser, hblanks, hrun]
  have hlength :
      (e.front ++ (c :: r ++ rest)).length - rest.length = (e.front ++ c :: r).length := by
    rw [← List.append_assoc, List.length_append, Nat.add_sub_cancel]
  have hdrop : (c :: (r ++ rest)).drop (c :: r).length = rest := List.drop_left
  rw [hsplit] at hlength ⊢
  simp only [Pattern.initialisedVariable, hdeclarator, htyped, hequals, hvalue, hdrop, hlength,
    Option.getD_none, Option.bind_eq_bind, Option.bind_some, Option.pure_def, Declarator.read]
  cases rest with
  | nil => rfl
  | cons d rest => simp [hrest d rfl]

/-- The value up to its end is found, and the search goes on behind the end. -/
theorem Declarator.hits_front (e : Declarator) {a rest : List Char} (hne : a ≠ [])
    (hhead : a.head?.any isBlank = false) (ha : ∀ c ∈ a, Pattern.endsValue c = false)
    (hrest : ∀ c ∈ rest.head?, Pattern.endsValue c = true) :
    hits (anywhere Pattern.initialisedVariable) (e.front ++ (a ++ rest)) =
      ⟨0, (e.front ++ (a ++ rest.take 1)).length,
        ⟨e.isConst, e.name.chars, [], a, (e.front ++ a).length⟩⟩ ::
        search Pattern.initialisedVariable (e.front ++ (a ++ rest.take 1)).length rest.tail := by
  have hread := e.initialisedVariable_front hne hhead ha hrest
  have hsplit : e.front ++ (a ++ rest) = (e.front ++ (a ++ rest.take 1)) ++ rest.tail := by
    rw [List.append_assoc, List.append_assoc, ← List.drop_one, List.take_append_drop]
  have hpiece : e.front ++ (a ++ rest.take 1) ≠ [] := by
    simp [front]
  rw [hsplit] at hread ⊢
  rw [hits_anywhere, search_append_some hpiece hread, Nat.zero_add]

/-! ### What is recorded -/

theorem Literal.quoted_of_endsValue {v : Literal} {c : Char} (h : c ∈ v.render)
    (hends : Pattern.endsValue c = true) : ∃ q, v = .quoted q := by
  have hnumber : ¬ (v.type = "int" ∨ v.type = "float") := fun htype => by
    rw [endsValue_of_isNumberChar (isNumberChar_of_mem htype h)] at hends
    cases hends
  have hword : v.render.any Pattern.endsValue = true := List.any_eq_true.2 ⟨c, h, hends⟩
  cases v with
  | boolean value => cases value <;> cases hword
  | nil => cases hword
  | integer negative digits => exact absurd (.inl rfl) hnumber
  | decimal negative whole fraction => exact absurd (.inr rfl) hnumber
  | quoted q => exact ⟨q, rfl⟩

/-- A quote and what is left of a literal behind it is no literal. -/
theorem Quotation.inferType_open (q : Quotation) {a : List Char}
    (ha : ∀ c ∈ a, Pattern.isQuote c = false) (lookup : FunctionLookup) :
    Symbol.inferType lookup (q.quote :: a) =
      Symbol.calledType lookup (Text.trim (q.quote :: a)) := by
  obtain ⟨b, hb, hplain⟩ : ∃ b, Text.trim (q.quote :: a) = q.quote :: b ∧
      ∀ c ∈ b, Pattern.isQuote c = false := by
    have hprefix : Text.trim (q.quote :: a) <+: q.quote :: a := by
      have hhead : (q.quote :: a).head?.any isBlank = false := q.isBlank_quote
      rw [Text.trim, trimLeft_of_head hhead]
      exact trimRight_prefix _
    cases htrim : Text.trim (q.quote :: a) with
    | nil =>
      have hblank := isEmpty_trim.1 (List.isEmpty_iff.2 htrim) q.quote List.mem_cons_self
      rw [q.isBlank_quote] at hblank
      cases hblank
    | cons c b =>
      rw [htrim] at hprefix
      obtain ⟨rfl, hb⟩ := List.cons_prefix_cons.1 hprefix
      exact ⟨b, rfl, fun c hc => ha c (hb.subset hc)⟩
  have hquoted : Symbol.isQuoted (q.quote :: b) = false := by
    cases b with
    | nil => rfl
    | cons c b =>
      have hlast : (c :: b).getLast? ≠ some q.quote := by
        intro hlast
        have hnot := hplain q.quote (List.mem_of_getLast? hlast)
        rw [q.isQuote] at hnot
        cases hnot
      simp [Symbol.isQuoted, hlast]
  have hnot := q.isNumberChar_quote
  simp only [isNumberChar, Bool.or_eq_false_iff, beq_eq_false_iff_ne] at hnot
  have hunsigned : Symbol.unsigned (q.quote :: b) = q.quote :: b := unsigned_of_ne hnot.1.2 b
  have hinteger : Symbol.isInteger (q.quote :: b) = false := by
    simp [Symbol.isInteger, hunsigned, hnot.1.1]
  have hdecimal : Symbol.isDecimal (q.quote :: b) = false := by
    simp [Symbol.isDecimal, hunsigned, run1, hnot.1.1]
  have hword := q.ne_word b
  simp only [List.map_cons, List.map_nil, List.forall_mem_cons] at hword
  obtain ⟨htrue, hfalse, hnil, -⟩ := hword
  simp only [Symbol.inferType, hb, hquoted, hinteger, hdecimal, decide_eq_false htrue,
    decide_eq_false hfalse, hnil, Bool.or_self, Bool.false_eq_true, ↓reduceIte]

theorem vars_extract (text uri : String) (lookup : FunctionLookup) :
    (extract text uri lookup).table.vars = Symbol.byName Variable.name
      ((hits (anywhere Pattern.initialisedVariable) text.toList).map
        (Symbol.variableOf ⟨uri, 0, text⟩
          (Symbol.ownFirst (extract text uri lookup).table.functions lookup))) :=
  rfl

/-- The variables of a line whose value starts with `a`. -/
theorem Declarator.vars_front (e : Declarator) {a rest : List Char} (hne : a ≠ [])
    (hhead : a.head?.any isBlank = false) (ha : ∀ c ∈ a, Pattern.endsValue c = false)
    (hrest : ∀ c ∈ rest.head?, Pattern.endsValue c = true) (uri : String)
    (lookup : FunctionLookup) :
    let d : Document := ⟨uri, 0, String.ofList (e.front ++ (a ++ rest))⟩
    let t := (extract d.text uri lookup).table
    let called := Symbol.ownFirst t.functions lookup
    t.vars = Symbol.byName Variable.name
      (⟨e.name.text, Symbol.inferType called a, d.rangeOf 0 (e.front ++ a).length, e.isConst⟩ ::
        (search Pattern.initialisedVariable (e.front ++ (a ++ rest.take 1)).length rest.tail).map
          (Symbol.variableOf d called)) := by
  intro d t called
  have hhits := (congrArg (hits (anywhere Pattern.initialisedVariable)) String.toList_ofList).trans
    (e.hits_front hne hhead ha hrest)
  have hfirst : ∀ stop length : Nat,
      Symbol.variableOf d called ⟨0, stop, ⟨e.isConst, e.name.chars, [], a, length⟩⟩ =
        ⟨e.name.text, Symbol.inferType called a, d.rangeOf 0 length, e.isConst⟩ := by
    intro stop length
    simp [Symbol.variableOf, Identifier.text]
  rw [vars_extract, hhits, List.map_cons, hfirst]

namespace Literal

/-- What stands in a literal in front of the first end of a value is no literal. -/
theorem inferType_part {v : Literal} {a b : List Char} {sep : Char} (hv : v.render = a ++ sep :: b)
    (ha : ∀ c ∈ a, Pattern.endsValue c = false) (hsep : Pattern.endsValue sep = true)
    (lookup : FunctionLookup) :
    a ≠ [] ∧ a.head?.any isBlank = false ∧
      Symbol.inferType lookup a = Symbol.calledType lookup (Text.trim a) := by
  obtain ⟨q, rfl⟩ := quoted_of_endsValue (hv ▸ List.mem_append_cons_self) hsep
  have hquote : Pattern.endsValue q.quote = false := by
    rcases Pattern.isQuote_iff.1 q.isQuote with h | h <;> rw [h] <;> rfl
  cases a with
  | nil =>
    rw [(List.cons.inj hv).1, hsep] at hquote
    cases hquote
  | cons c a =>
    obtain ⟨hc, htail⟩ := List.cons.inj hv
    obtain rfl : q.quote = c := hc
    -- The quote at the end ends no value, so it stands behind the separator.
    obtain ⟨s, hs⟩ := exists_append_of_not_mem
      (by simpa using fun h : sep = q.quote => by rw [h, hquote] at hsep; cases hsep) htail
    have hbody : q.body = a ++ sep :: s := by
      refine (List.append_left_inj [q.quote]).1 ?_
      rw [htail, hs]
      simp
    refine ⟨List.cons_ne_nil _ _, q.isBlank_quote, q.inferType_open (fun d hd => ?_) lookup⟩
    exact (q.plain d (by simp [hbody, hd])).1

end Literal

/-- The variables of a line with a literal that is cut at `sep`. -/
theorem Declarator.vars_part (e : Declarator) {v : Literal} {a b : List Char} {sep : Char}
    (hv : v.render = a ++ sep :: b) (ha : ∀ c ∈ a, Pattern.endsValue c = false)
    (hsep : Pattern.endsValue sep = true) (uri : String) (lookup : FunctionLookup) :
    let d : Document := ⟨uri, 0, String.ofList (e.front ++ v.render)⟩
    let t := (extract d.text uri lookup).table
    let called := Symbol.ownFirst t.functions lookup
    t.vars = Symbol.byName Variable.name
      (⟨e.name.text, Symbol.calledType called (Text.trim a),
          d.rangeOf 0 (e.front ++ a).length, e.isConst⟩ ::
        (search Pattern.initialisedVariable (e.front ++ (a ++ [sep])).length b).map
          (Symbol.variableOf d called)) := by
  intro d t called
  obtain ⟨hne, hhead, htype⟩ := Literal.inferType_part hv ha hsep called
  have hends : ∀ c ∈ (sep :: b).head?, Pattern.endsValue c = true := by simpa using hsep
  have hvars := e.vars_front hne hhead ha hends uri lookup
  rw [← hv] at hvars
  rw [← htype]
  exact hvars

/-- A literal is recorded as it was written iff nothing in it ends a value. Otherwise the part in
front of that is recorded, with the type of a call that it may hold, and the search goes on
behind. -/
theorem extract_literal_iff (e : Declarator) (v : Literal) (uri : String)
    (lookup : FunctionLookup) :
    let d : Document := ⟨uri, 0, String.ofList (e.front ++ v.render)⟩
    let t := (extract d.text uri lookup).table
    (t.vars = ⟨[(e.name.text, ⟨e.name.text, v.type, d.rangeOf 0 d.chars.length, e.isConst⟩)]⟩ ↔
      ∀ c ∈ v.render, Pattern.endsValue c = false) ∧
    ∀ a sep b, v.render = a ++ sep :: b → (∀ c ∈ a, Pattern.endsValue c = false) →
      Pattern.endsValue sep = true →
      let called := Symbol.ownFirst t.functions lookup
      t.vars = Symbol.byName Variable.name
        (⟨e.name.text, Symbol.calledType called (Text.trim a),
            d.rangeOf 0 (e.front ++ a).length, e.isConst⟩ ::
          (search Pattern.initialisedVariable (e.front ++ (a ++ [sep])).length b).map
            (Symbol.variableOf d called)) := by
  intro d t
  have hchars : d.chars = e.front ++ v.render := String.toList_ofList
  refine ⟨⟨fun hvars => ?_, fun hends => ?_⟩,
    fun a sep b hv ha hsep => e.vars_part hv ha hsep uri lookup⟩
  · by_contra hends
    obtain ⟨sep, hfind⟩ : ∃ sep, v.render.find? Pattern.endsValue = some sep := by
      rw [← Option.isSome_iff_exists, List.find?_isSome]
      simpa using hends
    obtain ⟨hsep, a, b, hv, ha⟩ := List.find?_eq_some_iff_append.1 hfind
    have hget : t.vars.get? e.name.text = some
        ⟨e.name.text, v.type, d.rangeOf 0 d.chars.length, e.isConst⟩ := by
      rw [hvars]
      simp [OrderedMap.get?, OrderedMap.lookup]
    have hlength : d.chars.length = (e.front ++ a).length + (1 + b.length) := by
      rw [hchars, hv]
      simp only [List.length_append, List.length_cons]
      omega
    -- No variable that is recorded starts and ends with the text.
    rw [e.vars_part hv (fun c hc => by simpa using ha c hc) hsep uri lookup] at hget
    rcases List.mem_cons.1 (Symbol.mem_of_get?_byName hget) with hfirst | hlater
    · have hstop : d.positionAt d.chars.length = d.positionAt (e.front ++ a).length :=
        congrArg (fun x : Variable => x.range.stop) hfirst
      have heq := Document.eq_of_positionAt_eq (Nat.le_refl _) (by omega) hstop
      omega
    · obtain ⟨h, hmem, heq⟩ := List.mem_map.1 hlater
      have hle := le_start_of_mem_search hmem
      have hstart : d.positionAt h.start = d.positionAt 0 :=
        congrArg (fun x : Variable => x.range.start) heq
      have hclamp := Document.clamp_eq_of_positionAt_eq hstart
      simp only [Document.clamp, Int.toNat_natCast, Int.toNat_zero, Nat.zero_min] at hclamp
      simp only [List.length_append, List.length_cons] at hle
      omega
  · have hnone : ∀ c ∈ ([] : List Char).head?, Pattern.endsValue c = true := by simp
    have hvars := e.vars_front v.render_ne_nil v.head_render hends hnone uri lookup
    rw [List.append_nil] at hvars
    simp only [List.take_nil, List.tail_nil, search_nil, List.map_nil,
      Literal.inferType_render] at hvars
    rw [hchars]
    exact hvars

/-- A comma in a string literal cuts the literal, and what is left of it has no type. -/
theorem literal_cut :
    let t := (extract "var x = \"a, b\"" "file:///main.bn" fun _ => none).table
    t.vars.entries.map (fun e => (e.1, e.2.type)) = [("x", "")] := by
  decide +kernel

end BurnLens.Source
