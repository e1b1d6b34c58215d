import BurnLens.Proofs.Lexeme.Code
import BurnLens.Proofs.Symbol.Block
import BurnLens.Proofs.Symbol.Found

/-!
# The parts of a declaration

Fields and parameters, the end of a class, the type of a value: what is read in a declaration once
it has been found.
-/

namespace BurnLens.Source

open Text

/-! ### Fields and parameters -/

section
variable {lead tail : List Char} (hlead : ∀ c ∈ lead, c = ' ') (htail : ∀ c ∈ tail, c = ' ')

theorem dropWhile_blank {x rest : List Char} (hx : ∀ c ∈ x, c = ' ')
    (hrest : ∀ c ∈ rest.head?, isBlank c = false) : (x ++ rest).dropWhile isBlank = rest := by
  have hblank : ∀ c ∈ x, isBlank c = true := fun c hc => by rw [hx c hc]; rfl
  exact congrArg Prod.snd (run_exact hblank hrest)

include hlead htail

/-- White space around a text that has none at its ends. -/
theorem trim_append {x : List Char} (hhead : ∀ c ∈ (x ++ tail).head?, isBlank c = false)
    (hlast : ∀ c ∈ x.reverse.head?, isBlank c = false) : trim (lead ++ (x ++ tail)) = x := by
  have hrev : ∀ c ∈ tail.reverse, c = ' ' := fun c hc => htail c (List.mem_reverse.1 hc)
  rw [trim, trimLeft, dropWhile_blank hlead hhead, trimRight, List.reverse_append,
    dropWhile_blank hrev hlast, List.reverse_reverse]

theorem Identifier.trim (n : Identifier) : Text.trim (lead ++ (n.chars ++ tail)) = n.chars := by
  refine trim_append hlead htail ?_ ?_
  · obtain ⟨c, cs, h, -, hc⟩ := n.exists_cons
    simp [h, hc]
  · intro c hc
    exact isBlank_of_isIdentChar (n.ident c (List.mem_reverse.1 (List.mem_of_mem_head? hc)))

theorem TypedName.pairOf? (p : TypedName) :
    Symbol.pairOf? (lead ++ (p.render ++ tail)) = some (p.name.chars, p.type.chars) := by
  have hcolon : ∀ x : List Char, (∀ c ∈ x, c = ' ') → ':' ∉ x := fun x h hmem => by cases h _ hmem
  have hident : ∀ n : Identifier, ':' ∉ n.chars := fun n hmem => by cases n.ident _ hmem
  have hname : Text.trim (lead ++ (p.name.chars ++ [])) = p.name.chars :=
    p.name.trim hlead (by simp)
  have htype : Text.trim ([' '] ++ (p.type.chars ++ tail)) = p.type.chars :=
    p.type.trim (by simp) htail
  have hsplit : splitOn ':' (lead ++ (p.render ++ tail)) =
      [lead ++ p.name.chars, [' '] ++ (p.type.chars ++ tail)] := by
    have hleft : ':' ∉ lead ++ p.name.chars := by
      simp [hcolon lead hlead, hident p.name]
    have hright : ':' ∉ [' '] ++ (p.type.chars ++ tail) := by
      simp [hcolon tail htail, hident p.type.toIdentifier]
    have hrender : lead ++ (p.render ++ tail) =
        (lead ++ p.name.chars) ++ ':' :: ([' '] ++ (p.type.chars ++ tail)) := by
      simp [TypedName.render]
    rw [hrender, splitOn_append_cons hleft, splitOn_of_not_mem hright]
  have hne : ∀ n : Identifier, n.chars.isEmpty = false := by
    intro n
    obtain ⟨c, cs, h, -⟩ := n.exists_cons
    rw [h]
    rfl
  rw [List.append_nil] at hname
  simp only [Symbol.pairOf?, hsplit, hname, htype, hne, Bool.or_self, Bool.false_eq_true,
    ↓reduceIte]

theorem TypedName.trim (p : TypedName) : Text.trim (lead ++ (p.render ++ tail)) = p.render := by
  refine trim_append hlead htail ?_ ?_
  · obtain ⟨c, cs, h, -, hc⟩ := p.name.exists_cons
    simp [TypedName.render, h, hc]
  · obtain ⟨c, cs, h, -, -⟩ := p.type.exists_cons
    have hlast : p.render.reverse =
        p.type.chars.reverse ++ (' ' :: ':' :: p.name.chars.reverse) := by
      simp [TypedName.render]
    intro d hd
    rw [hlast, List.head?_append_of_ne_nil _ (by simp [h])] at hd
    exact isBlank_of_isIdentChar (p.type.ident d (List.mem_reverse.1 (List.mem_of_mem_head? hd)))

theorem TypedName.entryOf? (p : TypedName) (start stop : Nat) :
    Symbol.entryOf? ⟨start, stop, lead ++ (p.render ++ tail)⟩ =
      some (.pair p.name.chars p.type.chars) := by
  have hne : p.render.isEmpty = false := by
    obtain ⟨c, cs, h, -⟩ := p.name.exists_cons
    simp [TypedName.render]
  simp only [Symbol.entryOf?, p.trim hlead htail, hne, p.pairOf? hlead htail,
    Bool.false_eq_true, ↓reduceIte]

omit hlead htail in
theorem entryOf?_blank {x : List Char} (hx : ∀ c ∈ x, c = ' ') (start stop : Nat) :
    Symbol.entryOf? ⟨start, stop, x⟩ = none := by
  have hdrop : (x ++ []).dropWhile isBlank = [] := dropWhile_blank hx (by simp)
  rw [List.append_nil] at hdrop
  simp [Symbol.entryOf?, Text.trim, trimLeft, trimRight, hdrop]

omit hlead htail in
theorem TypedName.isEntryChar_of_mem {p : TypedName} {c : Char} (h : c ∈ p.render) :
    Symbol.isEntryChar c = true := by
  have hident : ∀ d, isIdentChar d = true → Symbol.isEntryChar d = true := by
    intro d hd
    simp only [Symbol.isEntryChar, Bool.and_eq_true, bne_iff_ne]
    constructor <;> rintro rfl <;> cases hd
  rcases List.mem_append.1 h with h | h
  · exact hident c (p.name.ident c h)
  · rcases List.mem_cons.1 h with rfl | h
    · rfl
    · rcases List.mem_cons.1 h with rfl | h
      · rfl
      · exact hident c (p.type.ident c h)

theorem isEntryChar_of_mem_piece {p : TypedName} {c : Char} (h : c ∈ lead ++ (p.render ++ tail)) :
    Symbol.isEntryChar c = true := by
  rcases List.mem_append.1 h with h | h
  · rw [hlead c h]
    rfl
  · rcases List.mem_append.1 h with h | h
    · exact p.isEntryChar_of_mem h
    · rw [htail c h]
      rfl

theorem search_piece (p : TypedName) {rest : List Char}
    (hrest : ∀ c ∈ rest.head?, Symbol.isEntryChar c = false) (pos : Nat) :
    ∃ stop, search (run1 Symbol.isEntryChar) pos ((lead ++ (p.render ++ tail)) ++ rest) =
      ⟨pos, stop, lead ++ (p.render ++ tail)⟩ :: search (run1 Symbol.isEntryChar) stop rest := by
  have hne : lead ++ (p.render ++ tail) ≠ [] := by
    simp [TypedName.render]
  have hmatch := run1_exact hne (fun c hc => isEntryChar_of_mem_piece hlead htail hc) hrest
  exact ⟨_, search_append_some hne hmatch pos⟩

/-- The pieces between the commas are the entries. -/
theorem entries_listed (ps : List TypedName) (pos : Nat) :
    (search (run1 Symbol.isEntryChar) pos (lead ++ (listed ps ++ tail))).filterMap
        Symbol.entryOf? = ps.map fun p => .pair p.name.chars p.type.chars := by
  have hend : ∀ c ∈ ([] : List Char).head?, Symbol.isEntryChar c = false := by simp
  fun_induction listed ps generalizing lead pos with
  | case1 =>
    have hblank : ∀ c ∈ lead ++ tail, c = ' ' := by
      intro c hc
      exact (List.mem_append.1 hc).elim (hlead c) (htail c)
    rw [List.nil_append]
    by_cases hne : lead ++ tail = []
    · rw [hne]
      rfl
    · have hmatch : run1 Symbol.isEntryChar (lead ++ tail ++ []) = some (lead ++ tail, []) :=
        run1_exact hne (fun c hc => by rw [hblank c hc]; rfl) hend
      have hfound := search_append_some hne hmatch pos
      rw [List.append_nil, search_nil] at hfound
      rw [hfound, List.filterMap_cons, entryOf?_blank hblank]
      rfl
  | case2 p =>
    obtain ⟨stop, hfound⟩ := search_piece hlead htail p hend pos
    rw [List.append_nil, search_nil] at hfound
    rw [hfound, List.filterMap_cons, p.entryOf? hlead htail]
    rfl
  | case3 p q ps ih =>
    have hcomma : run1 Symbol.isEntryChar (',' :: ' ' :: (listed (q :: ps) ++ tail)) = none := rfl
    have hstop : ∀ c ∈ (',' :: ' ' :: (listed (q :: ps) ++ tail)).head?,
        Symbol.isEntryChar c = false := by simp [Symbol.isEntryChar]
    have hnil : ∀ c ∈ ([] : List Char), c = ' ' := by simp
    have hspace : ∀ c ∈ [' '], c = ' ' := by simp
    obtain ⟨stop, hfound⟩ := search_piece hlead hnil p hstop pos
    have hentries := ih hspace (stop + 1)
    have hsplit : lead ++ (p.render ++ ',' :: ' ' :: listed (q :: ps) ++ tail) =
        lead ++ (p.render ++ []) ++ ',' :: ' ' :: (listed (q :: ps) ++ tail) := by simp
    rw [hsplit, hfound, search_cons_none hcomma, List.filterMap_cons,
      p.entryOf? hlead hnil]
    exact congrArg _ hentries

end

section
variable {cs : List Char} {ps : List TypedName}
  (h : Symbol.listEntries cs = ps.map fun p => .pair p.name.chars p.type.chars)
include h

theorem pairs_of_listEntries : Symbol.pairs cs = ps.map fun p => (p.name.text, p.type.text) := by
  rw [Symbol.pairs, h, List.filterMap_map]
  exact List.filterMap_eq_map ▸ rfl

theorem malformedEntries_of_listEntries (message code : String) (offset : Nat) :
    Symbol.malformedEntries message code offset cs = [] := by
  rw [Symbol.malformedEntries, h, List.filterMap_map]
  exact List.filterMap_eq_nil_iff.2 fun _ _ => rfl

end

theorem Record.listEntries (r : Record) :
    Symbol.listEntries r.body = r.fields.map fun p => .pair p.name.chars p.type.chars := by
  have hspace : ∀ c ∈ [' '], c = ' ' := by simp
  have hnil : ∀ c ∈ ([] : List Char), c = ' ' := by simp
  rw [Record.body]
  split
  next hempty =>
    rw [List.isEmpty_iff] at hempty
    rw [hempty]
    exact entries_listed hspace hnil [] 0
  next => exact entries_listed hspace hspace r.fields 0

theorem Function.listEntries (f : Function) :
    Symbol.listEntries (listed f.parameters) =
      f.parameters.map fun p => .pair p.name.chars p.type.chars := by
  have hnil : ∀ c ∈ ([] : List Char), c = ' ' := by simp
  have hentries := entries_listed hnil hnil f.parameters 0
  rw [List.nil_append, List.append_nil] at hentries
  exact hentries

/-! ### The end of a class -/

section
variable {a rest : List Char} (depth pos : Nat)

/-- Not a brace, and not the start of a literal or a comment. -/
def isPlain (c : Char) : Bool :=
  !(['{', '}', '"', '\'', '/'].contains c)

theorem closingBrace?_plain (ha : ∀ c ∈ a, isPlain c = true) (hrest : Apart rest) :
    Symbol.closingBrace? depth (Lexeme.tokensFrom pos 0 (a ++ rest)) =
      Symbol.closingBrace? depth (Lexeme.tokensFrom (pos + a.length) 0 rest) := by
  induction hn : a.length using Nat.strongRecOn generalizing a pos with
  | _ n ih =>
    subst hn
    cases a with
    | nil => rfl
    | cons c a =>
      have hc := ha c List.mem_cons_self
      rw [List.cons_append, Lexeme.tokensFrom_cons]
      cases Lexeme.read_case c (a ++ rest) with
      | comment body tail hcs _ _ _ =>
        obtain rfl : c = '/' := (List.cons.inj hcs).1
        cases hc
      | quoted hquote _ => rcases hquote with rfl | rfl <;> cases hc
      | word name tail hcs hname hne heq =>
        -- The word ends in the text, since what follows is apart.
        obtain ⟨u, hu, rfl⟩ : ∃ u, c :: a = name ++ u ∧ tail = u ++ rest := by
          rcases List.append_eq_append_iff.1 (List.cons_append ▸ hcs) with
            ⟨u, rfl, hu⟩ | ⟨u, hu, rfl⟩
          · cases u with
            | nil => exact ⟨[], by simp, by simpa using hu.symm⟩
            | cons d u =>
              rw [hu] at hrest
              simp [hname d (by simp)] at hrest
          · exact ⟨u, hu, rfl⟩
        have hlength : (c :: a).length = name.length + u.length := by rw [hu, List.length_append]
        have hpos := List.length_pos_iff.2 hne
        have hplain : ∀ d ∈ u, isPlain d = true :=
          fun d hd => ha d (hu ▸ List.mem_append_right _ hd)
        have hbehind := ih u.length (by omega) (pos + name.length) hplain rfl
        rw [heq, Symbol.closingBrace?_cons_of_ne (by simp) (by simp), hcs, List.drop_left' rfl,
          hbehind, hlength, Nat.add_assoc]
      | mark _ _ _ heq =>
        have hbrace : c ≠ '{' ∧ c ≠ '}' := by
          constructor <;> rintro rfl <;> cases hc
        have hbehind := ih a.length (by simp) (pos + 1) (fun d hd => ha d (.tail c hd)) rfl
        rw [heq, Symbol.closingBrace?_cons_of_ne (by simp [hbrace.1]) (by simp [hbrace.2]),
          List.drop_succ_cons, List.drop_zero, hbehind, List.length_cons, Nat.add_assoc,
          Nat.add_comm 1]

theorem closingBrace?_open :
    Symbol.closingBrace? depth (Lexeme.tokensFrom pos 0 ('{' :: rest)) =
      Symbol.closingBrace? (depth + 1) (Lexeme.tokensFrom (pos + 1) 0 rest) := by
  rw [Lexeme.tokensFrom_cons]
  cases depth <;> simp [Symbol.closingBrace?, Lexeme.read, isIdentStart]

theorem closingBrace?_inner :
    Symbol.closingBrace? (depth + 1) (Lexeme.tokensFrom pos 0 ('}' :: rest)) =
      Symbol.closingBrace? depth (Lexeme.tokensFrom (pos + 1) 0 rest) := by
  rw [Lexeme.tokensFrom_cons]
  simp [Symbol.closingBrace?, Lexeme.read, isIdentStart]

theorem closingBrace?_here :
    Symbol.closingBrace? 0 (Lexeme.tokensFrom pos 0 ('}' :: rest)) = some pos := by
  rw [Lexeme.tokensFrom_cons]
  simp [Symbol.closingBrace?, Lexeme.read, isIdentStart]

theorem closingBrace?_newline :
    Symbol.closingBrace? depth (Lexeme.tokensFrom pos 0 ('\n' :: rest)) =
      Symbol.closingBrace? depth (Lexeme.tokensFrom (pos + 1) 0 rest) := by
  rw [Lexeme.tokensFrom_cons, Symbol.closingBrace?_cons_of_ne] <;> simp [Lexeme.read, isIdentStart]

omit depth pos in
theorem isPlain_of_isListChar {c : Char} (h : isListChar c = true) : isPlain c = true := by
  refine Bool.of_not_eq_false fun hplain => ?_
  simp only [isPlain, Bool.not_eq_false', List.contains_iff_mem, List.mem_cons, List.not_mem_nil,
    or_false] at hplain
  rcases hplain with rfl | rfl | rfl | rfl | rfl <;> cases h

theorem Function.exists_plain (f : Function) :
    ∃ front, f.render = front ++ ['{', ' ', '}'] ∧ ∀ c ∈ front, isPlain c = true := by
  refine ⟨f.head ++ (listed f.parameters ++ ')' :: (ascribed f.result ++ [' '])), ?_, ?_⟩
  · simp [Function.render, Function.header]
  have hname : ∀ n : Identifier, ∀ c ∈ n.chars, isPlain c = true := fun n c hc =>
    isPlain_of_isListChar (isListChar_of_ident (n.ident c hc))
  have hlist : ∀ c ∈ listed f.parameters, isPlain c = true := fun c hc =>
    isPlain_of_isListChar (isListChar_of_mem_listed hc)
  have hresult : ∀ c ∈ ascribed f.result, isPlain c = true := by
    cases f.result with
    | none => simp [ascribed]
    | some type =>
      have htype := hname type.toIdentifier
      simpa [ascribed, isPlain] using htype
  have hfun : ∀ c ∈ "fun".toList, isPlain c = true := by simp [isPlain]
  simp only [Function.head, List.forall_mem_append, List.forall_mem_cons]
  exact ⟨⟨hfun, rfl, hname f.name.toIdentifier, rfl, by simp⟩, hlist, rfl, hresult, rfl, by simp⟩

/-- A function is passed, braces and all. -/
theorem Function.closingBrace? (f : Function) (rest : List Char) :
    Symbol.closingBrace? depth (Lexeme.tokensFrom pos 0 (f.render ++ rest)) =
      Symbol.closingBrace? depth (Lexeme.tokensFrom (pos + f.render.length) 0 rest) := by
  obtain ⟨front, hrender, hplain⟩ := f.exists_plain
  have hspace : ∀ c ∈ [' '], isPlain c = true := by simp [isPlain]
  have hopen : Apart ('{' :: ' ' :: '}' :: rest) := apart_cons.2 rfl
  have hclose : Apart ('}' :: rest) := apart_cons.2 rfl
  have hlength : pos + f.render.length = pos + front.length + 1 + [' '].length + 1 := by
    simp only [hrender, List.length_append, List.length_cons, List.length_nil]
    omega
  rw [hlength, hrender, List.append_assoc]
  calc Symbol.closingBrace? depth (Lexeme.tokensFrom pos 0 (front ++ '{' :: ' ' :: '}' :: rest))
      = Symbol.closingBrace? (depth + 1)
          (Lexeme.tokensFrom (pos + front.length + 1) 0 ([' '] ++ '}' :: rest)) := by
        rw [closingBrace?_plain depth pos hplain hopen, closingBrace?_open]
        rfl
    _ = Symbol.closingBrace? depth
          (Lexeme.tokensFrom (pos + front.length + 1 + [' '].length + 1) 0 rest) := by
        rw [closingBrace?_plain _ _ hspace hclose, closingBrace?_inner]

theorem closingBrace?_methods (fs : List Function) (rest : List Char) :
    Symbol.closingBrace? depth
        (Lexeme.tokensFrom pos 0 (joinWith '\n' (fs.map Function.render) ++ rest)) =
      Symbol.closingBrace? depth
        (Lexeme.tokensFrom (pos + (joinWith '\n' (fs.map Function.render)).length) 0 rest) := by
  induction fs generalizing pos with
  | nil => rfl
  | cons f fs ih =>
    cases fs with
    | nil => exact f.closingBrace? depth pos rest
    | cons g fs =>
      rw [joinWith_append, f.closingBrace?, closingBrace?_newline, ih, add_length_joinWith]

/-- A class ends at its own brace. -/
theorem Class.closingBrace? (c : Class) (rest : List Char) :
    Symbol.closingBrace? 0 (Lexeme.tokensFrom pos 0 (c.body ++ '}' :: rest)) =
      some (pos + c.body.length) := by
  rw [c.body_append, closingBrace?_newline, closingBrace?_methods, closingBrace?_newline,
    closingBrace?_here, c.add_length_body]

end

/-! ### The type of a value -/

/-- Below the other scripts, the digits are the ten of ASCII. -/
theorem isDigit_iff {c : Char} (h : c.toNat < 1632) :
    isDigit c = true ↔ 48 ≤ c.toNat ∧ c.toNat ≤ 57 := by
  have hzeros : ∀ z ∈ digitZeros, z = 48 ∨ 1632 ≤ z := by decide
  have hmem : 48 ∈ digitZeros := by decide
  simp only [isDigit, digitValue?, List.findSome?_isSome_iff, Option.isSome_ite, Bool.and_eq_true,
    decide_eq_true_eq]
  constructor
  · rintro ⟨z, hz, hvalue⟩
    have := hzeros z hz
    omega
  · intro hrange
    exact ⟨48, hmem, by omega⟩

theorem Digits.isDigit_of_mem {n : Digits} {c : Char} (h : c ∈ n.chars) : isDigit c = true := by
  have hrange : 48 ≤ c.toNat ∧ c.toNat ≤ 57 := Char.isDigit_iff_toNat.1 (n.digit c h)
  exact (isDigit_iff (by omega)).2 hrange

theorem isDigit_of_isIdentStart {c : Char} (h : isIdentStart c = true) : isDigit c = false := by
  have hrange := isIdentStart_range h
  refine Bool.eq_false_iff.2 fun hdigit => ?_
  have hnine := (isDigit_iff (by omega)).1 hdigit
  omega

theorem Value.trim (v : Value) : Text.trim v.render = v.render := by
  have hvalue : ∀ c ∈ v.render, isBlank c = false := fun c hc =>
    isBlank_of_isValueChar (v.isValueChar_of_mem hc)
  have hnil : ∀ c ∈ ([] : List Char), c = ' ' := by simp
  have htrim := trim_append hnil hnil (x := v.render)
    (fun c hc => hvalue c (by simpa using List.mem_of_mem_head? hc))
    (fun c hc => hvalue c (by simpa using List.mem_of_mem_head? hc))
  rwa [List.nil_append, List.append_nil] at htrim

theorem Value.isQuoted (v : Value) : Symbol.isQuoted v.render = false := by
  obtain ⟨c, cs, hv⟩ := v.exists_cons
  have hc : isValueChar c = true := v.isValueChar_of_mem (by simp [hv])
  have hquote : Pattern.isQuote c = false := by
    refine Bool.eq_false_iff.2 fun hquote => ?_
    rcases Pattern.isQuote_iff.1 hquote with rfl | rfl <;> cases hc
  simp [Symbol.isQuoted, hv, hquote]

theorem unsigned_of_ne {c : Char} (h : c ≠ '-') (cs : List Char) :
    Symbol.unsigned (c :: cs) = c :: cs := by
  unfold Symbol.unsigned
  split
  next heq => exact absurd (List.cons.inj heq).1 h
  next => rfl

section
variable (negative : Bool) {n m : List Char} (hne : n ≠ []) (hn : ∀ c ∈ n, isDigit c = true)
include hne hn

theorem unsigned_signed (cs : List Char) :
    Symbol.unsigned (signed negative (n ++ cs)) = n ++ cs := by
  cases negative with
  | true => rfl
  | false =>
    obtain ⟨c, n, rfl⟩ := List.exists_cons_of_ne_nil hne
    have hminus : c ≠ '-' := by
      rintro rfl
      exact absurd (hn '-' List.mem_cons_self) (by decide)
    rw [signed, if_neg Bool.false_ne_true, List.cons_append, unsigned_of_ne hminus]

theorem isInteger_signed : Symbol.isInteger (signed negative n) = true := by
  have hunsigned := unsigned_signed negative hne hn []
  rw [List.append_nil] at hunsigned
  simpa [Symbol.isInteger, hunsigned, hne] using hn

theorem isInteger_decimal : Symbol.isInteger (signed negative (n ++ '.' :: m)) = false := by
  have hpoint : isDigit '.' = false := by decide
  simp [Symbol.isInteger, unsigned_signed negative hne hn, hpoint]

theorem isDecimal_signed (hm : m ≠ []) (hfraction : ∀ c ∈ m, isDigit c = true) :
    Symbol.isDecimal (signed negative (n ++ '.' :: m)) = true := by
  have hpoint : isDigit '.' = false := by decide
  have hwhole : run1 isDigit (n ++ '.' :: m) = some (n, '.' :: m) :=
    run1_exact hne hn (by simp [hpoint])
  simpa [Symbol.isDecimal, unsigned_signed negative hne hn, hwhole, hm] using hfraction

end

/-- A value that is none of the words and has no quotes is a number or a call. -/
theorem inferType_eq {cs : List Char} (htrim : Text.trim cs = cs)
    (hquoted : Symbol.isQuoted cs = false) {c : Char} (hc : c ∈ cs)
    (hword : c ∉ "truefalsenil".toList) (lookup : FunctionLookup) :
    Symbol.inferType lookup cs =
      if Symbol.isInteger cs then "int"
      else if Symbol.isDecimal cs then "float"
      else Symbol.calledType lookup cs := by
  have hne : ∀ w ∈ ["true", "false", "nil"].map String.toList, cs ≠ w := by
    intro w hw heq
    have hsub : ∀ w ∈ ["true", "false", "nil"].map String.toList, w ⊆ "truefalsenil".toList := by
      decide
    exact hword (hsub w hw (heq ▸ hc))
  have htrue := decide_eq_false (hne "true".toList (by decide))
  have hfalse := decide_eq_false (hne "false".toList (by decide))
  have hnil := hne "nil".toList (by decide)
  simp only [Symbol.inferType, htrim, hquoted, htrue, hfalse, hnil, Bool.or_self,
    Bool.false_eq_true, ↓reduceIte]

theorem calledType_call (callee : Name) (lookup : FunctionLookup) :
    Symbol.calledType lookup (callee.chars ++ ['(', ')']) =
      if callee.text = "input" then "string"
      else ((lookup callee.text).map (·.returnType)).getD "" := by
  have hname : Text.identifier (callee.chars ++ ['(', ')']) = some (callee.chars, ['(', ')']) :=
    callee.identifier (apart_cons.2 rfl)
  have hopen : literal ['('] (Text.blanks ['(', ')']) = some [')'] := rfl
  have hcall : Pattern.call ((callee.chars ++ ['(']) ++ [')']) = some (callee.chars, [')']) := by
    rw [List.append_assoc]
    simp only [Pattern.call, List.cons_append, List.nil_append, hname, hopen, Option.bind_eq_bind,
      Option.bind_some, Option.pure_def]
  have hfound := search_append_some (by simp) hcall 0
  rw [List.append_assoc] at hfound
  have hfirst : firstHit? (anywhere Pattern.call) (callee.chars ++ ['(', ')']) =
      some ⟨0, 0 + (callee.chars ++ ['(']).length, callee.chars⟩ := by
    rw [firstHit?, hits_anywhere]
    exact congrArg List.head? hfound
  simp only [Symbol.calledType, hfirst]
  rfl

theorem Value.inferType (v : Value) (fs : List (Nat × Function)) (lookup : FunctionLookup)
    (hlookup : ∀ name, (lookup name).map (·.returnType) =
      (fs.find? (·.2.name.text = name)).map fun f => optionalText f.2.result) :
    Symbol.inferType lookup v.render = v.type fs := by
  cases v with
  | boolean value => cases value <;> rfl
  | nil => rfl
  | integer negative digits =>
    obtain ⟨c, hc⟩ := List.exists_mem_of_ne_nil _ digits.ne_nil
    have hletter : ∀ c ∈ "truefalsenil".toList, c.isDigit = false := by simp
    have hword : c ∉ "truefalsenil".toList := fun hmem => by
      cases (digits.digit c hc).symm.trans (hletter c hmem)
    have hmem : c ∈ (Value.integer negative digits).render := by
      cases negative <;> simp [Value.render, signed, hc]
    rw [inferType_eq (Value.trim _) (Value.isQuoted _) hmem hword, Value.render,
      if_pos (isInteger_signed negative digits.ne_nil fun _ => digits.isDigit_of_mem)]
    rfl
  | decimal negative whole fraction =>
    have hmem : '.' ∈ (Value.decimal negative whole fraction).render := by
      cases negative <;> simp [Value.render, signed]
    have hwhole : ∀ c ∈ whole.chars, isDigit c = true := fun _ => whole.isDigit_of_mem
    rw [inferType_eq (Value.trim _) (Value.isQuoted _) hmem (by decide), Value.render,
      isInteger_decimal negative whole.ne_nil hwhole, if_neg Bool.false_ne_true,
      if_pos (isDecimal_signed negative whole.ne_nil hwhole fraction.ne_nil
        fun _ => fraction.isDigit_of_mem)]
    rfl
  | call callee =>
    have hmem : '(' ∈ (Value.call callee).render := by simp [Value.render]
    have hnumber : Symbol.isInteger (callee.chars ++ ['(', ')']) = false ∧
        Symbol.isDecimal (callee.chars ++ ['(', ')']) = false := by
      obtain ⟨c, cs, hchars, hstart, -⟩ := callee.exists_cons
      have hc := isDigit_of_isIdentStart hstart
      have hminus : c ≠ '-' := by
        rintro rfl
        cases hstart
      rw [hchars, List.cons_append, Symbol.isInteger, Symbol.isDecimal, unsigned_of_ne hminus]
      simp [run1, hc]
    rw [inferType_eq (Value.trim _) (Value.isQuoted _) hmem (by decide), Value.render,
      hnumber.1, hnumber.2, if_neg Bool.false_ne_true, if_neg Bool.false_ne_true, calledType_call,
      hlookup]
    rfl

end BurnLens.Source
