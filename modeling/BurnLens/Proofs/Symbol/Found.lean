import BurnLens.Proofs.Symbol.Silent
import BurnLens.Proofs.Text.Run

/-!
# What is found in a file

A recogniser reads a declaration of its own kind as it was written and stops where it ends. The
variable is the exception: it takes the newline behind its value along, so the search for variables
goes on at the start of the next line. What each of the five searches finds in a file is told
declaration by declaration (`map_search_file`); the functions of a class are found inside it.
-/

namespace BurnLens

namespace Source

open Text

/-! ### A declaration itself -/

section
variable {rest : List Char}

theorem Identifier.exists_cons (n : Identifier) :
    ∃ c cs, n.chars = c :: cs ∧ isIdentStart c = true ∧ isBlank c = false := by
  have hstart := n.start
  cases h : n.chars with
  | nil => simp [h] at hstart
  | cons c cs =>
    rw [h] at hstart
    have hc : isIdentStart c = true := by simpa using hstart
    exact ⟨c, cs, rfl, hc, isBlank_of_isIdentChar (isIdentChar_of_isIdentStart hc)⟩

theorem Identifier.identifier (n : Identifier) (hrest : Apart rest) :
    Text.identifier (n.chars ++ rest) = some (n.chars, rest) := by
  have hrun := run_exact n.ident hrest
  obtain ⟨c, cs, h, hc, -⟩ := n.exists_cons
  rw [h] at hrun ⊢
  rw [List.cons_append] at hrun ⊢
  rw [Text.identifier, if_pos hc, hrun]

theorem Identifier.blanks (n : Identifier) (rest : List Char) :
    Text.blanks (n.chars ++ rest) = n.chars ++ rest := by
  obtain ⟨c, cs, h, -, hc⟩ := n.exists_cons
  rw [h, List.cons_append, blanks_cons_of_not hc]

theorem typed_ascribed (type : Option Name) {c : Char} (hc : isBlank c = false) (hcolon : c ≠ ':')
    (rest : List Char) :
    (typed (ascribed type ++ ' ' :: c :: rest)).getD ([], ascribed type ++ ' ' :: c :: rest) =
      ((type.map (·.chars)).getD [], ' ' :: c :: rest) := by
  cases type with
  | none =>
    have hnone : literal [':'] (c :: rest) = none := by simp [literal, Ne.symm hcolon]
    simp [ascribed, typed, blanks_space, blanks_cons_of_not hc, hnone]
  | some type =>
    have hcolon : Text.blanks (':' :: ' ' :: (type.chars ++ ' ' :: c :: rest)) =
        ':' :: ' ' :: (type.chars ++ ' ' :: c :: rest) := rfl
    have hread : literal [':'] (':' :: ' ' :: (type.chars ++ ' ' :: c :: rest)) =
        some (' ' :: (type.chars ++ ' ' :: c :: rest)) := rfl
    have hname : Text.identifier (type.chars ++ ' ' :: c :: rest) =
        some (type.chars, ' ' :: c :: rest) := type.identifier (apart_cons.2 rfl)
    simp [ascribed, typed, hcolon, hread, blanks_space, type.blanks, hname]

/-- The characters of a list of fields or parameters. -/
def isListChar (c : Char) : Bool :=
  isIdentChar c || c == ':' || c == ' ' || c == ','

theorem isListChar_of_ident {c : Char} (h : isIdentChar c = true) : isListChar c = true := by
  simp [isListChar, h]

theorem TypedName.isListChar_of_mem {p : TypedName} {c : Char} (h : c ∈ p.render) :
    isListChar c = true := by
  rcases List.mem_append.1 h with h | h
  · exact isListChar_of_ident (p.name.ident c h)
  · rcases List.mem_cons.1 h with rfl | h
    · rfl
    · rcases List.mem_cons.1 h with rfl | h
      · rfl
      · exact isListChar_of_ident (p.type.ident c h)

theorem isListChar_of_mem_listed {ps : List TypedName} {c : Char} (h : c ∈ listed ps) :
    isListChar c = true := by
  fun_induction listed ps with
  | case1 => cases h
  | case2 p => exact p.isListChar_of_mem h
  | case3 p q ps ih =>
    rcases List.mem_append.1 h with h | h
    · exact p.isListChar_of_mem h
    · rcases List.mem_cons.1 h with rfl | h
      · rfl
      · rcases List.mem_cons.1 h with rfl | h
        · rfl
        · exact ih h

theorem Record.isListChar_of_mem {r : Record} {c : Char} (h : c ∈ r.body) :
    isListChar c = true := by
  rw [Record.body] at h
  split at h
  · cases List.mem_singleton.1 h
    rfl
  · rcases List.mem_cons.1 h with rfl | h
    · rfl
    · rcases List.mem_append.1 h with h | h
      · exact isListChar_of_mem_listed h
      · cases List.mem_singleton.1 h
        rfl

theorem typeDeclaration_render (r : Record) (rest : List Char) :
    Pattern.typeDeclaration (r.render ++ rest) =
      some (⟨r.name.chars, ⟨r.body, r.head.length⟩⟩, rest) := by
  have hrender : r.render ++ rest =
      "def".toList ++ ' ' :: (r.name.chars ++ ' ' :: '{' :: (r.body ++ '}' :: rest)) := by
    simp [Record.render, Record.head]
  have hname : Text.identifier (r.name.chars ++ ' ' :: '{' :: (r.body ++ '}' :: rest)) =
      some (r.name.chars, ' ' :: '{' :: (r.body ++ '}' :: rest)) :=
    r.name.identifier (apart_cons.2 rfl)
  have hopen : literal ['{'] (Text.blanks (' ' :: '{' :: (r.body ++ '}' :: rest))) =
      some (r.body ++ '}' :: rest) := rfl
  have hbody : run (· != '}') (r.body ++ '}' :: rest) = (r.body, '}' :: rest) :=
    run_until (fun h => by cases r.isListChar_of_mem h) rest
  have hclose : literal ['}'] ('}' :: rest) = some rest := rfl
  have hoffset : (r.render ++ rest).length - (r.body ++ '}' :: rest).length = r.head.length := by
    simp only [Record.render, List.length_append, List.length_cons, List.length_nil]
    omega
  rw [hrender] at hoffset ⊢
  simp only [Pattern.typeDeclaration, literal_append, blanks1_space, r.name.blanks, hname, hopen,
    hbody, hclose, hoffset, Option.bind_eq_bind, Option.bind_some, Option.pure_def]

theorem functionHeader_render (f : Function) (rest : List Char) :
    Pattern.functionHeader (f.header ++ rest) =
      some (⟨f.name.chars, ⟨listed f.parameters, f.head.length⟩, (f.result.map (·.chars)).getD []⟩,
        rest) := by
  have hrender : f.header ++ rest = "fun".toList ++ ' ' :: (f.name.chars ++ '(' ::
      (listed f.parameters ++ ')' :: (ascribed f.result ++ ' ' :: '{' :: rest))) := by
    simp [Function.header, Function.head]
  have hname : Text.identifier (f.name.chars ++ '(' ::
      (listed f.parameters ++ ')' :: (ascribed f.result ++ ' ' :: '{' :: rest))) =
      some (f.name.chars, '(' ::
        (listed f.parameters ++ ')' :: (ascribed f.result ++ ' ' :: '{' :: rest))) :=
    f.name.identifier (apart_cons.2 rfl)
  have hopen : ∀ cs, literal ['('] (Text.blanks ('(' :: cs)) = some cs := fun _ => rfl
  have hparameters : run (· != ')') (listed f.parameters ++ ')' ::
      (ascribed f.result ++ ' ' :: '{' :: rest)) =
      (listed f.parameters, ')' :: (ascribed f.result ++ ' ' :: '{' :: rest)) :=
    run_until (fun h => by cases isListChar_of_mem_listed h) _
  have hclose : ∀ cs, literal [')'] (')' :: cs) = some cs := fun _ => rfl
  have hresult := typed_ascribed f.result (c := '{') rfl (by decide) rest
  have hbrace : literal ['{'] (Text.blanks (' ' :: '{' :: rest)) = some rest := rfl
  have hoffset : (f.header ++ rest).length - (listed f.parameters ++ ')' ::
      (ascribed f.result ++ ' ' :: '{' :: rest)).length = f.head.length := by
    simp only [Function.header, List.length_append, List.length_cons, List.length_nil]
    omega
  rw [hrender] at hoffset ⊢
  simp only [Pattern.functionHeader, literal_append, blanks1_space, f.name.blanks, hname, hopen,
    hparameters, hclose, hresult, hbrace, hoffset, Option.bind_eq_bind, Option.bind_some,
    Option.pure_def]

theorem blockHead_render (c : Class) (rest : List Char) :
    Pattern.blockHead "class" (c.head ++ rest) = some (c.name.chars, rest) := by
  have hrender : c.head ++ rest =
      "class".toList ++ ' ' :: (c.name.chars ++ ' ' :: '{' :: rest) := by
    simp [Class.head]
  have hname : Text.identifier (c.name.chars ++ ' ' :: '{' :: rest) =
      some (c.name.chars, ' ' :: '{' :: rest) := c.name.identifier (apart_cons.2 rfl)
  have hopen : literal ['{'] (Text.blanks (' ' :: '{' :: rest)) = some rest := rfl
  rw [hrender]
  simp only [Pattern.blockHead, literal_append, blanks1_space, c.name.blanks, hname, hopen,
    Option.bind_eq_bind, Option.bind_some, Option.pure_def]

def isValueChar (c : Char) : Bool :=
  isIdentChar c || c == '-' || c == '.' || c == '(' || c == ')'

theorem isValueChar_of_ident {c : Char} (h : isIdentChar c = true) : isValueChar c = true := by
  simp [isValueChar, h]

theorem isBlank_of_isValueChar {c : Char} (h : isValueChar c = true) : isBlank c = false := by
  simp only [isValueChar, Bool.or_eq_true, beq_iff_eq] at h
  rcases h with (((h | rfl) | rfl) | rfl) | rfl
  · exact isBlank_of_isIdentChar h
  all_goals rfl

theorem endsValue_of_isValueChar {c : Char} (h : isValueChar c = true) :
    Pattern.endsValue c = false := by
  refine Bool.eq_false_iff.2 fun hends => ?_
  simp only [Pattern.endsValue, Bool.or_eq_true, beq_iff_eq] at hends
  rcases hends with (rfl | rfl) | rfl <;> cases h

theorem Digits.isIdentChar_of_mem {n : Digits} {c : Char} (h : c ∈ n.chars) :
    isIdentChar c = true := by
  simp [isIdentChar, Char.isAlphanum, n.digit c h]

theorem mem_signed {negative : Bool} {cs : List Char} {c : Char} (h : c ∈ signed negative cs) :
    c = '-' ∨ c ∈ cs := by
  cases negative with
  | false => exact .inr h
  | true => exact List.mem_cons.1 h

theorem Value.isValueChar_of_mem {v : Value} {c : Char} (h : c ∈ v.render) :
    isValueChar c = true := by
  cases v with
  | boolean value =>
    exact isValueChar_of_ident ((free_word _ (by cases value <;> decide)).ident c h)
  | nil => exact isValueChar_of_ident ((free_word _ (by decide)).ident c h)
  | integer negative digits =>
    rcases mem_signed h with rfl | h
    · rfl
    · exact isValueChar_of_ident (digits.isIdentChar_of_mem h)
  | decimal negative whole fraction =>
    rcases mem_signed h with rfl | h
    · rfl
    · rcases List.mem_append.1 h with h | h
      · exact isValueChar_of_ident (whole.isIdentChar_of_mem h)
      · rcases List.mem_cons.1 h with rfl | h
        · rfl
        · exact isValueChar_of_ident (fraction.isIdentChar_of_mem h)
  | call callee =>
    rcases List.mem_append.1 h with h | h
    · exact isValueChar_of_ident (callee.ident c h)
    · rcases List.mem_cons.1 h with rfl | h
      · rfl
      · cases List.mem_singleton.1 h
        rfl

theorem Value.exists_cons (v : Value) : ∃ c cs, v.render = c :: cs := by
  have hne : v.render ≠ [] := by
    cases v with
    | boolean value => cases value <;> decide
    | nil => decide
    | integer negative digits => cases negative <;> simp [Value.render, signed, digits.ne_nil]
    | decimal negative whole fraction => cases negative <;> simp [Value.render, signed]
    | call callee => simp [Value.render]
  exact List.exists_cons_of_ne_nil hne

/-- The text ends here, or the line does. -/
def LineEnd (rest : List Char) : Prop :=
  ∀ c ∈ rest.head?, c = '\n'

theorem LineEnd.apart (h : LineEnd rest) : Apart rest := by
  intro c hc
  rw [h c hc]
  rfl

theorem initialiser_render (v : Value) (hrest : LineEnd rest) :
    Pattern.initialiser (' ' :: (v.render ++ rest)) = some (v.render, v.render ++ rest) := by
  obtain ⟨c, cs, hv⟩ := v.exists_cons
  have hmem : ∀ d ∈ v.render, isValueChar d = true := fun d hd => v.isValueChar_of_mem hd
  rw [hv] at hmem ⊢
  rw [List.cons_append]
  have hblanks : Text.blanks (' ' :: c :: (cs ++ rest)) = c :: (cs ++ rest) :=
    blanks_cons_of_not (isBlank_of_isValueChar (hmem c List.mem_cons_self)) (cs ++ rest)
  have hvalue : ∀ d ∈ cs, (!Pattern.endsValue d) = true := by
    intro d hd
    simp [endsValue_of_isValueChar (hmem d (List.mem_cons_of_mem c hd))]
  have hend : rest.takeWhile (fun d => !Pattern.endsValue d) = [] := by
    cases rest with
    | nil => rfl
    | cons d rest =>
      obtain rfl : d = '\n' := hrest d rfl
      rfl
  simp only [Pattern.initialiser, hblanks, List.takeWhile_append_of_pos hvalue, hend,
    List.append_nil]

theorem declarator_render (b : Binding) (hrest : Apart rest) :
    ∃ n, Pattern.declarator (b.keyword.toList ++ ' ' :: (b.name.chars ++ rest)) =
      some (⟨b.isConst, b.name.chars, n⟩, rest) := by
  have hkeyword : ∀ cs, oneOf ["var", "const"] (b.keyword.toList ++ cs) = some (b.keyword, cs) := by
    intro cs
    cases h : b.isConst with
    | false => simp [Binding.keyword, h, oneOf, literal]
    | true => simp [Binding.keyword, h, oneOf, literal]
  have hconst : (b.keyword == "const") = b.isConst := by
    cases h : b.isConst <;> simp [Binding.keyword, h]
  simp only [Pattern.declarator, hkeyword, blanks1_space, b.name.blanks,
    b.name.identifier hrest, hconst, Option.bind_eq_bind, Option.bind_some, Option.pure_def]
  exact ⟨_, rfl⟩

theorem initialisedVariable_render (b : Binding) (hrest : LineEnd rest) :
    Pattern.initialisedVariable (b.render ++ rest) =
      some (⟨b.isConst, b.name.chars, (b.type.map (·.chars)).getD [], b.value.render,
        b.render.length⟩, rest.tail) := by
  have hrender : b.render ++ rest = b.keyword.toList ++ ' ' :: (b.name.chars ++
      (ascribed b.type ++ ' ' :: '=' :: ' ' :: (b.value.render ++ rest))) := by
    simp [Binding.render]
  have hapart : Apart (ascribed b.type ++ ' ' :: '=' :: ' ' :: (b.value.render ++ rest)) := by
    cases b.type <;> exact apart_cons.2 rfl
  obtain ⟨n, hdeclarator⟩ := declarator_render b hapart
  have htype := typed_ascribed b.type (c := '=') rfl (by decide) (' ' :: (b.value.render ++ rest))
  have hequals : ∀ cs, literal ['='] (Text.blanks (' ' :: '=' :: cs)) = some cs := fun _ => rfl
  have hvalue := initialiser_render b.value hrest
  have hlength : (b.render ++ rest).length - rest.length = b.render.length := by
    rw [List.length_append, Nat.add_sub_cancel]
  rw [hrender] at hlength ⊢
  simp only [Pattern.initialisedVariable, hdeclarator, htype, hequals, hvalue, List.drop_left,
    hlength, Option.bind_eq_bind, Option.bind_some, Option.pure_def]
  cases rest with
  | nil => rfl
  | cons c rest =>
    obtain rfl : c = '\n' := hrest c rfl
    rfl

end

/-! ### One declaration after another -/

section
variable {α β γ : Type} {r : List Char → Option (α × List Char)} {ks : List (List Char)}

theorem joinWith_append (render : β → List Char) (a b : β) (bs : List β) (rest : List Char) :
    joinWith '\n' ((a :: b :: bs).map render) ++ rest =
      render a ++ '\n' :: (joinWith '\n' ((b :: bs).map render) ++ rest) := by
  simp [joinWith]

theorem add_length_joinWith (render : β → List Char) (a b : β) (bs : List β) (pos : Nat) :
    pos + (joinWith '\n' ((a :: b :: bs).map render)).length =
      pos + (render a).length + 1 + (joinWith '\n' ((b :: bs).map render)).length := by
  simp only [List.map_cons, joinWith, List.length_append, List.length_cons]
  omega

/-- What a search finds line by line, if it can be told for each line. -/
theorem map_search_lines {render : β → List Char} (view : Hit α → γ) (found : Nat × β → List γ)
    (hled : LedBy ks r) (hks : ks ⊆ leads)
    (hstep : ∀ pos b rest, LineEnd rest → (search r pos (render b ++ rest)).map view =
      found (pos, b) ++ (search r (pos + (render b).length) rest).map view)
    (bs : List β) {rest : List Char} (hrest : LineEnd rest) (pos : Nat) :
    (search r pos (joinWith '\n' (bs.map render) ++ rest)).map view =
      (placed render pos bs).flatMap found ++
        (search r (pos + (joinWith '\n' (bs.map render)).length) rest).map view := by
  induction bs generalizing pos with
  | nil => rfl
  | cons b bs ih =>
    cases bs with
    | nil => simpa [joinWith, placed] using hstep pos b rest hrest
    | cons b' bs =>
      have hline : LineEnd ('\n' :: (joinWith '\n' ((b' :: bs).map render) ++ rest)) := by
        simp [LineEnd]
      have hplaced : placed render pos (b :: b' :: bs) =
          (pos, b) :: placed render (pos + (render b).length + 1) (b' :: bs) := rfl
      rw [joinWith_append, hstep pos b _ hline, search_mark hled hks rfl, ih,
        add_length_joinWith, hplaced, List.flatMap_cons, List.append_assoc]

theorem search_newlines (hled : LedBy ks r) (hks : ks ⊆ leads) (n pos : Nat) :
    search r pos (List.replicate n '\n') = [] := by
  induction n generalizing pos with
  | zero => rfl
  | succ n ih => rw [List.replicate_succ, search_mark hled hks rfl, ih]

theorem map_search_file (view : Hit α → γ) (found : Nat × Declaration → List γ)
    (hled : LedBy ks r) (hks : ks ⊆ leads)
    (hstep : ∀ pos (d : Declaration) rest, LineEnd rest →
      (search r pos (d.render ++ rest)).map view =
        found (pos, d) ++ (search r (pos + d.render.length) rest).map view)
    (blank : Nat) (ds : List Declaration) :
    (search r 0 (file blank ds)).map view = (placed Declaration.render 0 ds).flatMap found := by
  have hblank : LineEnd (List.replicate blank '\n') := by
    intro c hc
    cases blank with
    | zero => cases hc
    | succ n =>
      cases hc
      rfl
  rw [file, map_search_lines view found hled hks hstep ds hblank, search_newlines hled hks]
  simp

end

/-! ### Each search in a file -/

section
variable {rest : List Char} (pos : Nat) (hrest : LineEnd rest)
include hrest

def Record.hit (r : Nat × Record) : Hit Pattern.Body :=
  ⟨r.1, r.1 + r.2.render.length, ⟨r.2.name.chars, ⟨r.2.body, r.2.head.length⟩⟩⟩

theorem search_record (d : Declaration) :
    search Pattern.typeDeclaration pos (d.render ++ rest) =
      (Declaration.record? (pos, d)).toList.map Record.hit ++
        search Pattern.typeDeclaration (pos + d.render.length) rest := by
  have hks : ["def".toList] ⊆ leads := by decide
  have hled := typeDeclaration_led
  cases d with
  | record r =>
    have hne : r.render ≠ [] := by simp [Record.render, Record.head]
    exact search_append_some hne (typeDeclaration_render r rest) pos
  | function f => exact search_silent hled (f.silent hks (by decide)) hrest.apart pos
  | classBlock c =>
    exact search_silent hled (c.silent hks (by decide) (by decide)) hrest.apart pos
  | binding b => exact search_silent hled (b.silent hks (by decide) (by decide)) hrest.apart pos

def Class.hit (c : Nat × Class) : Hit (List Char) :=
  ⟨c.1, c.1 + c.2.head.length, c.2.name.chars⟩

theorem search_class (d : Declaration) :
    search (Pattern.blockHead "class") pos (d.render ++ rest) =
      (Declaration.class? (pos, d)).toList.map Class.hit ++
        search (Pattern.blockHead "class") (pos + d.render.length) rest := by
  have hks : ["class".toList] ⊆ leads := by decide
  have hled := blockHead_led "class"
  cases d with
  | record r => exact search_silent hled (r.silent hks (by decide)) hrest.apart pos
  | function f => exact search_silent hled (f.silent hks (by decide)) hrest.apart pos
  | classBlock c =>
    have hne : c.head ≠ [] := by simp [Class.head]
    have hfound := search_append_some hne (blockHead_render c (c.body ++ ['}'] ++ rest)) pos
    rw [search_silent hled (c.silent_body hks (by decide)) hrest.apart, ← List.append_assoc,
      Nat.add_assoc, ← List.length_append] at hfound
    exact hfound
  | binding b => exact search_silent hled (b.silent hks (by decide) (by decide)) hrest.apart pos

def Function.hit (f : Nat × Function) : Hit Pattern.Header :=
  ⟨f.1, f.1 + f.2.header.length, ⟨f.2.name.chars, ⟨listed f.2.parameters, f.2.head.length⟩,
    (f.2.result.map (·.chars)).getD []⟩⟩

theorem search_function_render (f : Function) :
    search Pattern.functionHeader pos (f.render ++ rest) =
      [Function.hit (pos, f)] ++ search Pattern.functionHeader (pos + f.render.length) rest := by
  have hks : ["fun".toList] ⊆ leads := by decide
  have hne : f.header ≠ [] := by simp [Function.header, Function.head]
  have hend : Silent ["fun".toList] [' ', '}'] := (silent_nil.cons hks rfl).cons hks rfl
  have hfound := search_append_some hne (functionHeader_render f ([' ', '}'] ++ rest)) pos
  rw [search_silent functionHeader_led hend hrest.apart, ← List.append_assoc, Nat.add_assoc,
    ← List.length_append] at hfound
  exact hfound

omit hrest in
theorem Class.body_append (c : Class) (rest : List Char) :
    c.body ++ rest = '\n' :: (joinWith '\n' (c.methods.map Function.render) ++ '\n' :: rest) := by
  simp [Class.body]

omit hrest in
theorem Class.add_length_body (c : Class) :
    pos + c.body.length =
      pos + 1 + (joinWith '\n' (c.methods.map Function.render)).length + 1 := by
  simp only [Class.body, List.length_cons, List.length_append, List.length_nil]
  omega

omit hrest in
/-- The functions found between the braces of a class are its methods. -/
theorem search_methods (c : Class) :
    search Pattern.functionHeader pos (c.body ++ rest) =
      (placed Function.render (pos + 1) c.methods).map Function.hit ++
        search Pattern.functionHeader (pos + c.body.length) rest := by
  have hks : ["fun".toList] ⊆ leads := by decide
  have hled := functionHeader_led
  have hstep : ∀ pos (f : Function) rest, LineEnd rest →
      (search Pattern.functionHeader pos (f.render ++ rest)).map id =
        [Function.hit (pos, f)] ++
          (search Pattern.functionHeader (pos + f.render.length) rest).map id := by
    intro pos f rest hrest
    simp only [List.map_id]
    exact search_function_render pos hrest f
  have hline : LineEnd ('\n' :: rest) := by simp [LineEnd]
  have hmethods := map_search_lines id (fun f => [Function.hit f]) hled hks hstep c.methods hline
    (pos + 1)
  rw [List.map_id, List.map_id, ← List.map_eq_flatMap] at hmethods
  rw [c.body_append, search_mark hled hks rfl, hmethods, search_mark hled hks rfl,
    c.add_length_body]

theorem search_function (d : Declaration) :
    search Pattern.functionHeader pos (d.render ++ rest) =
      (Declaration.functions (pos, d)).map Function.hit ++
        search Pattern.functionHeader (pos + d.render.length) rest := by
  have hks : ["fun".toList] ⊆ leads := by decide
  have hled := functionHeader_led
  cases d with
  | record r => exact search_silent hled (r.silent hks (by decide)) hrest.apart pos
  | function f => exact search_function_render pos hrest f
  | classBlock c =>
    have hbody : Apart (c.body ++ '}' :: rest) := apart_cons.2 rfl
    have hrender : c.render ++ rest = c.head ++ (c.body ++ '}' :: rest) := by simp [Class.render]
    have hlength : pos + c.render.length = pos + c.head.length + c.body.length + 1 := by
      simp only [Class.render, List.length_append, List.length_cons, List.length_nil]
      omega
    rw [Declaration.render, hrender, search_silent hled (c.silent_head hks (by decide)) hbody,
      search_methods, search_mark hled hks rfl, hlength]
    rfl
  | binding b => exact search_silent hled (b.silent hks (by decide) (by decide)) hrest.apart pos

/-- What is used of the match of a variable: where it starts and what it reads. -/
def Binding.read (b : Nat × Binding) : Nat × Pattern.Initialised :=
  (b.1, ⟨b.2.isConst, b.2.name.chars, (b.2.type.map (·.chars)).getD [], b.2.value.render,
    b.2.render.length⟩)

theorem search_binding (d : Declaration) :
    (search Pattern.initialisedVariable pos (d.render ++ rest)).map (fun h => (h.start, h.value)) =
      (Declaration.binding? (pos, d)).toList.map Binding.read ++
        (search Pattern.initialisedVariable (pos + d.render.length) rest).map
          fun h => (h.start, h.value) := by
  have hks : ["var".toList, "const".toList] ⊆ leads := by decide
  have hled := initialisedVariable_led
  cases d with
  | record r => exact congrArg _ (search_silent hled (r.silent hks (by decide)) hrest.apart pos)
  | function f => exact congrArg _ (search_silent hled (f.silent hks (by decide)) hrest.apart pos)
  | classBlock c =>
    exact congrArg _ (search_silent hled (c.silent hks (by decide) (by decide)) hrest.apart pos)
  | binding b =>
    have hmatch := initialisedVariable_render b hrest
    have hne : b.render ≠ [] := by simp [Binding.render]
    -- The match takes the newline behind the value with it.
    cases rest with
    | nil =>
      have hfound := search_append_some hne hmatch pos
      exact congrArg _ hfound
    | cons c rest =>
      obtain rfl : c = '\n' := hrest c rfl
      have hline : b.render ++ '\n' :: rest = (b.render ++ ['\n']) ++ rest := by simp
      rw [hline] at hmatch
      have hfound := search_append_some (by simp) hmatch pos
      rw [Declaration.render, hline, hfound, search_mark hled hks rfl, List.length_append]
      rfl

/-- No declaration is an import. -/
theorem search_import {α : Type} {r : List Char → Option (α × List Char)}
    (hled : LedBy ["import".toList] r) (d : Declaration) :
    search r pos (d.render ++ rest) = search r (pos + d.render.length) rest := by
  have hks : ["import".toList] ⊆ leads := by decide
  refine search_silent hled ?_ hrest.apart pos
  cases d with
  | record r => exact r.silent hks (by decide)
  | function f => exact f.silent hks (by decide)
  | classBlock c => exact c.silent hks (by decide) (by decide)
  | binding b => exact b.silent hks (by decide) (by decide)

end

section
variable (blank : Nat) (ds : List Declaration)

theorem typeHits_file : Symbol.typeHits (file blank ds) = (records ds).map Record.hit := by
  have hfile := map_search_file id (fun p => (Declaration.record? p).toList.map Record.hit)
    typeDeclaration_led (by decide)
    (fun pos d rest hrest => by simpa using search_record pos hrest d) blank ds
  rw [List.map_id] at hfile
  rw [Symbol.typeHits, hits_anywhere, hfile, records, List.filterMap_eq_flatMap_toList,
    List.map_flatMap]

theorem classHits_file :
    hits (anywhere (Pattern.blockHead "class")) (file blank ds) = (classes ds).map Class.hit := by
  have hfile := map_search_file id (fun p => (Declaration.class? p).toList.map Class.hit)
    (blockHead_led "class") (by decide)
    (fun pos d rest hrest => by simpa using search_class pos hrest d) blank ds
  rw [List.map_id] at hfile
  rw [hits_anywhere, hfile, classes, List.filterMap_eq_flatMap_toList, List.map_flatMap]

theorem functionHits_file :
    Symbol.functionHits (file blank ds) = (functions ds).map Function.hit := by
  have hfile := map_search_file id (fun p => (Declaration.functions p).map Function.hit)
    functionHeader_led (by decide)
    (fun pos d rest hrest => by simpa using search_function pos hrest d) blank ds
  rw [List.map_id] at hfile
  rw [Symbol.functionHits, hits_anywhere, hfile, functions, List.map_flatMap]

theorem variableHits_file :
    (hits (anywhere Pattern.initialisedVariable) (file blank ds)).map
        (fun h => (h.start, h.value)) = (bindings ds).map Binding.read := by
  have hfile := map_search_file (fun h => (h.start, h.value))
    (fun p => (Declaration.binding? p).toList.map Binding.read) initialisedVariable_led (by decide)
    (fun pos d rest hrest => search_binding pos hrest d) blank ds
  rw [hits_anywhere, hfile, bindings, List.filterMap_eq_flatMap_toList, List.map_flatMap]

theorem importPaths_file : Symbol.importPaths (file blank ds) = [] := by
  have hnone : ∀ {α : Type} {r : List Char → Option (α × List Char)}, LedBy ["import".toList] r →
      hits (anywhere r) (file blank ds) = [] := by
    intro α r hled
    have hfile := map_search_file id (fun _ => []) hled (by decide)
      (fun pos d rest hrest => by simpa using search_import pos hrest hled d) blank ds
    rw [List.map_id] at hfile
    rw [hits_anywhere, hfile]
    simp
  simp [Symbol.importPaths, Symbol.singlePaths, Symbol.groupPaths, hnone singleImport_led,
    hnone groupImport_led]

end

end Source

end BurnLens
