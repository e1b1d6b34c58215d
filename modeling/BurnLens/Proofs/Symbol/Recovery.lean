import BurnLens.Proofs.Symbol.Parts
import BurnLens.Proofs.Symbol.Piece

/-!
# Extraction recovers a well-formed file

The scans for types, functions, classes, variables and imports run over the whole text and know
nothing of each other. In a file of declarations each of them finds its own and no other, and what
it reads there is what was written: the table of the file is the table of its declarations
(`extract_file`).
-/

namespace BurnLens.Source

open Text

/-- What is made of things with names of their own is kept under these names. -/
theorem byName_map {α β : Type} {name : β → String} {f : α → β} {as : List α}
    (h : (as.map fun a => name (f a)).Nodup) :
    Symbol.byName name (as.map f) = ⟨as.map fun a => (name (f a), f a)⟩ := by
  have hnodup : (((as.map f).map fun b => (name b, b)).map (·.1)).Nodup := by
    rw [List.map_map, List.map_map]
    exact h
  rw [Symbol.byName, OrderedMap.ofList_of_nodup hnodup, List.map_map]
  rfl

/-! ### Where declarations stand -/

section
variable {α : Type} {render : α → List Char}

theorem placed_add (n pos : Nat) (as : List α) :
    placed render (n + pos) as = (placed render pos as).map fun p => (n + p.1, p.2) := by
  induction as generalizing pos with
  | nil => rfl
  | cons a as ih =>
    have hnext : n + pos + (render a).length + 1 = n + (pos + (render a).length + 1) := by omega
    rw [placed, placed, hnext, ih, List.map_cons]

theorem exists_of_mem_placed {p : Nat × α} {pos : Nat} {as : List α} (h : p ∈ placed render pos as)
    (rest : List Char) :
    ∃ front tail, joinWith '\n' (as.map render) ++ rest = front ++ (render p.2 ++ tail) ∧
      pos + front.length = p.1 := by
  induction as generalizing pos with
  | nil => cases h
  | cons a as ih =>
    rcases List.mem_cons.1 h with rfl | h
    · cases as with
      | nil => exact ⟨[], rest, rfl, rfl⟩
      | cons b as =>
        exact ⟨[], '\n' :: (joinWith '\n' ((b :: as).map render) ++ rest), by simp [joinWith], rfl⟩
    · cases as with
      | nil => cases h
      | cons b as =>
        obtain ⟨front, tail, heq, hpos⟩ := ih h
        refine ⟨render a ++ '\n' :: front, tail, ?_, ?_⟩
        · rw [joinWith_append, heq, List.append_assoc, List.cons_append]
        · rw [← hpos, List.length_append, List.length_cons]
          omega

end

/-! ### What each match stands for -/

section
variable (d : Document)

theorem typeDefinition_hit (r : Nat × Record) (h : (r.2.fields.map (·.name.text)).Nodup) :
    Symbol.typeDefinition d (Record.hit r) = r.2.definition d r.1 := by
  have hpairs := pairs_of_listEntries r.2.listEntries
  have hfields : OrderedMap.ofList (Symbol.pairs r.2.body) =
      ⟨r.2.fields.map fun f => (f.name.text, f.type.text)⟩ := by
    rw [hpairs]
    refine OrderedMap.ofList_of_nodup ?_
    rw [List.map_map]
    exact h
  rw [Symbol.typeDefinition, Record.definition, ← hfields]
  rfl

theorem signature_hit (offset : Nat) (owner : Option String) (f : Nat × Function) :
    Symbol.signature d offset owner (Function.hit f) = f.2.signature d (offset + f.1) owner := by
  have hparameters : Symbol.parameters (listed f.2.parameters) =
      f.2.parameters.map fun p => ⟨p.name.text, p.type.text⟩ := by
    rw [Symbol.parameters, pairs_of_listEntries f.2.listEntries, List.map_map]
    rfl
  have hresult : String.ofList ((f.2.result.map (·.chars)).getD []) = optionalText f.2.result := by
    cases f.2.result <;> rfl
  rw [Symbol.signature_eq, Function.signature, ← hparameters, ← hresult, Nat.add_assoc]
  rfl

/-- The methods of a class are found between its braces. -/
theorem signature_methods (c : Class) (pos : Nat) (owner : Option String) :
    (Symbol.functionHits c.body).map (Symbol.signature d (pos + c.head.length) owner) =
      (c.placedMethods pos).map fun m => m.2.signature d m.1 owner := by
  have hfound : search Pattern.functionHeader 0 (c.body ++ []) =
      (placed Function.render 1 c.methods).map Function.hit ++ [] := search_methods 0 c
  rw [List.append_nil, List.append_nil] at hfound
  have hplaced : c.placedMethods pos =
      (placed Function.render 1 c.methods).map fun m => (pos + c.head.length + m.1, m.2) :=
    placed_add (pos + c.head.length) 1 c.methods
  rw [Symbol.functionHits, hits_anywhere, hfound, hplaced, List.map_map, List.map_map]
  exact List.map_congr_left fun m _ => signature_hit d (pos + c.head.length) owner m

/-- A class is cut at its own braces. -/
theorem classDefinition_hit (c : Nat × Class)
    (h : ((c.2.placedMethods c.1).map (·.2.name.text)).Nodup) {front rest : List Char}
    (hchars : d.chars = front ++ (c.2.render ++ rest)) (hfront : front.length = c.1) :
    Symbol.classDefinition d (Class.hit c) = c.2.definition d c.1 := by
  obtain ⟨pos, c⟩ := c
  simp only at hchars hfront h
  have hsplit : d.chars = (front ++ c.head) ++ (c.body ++ '}' :: rest) := by
    simp [hchars, Class.render]
  have hpos : (front ++ c.head).length = pos + c.head.length := by
    rw [List.length_append, hfront]
  have hbehind : d.chars.drop (pos + c.head.length) = c.body ++ '}' :: rest := by
    rw [hsplit, ← hpos, List.drop_left]
  have hend : Symbol.blockEnd d.chars (pos + c.head.length) =
      pos + c.head.length + c.body.length := by
    rw [Symbol.blockEnd_eq, hbehind, c.closingBrace?]
    rfl
  have hslice : slice d.chars (pos + c.head.length) (pos + c.head.length + c.body.length) =
      c.body := by
    rw [slice, hbehind, Nat.add_sub_cancel_left, List.take_left]
  have hstop : min (pos + c.head.length + c.body.length + 1) d.chars.length =
      pos + c.render.length := by
    simp only [hchars, Class.render, List.length_append, List.length_cons, List.length_nil, hfront]
    omega
  have hmethods : Symbol.byName Signature.name ((Symbol.functionHits c.body).map
      (Symbol.signature d (pos + c.head.length) (some c.name.text))) =
      ⟨(c.placedMethods pos).map fun m =>
        (m.2.name.text, m.2.signature d m.1 (some c.name.text))⟩ := by
    rw [signature_methods]
    exact byName_map h
  simp only [Symbol.classDefinition, Class.hit, Class.definition, hend, hslice, hstop, ← hmethods]
  rfl

theorem variableOf_read {fs : List (Nat × Function)} {lookup : FunctionLookup}
    (hlookup : ∀ name, (lookup name).map (·.returnType) =
      (fs.find? (·.2.name.text = name)).map fun f => optionalText f.2.result)
    (b : Nat × Binding) (stop : Nat) :
    Symbol.variableOf d lookup ⟨b.1, stop, (Binding.read b).2⟩ = b.2.declared d b.1 fs := by
  have htype : (if ((b.2.type.map (·.chars)).getD []).isEmpty
      then Symbol.inferType lookup b.2.value.render
      else String.ofList ((b.2.type.map (·.chars)).getD [])) =
      (b.2.type.map (·.text)).getD (b.2.value.type fs) := by
    cases b.2.type with
    | none => exact b.2.value.inferType fs lookup hlookup
    | some type =>
      obtain ⟨c, cs, h, -⟩ := type.exists_cons
      simp [h, Identifier.text]
  rw [Binding.declared, ← htype]
  rfl

end

/-! ### The whole file -/

section
variable {ds : List Declaration} (uri : String) (blank : Nat)

theorem document_chars : (document uri blank ds).chars = file blank ds :=
  String.toList_ofList

theorem types_file (h : Distinct ds) :
    Symbol.byName TypeDefinition.name ((Symbol.typeHits (file blank ds)).map
      (Symbol.typeDefinition (document uri blank ds))) = (table uri blank ds).types := by
  have hhits : (Symbol.typeHits (file blank ds)).map
      (Symbol.typeDefinition (document uri blank ds)) =
      (records ds).map fun r => r.2.definition (document uri blank ds) r.1 := by
    rw [typeHits_file, List.map_map]
    exact List.map_congr_left fun r hr => typeDefinition_hit _ r (h.fields r hr)
  rw [hhits]
  exact byName_map h.records

theorem functions_file (h : Distinct ds) :
    Symbol.byName Signature.name ((Symbol.functionHits (file blank ds)).map
      (Symbol.signature (document uri blank ds) 0 none)) = (table uri blank ds).functions := by
  have hhits : (Symbol.functionHits (file blank ds)).map
      (Symbol.signature (document uri blank ds) 0 none) =
      (functions ds).map fun f => f.2.signature (document uri blank ds) f.1 none := by
    rw [functionHits_file, List.map_map]
    refine List.map_congr_left fun f _ => ?_
    rw [Function.comp_apply, signature_hit, Nat.zero_add]
  rw [hhits]
  exact byName_map h.functions

theorem mem_placed_of_mem_classes {c : Nat × Class} (hc : c ∈ classes ds) :
    (c.1, .classBlock c.2) ∈ placed Declaration.render 0 ds := by
  obtain ⟨⟨pos, d⟩, hp, hclass⟩ := List.mem_filterMap.1 hc
  cases d <;> cases hclass
  exact hp

theorem Distinct.methods (h : Distinct ds) {c : Nat × Class} (hc : c ∈ Source.classes ds) :
    ((c.2.placedMethods c.1).map (·.2.name.text)).Nodup := by
  have hsub : (c.2.placedMethods c.1).Sublist (Source.functions ds) :=
    List.sublist_flatten_of_mem (List.mem_map_of_mem (f := Declaration.functions)
      (mem_placed_of_mem_classes hc))
  exact h.functions.sublist (hsub.map _)

theorem classes_file (h : Distinct ds) :
    Symbol.byName ClassDefinition.name
      ((hits (anywhere (Pattern.blockHead "class")) (file blank ds)).map
        (Symbol.classDefinition (document uri blank ds))) = (table uri blank ds).classes := by
  have hhits : (hits (anywhere (Pattern.blockHead "class")) (file blank ds)).map
      (Symbol.classDefinition (document uri blank ds)) =
      (classes ds).map fun c => c.2.definition (document uri blank ds) c.1 := by
    rw [classHits_file, List.map_map]
    refine List.map_congr_left fun c hc => ?_
    obtain ⟨front, tail, htext, hpos⟩ :=
      exists_of_mem_placed (mem_placed_of_mem_classes hc) (List.replicate blank '\n')
    rw [Nat.zero_add] at hpos
    exact classDefinition_hit _ c (h.methods hc) ((document_chars uri blank).trans htext) hpos
  rw [hhits]
  exact byName_map h.classes

theorem lookup_file (name : String) :
    ((Symbol.ownFirst (table uri blank ds).functions fun _ => none) name).map (·.returnType) =
      ((functions ds).find? (·.2.name.text = name)).map fun f => optionalText f.2.result := by
  rw [Symbol.ownFirst, Option.or_none, table, OrderedMap.get?_map, Option.map_map]
  rfl

theorem vars_file (h : Distinct ds) :
    Symbol.byName Variable.name ((hits (anywhere Pattern.initialisedVariable) (file blank ds)).map
      (Symbol.variableOf (document uri blank ds)
        (Symbol.ownFirst (table uri blank ds).functions fun _ => none))) =
      (table uri blank ds).vars := by
  have hhits : (hits (anywhere Pattern.initialisedVariable) (file blank ds)).map
      (Symbol.variableOf (document uri blank ds)
        (Symbol.ownFirst (table uri blank ds).functions fun _ => none)) =
      (bindings ds).map fun b => b.2.declared (document uri blank ds) b.1 (functions ds) := by
    calc _ = ((hits (anywhere Pattern.initialisedVariable) (file blank ds)).map
          fun h => (h.start, h.value)).map fun p =>
            Symbol.variableOf (document uri blank ds)
              (Symbol.ownFirst (table uri blank ds).functions fun _ => none) ⟨p.1, 0, p.2⟩ := by
          rw [List.map_map]
          rfl
      _ = _ := by
          rw [variableHits_file, List.map_map]
          exact List.map_congr_left fun b _ =>
            variableOf_read _ (lookup_file uri blank) b 0
  rw [hhits]
  exact byName_map h.bindings

theorem findings_file :
    Symbol.fieldFindings (file blank ds) = [] ∧ Symbol.parameterFindings (file blank ds) = [] := by
  constructor
  · rw [Symbol.fieldFindings, typeHits_file, List.flatMap_map]
    exact List.flatMap_eq_nil_iff.2 fun r _ => malformedEntries_of_listEntries r.2.listEntries _ _ _
  · rw [Symbol.parameterFindings, functionHits_file, List.flatMap_map]
    exact List.flatMap_eq_nil_iff.2 fun f _ => malformedEntries_of_listEntries f.2.listEntries _ _ _

/-- A file of declarations is recovered: each declaration is in the table, with all that was
written, and nothing else is; nothing is reported. -/
theorem extract_file (h : Distinct ds) :
    extract (String.ofList (file blank ds)) uri (fun _ => none) = ⟨table uri blank ds, []⟩ := by
  have hdocument : (⟨uri, 0, String.ofList (file blank ds)⟩ : Document) =
      document uri blank ds := rfl
  simp only [extract, hdocument, document_chars, importPaths_file, functions_file uri blank h,
    types_file uri blank h, classes_file uri blank h, vars_file uri blank h, findings_file blank,
    List.append_nil, List.map_nil]
  rfl

end

/-- Something of each kind: words that hold leading words, a field and a parameter that end in one,
a method and a function called, a class without methods. -/
def sample : List Declaration :=
  let point : Name := ⟨⟨"Point".toList, rfl, by simp [isIdentChar]⟩, by decide⟩
  let variant : Name := ⟨⟨"variant".toList, rfl, by simp [isIdentChar]⟩, by decide⟩
  let define : Name := ⟨⟨"define".toList, rfl, by simp [isIdentChar]⟩, by decide⟩
  let shape : Name := ⟨⟨"Shape".toList, rfl, by simp [isIdentChar]⟩, by decide⟩
  let area : Name := ⟨⟨"area".toList, rfl, by simp [isIdentChar]⟩, by decide⟩
  let input : Name := ⟨⟨"input".toList, rfl, by simp [isIdentChar]⟩, by decide⟩
  let x : Name := ⟨⟨"x".toList, rfl, by simp [isIdentChar]⟩, by decide⟩
  let y : Name := ⟨⟨"y".toList, rfl, by simp [isIdentChar]⟩, by decide⟩
  let int : Name := ⟨⟨"int".toList, rfl, by simp [isIdentChar]⟩, by decide⟩
  let myvar : Identifier := ⟨"myvar".toList, rfl, by simp [isIdentChar]⟩
  let one : Digits := ⟨['1'], by decide, by simp⟩
  let five : Digits := ⟨['5'], by decide, by simp⟩
  [.record ⟨point, [⟨x.toIdentifier, int⟩, ⟨myvar, int⟩]⟩,
    .function ⟨define, [⟨x.toIdentifier, point⟩, ⟨myvar, int⟩], none⟩,
    .classBlock ⟨shape, [⟨area, [], some int⟩, ⟨variant, [⟨x.toIdentifier, shape⟩], some point⟩]⟩,
    .binding ⟨true, x, some variant, .decimal true one five⟩,
    .binding ⟨false, y, none, .call area⟩,
    .binding ⟨false, area, none, .call input⟩,
    .classBlock ⟨point, []⟩]

theorem extract_file_sample :
    let text := "def Point \x7b x: int, myvar: int \x7d\n" ++
      "fun define(x: Point, myvar: int) \x7b \x7d\n" ++
      "class Shape \x7b\nfun area(): int \x7b \x7d\n" ++
      "fun variant(x: Shape): Point \x7b \x7d\n\x7d\n" ++
      "const x: variant = -1.5\nvar y = area()\nvar area = input()\nclass Point \x7b\n\n\x7d\n"
    Distinct sample ∧ String.ofList (file 1 sample) = text ∧
      (table "file:///ws/main.bn" 1 sample).vars.values.map (·.type) =
        ["variant", "int", "string"] ∧
      extract text "file:///ws/main.bn" (fun _ => none) =
        ⟨table "file:///ws/main.bn" 1 sample, []⟩ := by
  intro text
  have hdistinct : Distinct sample := by
    refine ⟨?_, ?_, ?_, ?_, ?_⟩ <;> decide +kernel
  have htext : String.ofList (file 1 sample) = text := by decide +kernel
  refine ⟨hdistinct, htext, by decide +kernel, ?_⟩
  rw [← htext]
  exact extract_file "file:///ws/main.bn" 1 hdistinct

end BurnLens.Source
