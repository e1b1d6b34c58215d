import BurnLens.Proofs.Symbol.Method
import BurnLens.Proofs.Symbol.Piece

/-!
# Lists without a gap

A list of parameters or fields is cut at its commas and newlines. Nothing between two cuts is lost:
what is not blank is a pair of a name and a type, or it is reported, from its first character that
is no white space to its last (`Accounted`). The search for the entries goes from one cut to the
next, and each step accounts for one piece (`Accounted.cons`). The main statement, for all the lists
of a file, is `extract_accounted`.
-/

namespace BurnLens

/-! ### Maps made of lists -/

namespace OrderedMap
variable {α : Type} {m : OrderedMap α} {es : List (String × α)}

/-- The map has the keys of the list in the order in which they first came, each with the value that
came last. -/
structure Gathers (m : OrderedMap α) (es : List (String × α)) : Prop where
  mem_keys : ∀ key, key ∈ m.keys ↔ key ∈ es.map (·.1)
  first : m.keys.Pairwise fun a b => (es.map (·.1)).idxOf a < (es.map (·.1)).idxOf b
  last : ∀ key, m.get? key = (es.reverse.find? (·.1 = key)).map (·.2)

theorem Gathers.put (h : m.Gathers es) (key : String) (value : α) :
    (m.put key value).Gathers (es ++ [(key, value)]) where
  mem_keys k := by
    rw [keys_put, List.map_append, List.mem_append, ← h.mem_keys]
    split
    next hmem =>
      refine ⟨.inl, fun hk => hk.elim id fun hk => ?_⟩
      rwa [List.mem_singleton.1 hk]
    next => rw [List.mem_append]; rfl
  first := by
    have hold : ∀ {a}, a ∈ m.keys →
        ((es ++ [(key, value)]).map (·.1)).idxOf a = (es.map (·.1)).idxOf a := by
      intro a ha
      rw [List.map_append, List.idxOf_append_of_mem ((h.mem_keys a).1 ha)]
    have hkeys : m.keys.Pairwise fun a b => ((es ++ [(key, value)]).map (·.1)).idxOf a <
        ((es ++ [(key, value)]).map (·.1)).idxOf b := by
      refine h.first.imp_of_mem fun ha hb hlt => ?_
      rwa [hold ha, hold hb]
    rw [keys_put]
    split
    next => exact hkeys
    next hnew =>
      refine List.pairwise_append.2 ⟨hkeys, List.pairwise_singleton _ _, fun a ha b hb => ?_⟩
      obtain rfl := List.mem_singleton.1 hb
      have hlt := List.idxOf_lt_length_of_mem ((h.mem_keys a).1 ha)
      rw [hold ha, List.map_append,
        List.idxOf_append_of_notMem fun hmem => hnew ((h.mem_keys _).2 hmem)]
      omega
  last k := by
    rw [get?_put, List.reverse_append, List.reverse_singleton, List.singleton_append,
      List.find?_cons]
    by_cases hk : key = k
    · simp [hk]
    · simp [hk, h.last]

theorem gathers_ofList (es : List (String × α)) : (ofList es).Gathers es := by
  suffices hfold : ∀ m : OrderedMap α, ∀ front, m.Gathers front →
      (es.foldl (fun m e => m.put e.1 e.2) m).Gathers (front ++ es) from
    hfold empty [] ⟨fun _ => Iff.rfl, .nil, fun _ => rfl⟩
  induction es with
  | nil =>
    intro m front h
    rwa [List.append_nil]
  | cons e es ih =>
    intro m front h
    have hrest := ih _ _ (h.put e.1 e.2)
    rwa [List.append_assoc] at hrest

end OrderedMap

namespace Symbol

open Text

/-! ### Pieces -/

/-- A stretch of a text and the offset where it starts. -/
structure Piece where
  start : Nat
  text : List Char

/-- The pieces between the commas and newlines of a list that starts at an offset. They may be empty
or blank. -/
def listPieces (pos : Nat) : List Char → List Piece
  | [] => [⟨pos, []⟩]
  | c :: cs =>
    if c = ',' ∨ c = '\n' then ⟨pos, []⟩ :: listPieces (pos + 1) cs
    else
      match listPieces (pos + 1) cs with
      | [] => [⟨pos, [c]⟩]
      | p :: ps => ⟨pos, c :: p.text⟩ :: ps

theorem isEntryChar_eq_false_iff {c : Char} : isEntryChar c = false ↔ c = ',' ∨ c = '\n' := by
  rw [isEntryChar, Bool.and_eq_false_iff, bne_eq_false_iff_eq, bne_eq_false_iff_eq]

/-- The list starts with an empty piece, and the pieces behind it, unless a character of an entry
stands there. -/
theorem listPieces_apart {rest : List Char} (h : ∀ c ∈ rest.head?, isEntryChar c = false)
    (pos : Nat) : listPieces pos rest = ⟨pos, []⟩ :: (listPieces pos rest).tail := by
  cases rest with
  | nil => rfl
  | cons c rest => rw [listPieces, if_pos (isEntryChar_eq_false_iff.1 (h c rfl))]; rfl

theorem listPieces_append {w rest : List Char} (hw : ∀ c ∈ w, isEntryChar c = true)
    (hrest : ∀ c ∈ rest.head?, isEntryChar c = false) (pos : Nat) :
    listPieces pos (w ++ rest) = ⟨pos, w⟩ :: (listPieces (pos + w.length) rest).tail := by
  induction w generalizing pos with
  | nil => exact listPieces_apart hrest pos
  | cons c w ih =>
    have hc : ¬ (c = ',' ∨ c = '\n') := fun h =>
      Bool.false_ne_true ((isEntryChar_eq_false_iff.2 h).symm.trans (hw c List.mem_cons_self))
    rw [List.cons_append, listPieces, if_neg hc, ih (fun d hd => hw d (.tail c hd))]
    simp only [List.length_cons]
    rw [Nat.add_assoc, Nat.add_comm 1]

/-! ### All pieces -/

section
variable (d : Document) (message code : String)

/-- Every piece of a list that is not blank is a pair of a name and a type, the two sides of its
only colon, or there is a report that covers it from its first to its last character that is no
white space. The pairs and the reports come in the order of the pieces. -/
inductive Accounted : List Piece → List (String × String) → List Diagnostic → Prop
  | nil : Accounted [] [] []
  | blank {start : Nat} {raw : List Char} {ps pairs ds} (hraw : ∀ c ∈ raw, isBlank c = true)
      (hrest : Accounted ps pairs ds) : Accounted (⟨start, raw⟩ :: ps) pairs ds
  | pair {start : Nat} {left right : List Char} {ps pairs ds} (hleft : ':' ∉ left)
      (hright : ':' ∉ right) (hname : trim left ≠ []) (htype : trim right ≠ [])
      (hrest : Accounted ps pairs ds) :
      Accounted (⟨start, left ++ ':' :: right⟩ :: ps)
        ((String.ofList (trim left), String.ofList (trim right)) :: pairs) ds
  | malformed {start : Nat} {lead core tail : List Char} {ps pairs ds}
      (hlead : ∀ c ∈ lead, isBlank c = true) (htail : ∀ c ∈ tail, isBlank c = true)
      (hne : core ≠ []) (hhead : core.head?.any isBlank = false)
      (hlast : core.getLast?.any isBlank = false)
      (hnone : ∀ left right, lead ++ (core ++ tail) = left ++ ':' :: right → ':' ∉ left →
        ':' ∉ right → trim left = [] ∨ trim right = [])
      (hcovers : d.Covers (d.errorAt (start + lead.length) (start + lead.length + core.length)
        message code).range core (start + lead.length))
      (hrest : Accounted ps pairs ds) :
      Accounted (⟨start, lead ++ (core ++ tail)⟩ :: ps) pairs
        (d.errorAt (start + lead.length) (start + lead.length + core.length) message code :: ds)

/-- The pairs among entries. -/
def pairsOf (es : List ListEntry) : List (String × String) :=
  es.filterMap fun
    | .pair name type => some (String.ofList name, String.ofList type)
    | .malformed _ _ => none

/-- The reports of entries of a list that starts at an offset. -/
def reportsOf (offset : Nat) (es : List ListEntry) : List Diagnostic :=
  es.filterMap fun
    | .pair _ _ => none
    | .malformed start stop => some (d.errorAt (offset + start) (offset + stop) message code)

theorem reportsOf_listEntries (offset : Nat) (cs : List Char) :
    reportsOf d message code offset (listEntries cs) =
      (malformedEntries message code offset cs).map (Finding.report d .error .syntactic) := by
  rw [malformedEntries, List.map_filterMap, reportsOf]
  refine List.filterMap_congr fun e _ => ?_
  cases e <;> rfl

variable {d message code}
variable {offset pos stop : Nat} {raw cs front back : List Char} {ps : List Piece}
  {es : List ListEntry}

theorem Accounted.cons (hd : d.chars = front ++ (raw ++ back))
    (hfront : front.length = offset + pos)
    (h : Accounted d message code ps (pairsOf es) (reportsOf d message code offset es)) :
    Accounted d message code (⟨offset + pos, raw⟩ :: ps)
      (pairsOf ((entryOf? ⟨pos, stop, raw⟩).toList ++ es))
      (reportsOf d message code offset ((entryOf? ⟨pos, stop, raw⟩).toList ++ es)) := by
  unfold entryOf?
  split
  next hblank => exact .blank (isEmpty_trim.1 hblank) h
  next hspoken =>
    split
    next name type hpair =>
      obtain ⟨left, right, rfl, hleft, hright, rfl, rfl, hname, htype⟩ :=
        pairOf?_eq_some_iff.1 hpair
      exact .pair hleft hright hname htype h
    next hpair =>
      obtain ⟨lead, tail, hraw, hlead, htail, hhead, hlast, hstart, hstop⟩ :=
        exists_core (Bool.eq_false_iff.2 hspoken)
      dsimp only
      rw [hstart, hstop]
      generalize trim raw = core at *
      subst hraw
      have hcovers : d.Covers (d.errorAt (offset + pos + lead.length)
          (offset + pos + lead.length + core.length) message code).range core
          (offset + pos + lead.length) := by
        have hsplit : d.chars = (front ++ lead) ++ (core ++ (tail ++ back)) := by simp [hd]
        rw [← hfront, ← List.length_append]
        exact Document.covers_append hsplit
      have hnone : ∀ left right, lead ++ (core ++ tail) = left ++ ':' :: right → ':' ∉ left →
          ':' ∉ right → trim left = [] ∨ trim right = [] := by
        intro left right hsides hleft hright
        by_contra hspoken
        obtain ⟨hname, htype⟩ := not_or.1 hspoken
        rw [pairOf?_eq_some_iff.2 ⟨left, right, hsides, hleft, hright, rfl, rfl, hname, htype⟩]
          at hpair
        cases hpair
      have hne : core ≠ [] := by simpa using hspoken
      have hreport := h.malformed hlead htail hne hhead hlast hnone hcovers
      simpa only [reportsOf, pairsOf, Option.toList_some, List.singleton_append,
        List.filterMap_cons, Nat.add_assoc] using hreport

theorem filterMap_entryOf (h : Hit (List Char)) (hs : List (Hit (List Char))) :
    (h :: hs).filterMap entryOf? = (entryOf? h).toList ++ hs.filterMap entryOf? := by
  rw [List.filterMap_cons]
  cases entryOf? h <;> rfl

/-- An empty piece adds nothing. -/
theorem Accounted.tail {pairs : List (String × String)} {ds : List Diagnostic} {start : Nat}
    (h : Accounted d message code (⟨start, []⟩ :: ps) pairs ds) :
    Accounted d message code ps pairs ds := by
  generalize hraw : ([] : List Char) = raw at h
  cases h with
  | blank _ hrest => exact hrest
  | pair => simp at hraw
  | malformed _ _ hne => simp [hne] at hraw

/-- The entries of the part of a list that starts at `pos`. -/
theorem accounted_search (hd : d.chars = front ++ (cs ++ back))
    (hfront : front.length = offset + pos) :
    let es := (search (run1 isEntryChar) pos cs).filterMap entryOf?
    Accounted d message code (listPieces (offset + pos) cs) (pairsOf es)
      (reportsOf d message code offset es) := by
  induction hn : cs.length using Nat.strongRecOn generalizing cs front pos with
  | _ n ih =>
    subst hn
    cases cs with
    | nil => exact .blank (List.forall_mem_nil _) .nil
    | cons c cs =>
      by_cases hc : isEntryChar c = true
      · -- The piece goes to the next comma or newline, and the search goes on there.
        obtain ⟨w, rest, hcs, hne, hw, hrest⟩ := exists_run hc cs
        have hlength : rest.length < (c :: cs).length := by
          have hpos := List.length_pos_iff.2 hne
          rw [hcs, List.length_append]
          omega
        rw [hcs] at hd ⊢
        rw [List.append_assoc] at hd
        have hbehind : d.chars = (front ++ w) ++ (rest ++ back) := by rw [hd, List.append_assoc]
        have hoffset : (front ++ w).length = offset + (pos + w.length) := by
          rw [List.length_append, hfront, Nat.add_assoc]
        have hlater := ih rest.length hlength hbehind hoffset rfl
        rw [listPieces_apart hrest] at hlater
        rw [search_append_some hne (run1_exact hne hw hrest), filterMap_entryOf,
          listPieces_append hw hrest, Nat.add_assoc]
        exact hlater.tail.cons hd hfront
      · -- A comma or newline: the piece in front of it is empty.
        rw [Bool.not_eq_true] at hc
        have hbehind : d.chars = (front ++ [c]) ++ (cs ++ back) := by simp [hd]
        have hoffset : (front ++ [c]).length = offset + (pos + 1) := by
          rw [List.length_append, hfront, List.length_singleton, Nat.add_assoc]
        have hlater := ih cs.length (by simp) hbehind hoffset rfl
        rw [search_cons_none (by simp [run1, hc]), listPieces,
          if_pos (isEntryChar_eq_false_iff.1 hc), Nat.add_assoc]
        exact .blank (List.forall_mem_nil _) hlater

theorem map_parameters (cs : List Char) :
    (parameters cs).map (fun p => (p.name, p.type)) = pairs cs := by
  rw [parameters, List.map_map]
  exact List.map_id _

/-- A list that stands in a document. -/
theorem accounted_list (hd : d.chars = front ++ (cs ++ back)) :
    Accounted d message code (listPieces front.length cs)
      ((parameters cs).map fun p => (p.name, p.type))
      ((malformedEntries message code front.length cs).map
        (Finding.report d .error .syntactic)) := by
  rw [map_parameters, ← reportsOf_listEntries]
  exact accounted_search hd (Nat.add_zero _).symm

end

/-! ### Lists in their declarations -/

/-- The text stands at an offset of the document, and every piece of it is accounted for. -/
structure ListRead (d : Document) (message code : String) (offset : Nat) (cs : List Char)
    (pairs : List (String × String)) (ds : List Diagnostic) : Prop where
  place : slice d.chars offset (offset + cs.length) = cs
  accounted : Accounted d message code (listPieces offset cs) pairs ds

section
variable {d : Document} {message code : String} {offset start : Nat} {front back : List Char}

theorem listRead {cs : List Char} (hd : d.chars = front ++ (cs ++ back))
    (hfront : front.length = offset) :
    ListRead d message code offset cs ((parameters cs).map fun p => (p.name, p.type))
      ((malformedEntries message code offset cs).map (Finding.report d .error .syntactic)) := by
  subst hfront
  exact ⟨by rw [hd, slice_append], accounted_list hd⟩

theorem listRead_signature {owner : Option String} {h : Hit Pattern.Header}
    (hd : d.chars = front ++ (h.value.parameters.text ++ back)) (hfront : front.length = offset) :
    ListRead d message code offset h.value.parameters.text
      ((signature d start owner h).parameters.map fun p => (p.name, p.type))
      ((malformedEntries message code offset h.value.parameters.text).map
        (Finding.report d .error .syntactic)) := by
  rw [signature_eq]
  exact listRead hd hfront

end

theorem exists_of_typeDeclaration {cs rest : List Char} {h : Pattern.Body}
    (hread : Pattern.typeDeclaration cs = some (h, rest)) :
    ∃ head, head ≠ [] ∧ cs = head ++ (h.body.text ++ '}' :: rest) ∧
      h.body.offset = head.length := by
  obtain ⟨r, hk, hread⟩ := Option.bind_eq_some_iff.1 hread
  obtain ⟨r', hblanks, hread⟩ := Option.bind_eq_some_iff.1 hread
  obtain ⟨⟨n, r''⟩, hn, hread⟩ := Option.bind_eq_some_iff.1 hread
  obtain ⟨body, hopen, hread⟩ := Option.bind_eq_some_iff.1 hread
  obtain ⟨_, hclose, hread⟩ := Option.bind_eq_some_iff.1 hread
  cases hread
  obtain ⟨gap, -, -, rfl⟩ := exists_of_blanks1 hblanks
  obtain ⟨name, rfl, rfl, -⟩ := Source.exists_of_identifier hn
  obtain ⟨inner, -, hr⟩ := exists_blanks r''
  rw [literal_eq_some_iff.1 hopen] at hr
  have hbody : body.takeWhile (· != '}') ++ '}' :: rest = body := by
    rw [← List.singleton_append, ← literal_eq_some_iff.1 hclose]
    exact List.takeWhile_append_dropWhile
  obtain ⟨head, hne, hcs⟩ : ∃ head, head ≠ [] ∧ cs = head ++ body := by
    refine ⟨"def".toList ++ (gap ++ (name.chars ++ (inner ++ ['{']))), by simp, ?_⟩
    rw [literal_eq_some_iff.1 hk, hr]
    simp
  refine ⟨head, hne, hcs.trans (congrArg _ hbody.symm), ?_⟩
  simp [hcs]

theorem typeDeclaration_reads : Reads (anywhere Pattern.typeDeclaration) := by
  intro _ cs h rest hread
  obtain ⟨head, hne, hcs, -⟩ := exists_of_typeDeclaration hread
  exact ⟨head ++ (h.body.text ++ ['}']), by simp [hne], by simp [hcs]⟩

theorem body_of_mem_typeHits {cs : List Char} {h : Hit Pattern.Body} (hmem : h ∈ typeHits cs) :
    ∃ front back, cs = front ++ (h.value.body.text ++ back) ∧
      front.length = h.start + h.value.body.offset := by
  obtain ⟨front, u, rest, hcs, -, hread, hstart, -⟩ :=
    isMatch_of_mem_hits typeDeclaration_reads hmem
  obtain ⟨head, -, hu, hoffset⟩ := exists_of_typeDeclaration hread
  refine ⟨front ++ head, '}' :: rest, ?_, ?_⟩
  · rw [hcs, hu, List.append_assoc]
  · rw [List.length_append, hstart, hoffset]

theorem list_of_mem_functionHits {cs : List Char} {h : Hit Pattern.Header}
    (hmem : h ∈ functionHits cs) :
    ∃ front back, cs = front ++ (h.value.parameters.text ++ back) ∧
      front.length = h.start + h.value.parameters.offset := by
  obtain ⟨front, u, rest, hcs, -, hread, hstart, -⟩ :=
    isMatch_of_mem_hits Source.functionHeader_reads hmem
  obtain ⟨e, params, tail, -, hu, -, hvalue⟩ := Source.exists_of_functionHeader hread
  rw [hvalue]
  refine ⟨front ++ e.render, ')' :: tail, ?_, ?_⟩
  · rw [hcs, hu, List.append_assoc]
  · rw [List.length_append, hstart]

/-- The parameter list of a method stands in the body of its class. -/
theorem list_of_mem_classBody {cs : List Char} {c : Hit (List Char)} {m : Hit Pattern.Header}
    (hc : c ∈ hits (anywhere (Pattern.blockHead "class")) cs)
    (hm : m ∈ functionHits (classBody cs c)) :
    ∃ front back, cs = front ++ (m.value.parameters.text ++ back) ∧
      front.length = c.stop + m.start + m.value.parameters.offset := by
  have hle : c.stop ≤ cs.length := (isMatch_of_mem_hits (Source.blockHead_reads "class") hc).le
  obtain ⟨before, behind, hcs, hbefore⟩ := exists_append_classBody hle
  obtain ⟨front, back, hbody, hfront⟩ := list_of_mem_functionHits hm
  refine ⟨before ++ front, back ++ behind, ?_, ?_⟩
  · rw [hcs, hbody]
    simp only [List.append_assoc]
  · rw [List.length_append, hbefore, hfront, Nat.add_assoc]

/-! ### The lists of a file -/

/-- A list that stands in a document is read without a gap, and in the same way whether its
malformed entries are reported or not. In a file these are the lists of its types, whose later
fields take the place of earlier ones with their name, and those of its functions: between them they
have all reports. The lists of methods are read once more, without reports. -/
theorem extract_accounted :
    (∀ (d : Document) message code front cs back, d.chars = front ++ (cs ++ back) →
      Accounted d message code (listPieces front.length cs)
        ((parameters cs).map fun p => (p.name, p.type))
        ((malformedEntries message code front.length cs).map
          (Finding.report d .error .syntactic))) ∧
    (∀ cs, quietParameters cs = parameters cs) ∧
    ∀ text uri lookup,
      let d : Document := ⟨uri, 0, text⟩
      let x := extract text uri lookup
      ∃ ofType ofFunction,
        x.diagnostics =
          (typeHits d.chars).flatMap ofType ++ (functionHits d.chars).flatMap ofFunction ∧
        (∀ h ∈ typeHits d.chars, ∃ pairs,
          ListRead d ("Invalid field definition in type " ++ String.ofList h.value.name)
            Code.invalidField (h.start + h.value.body.offset) h.value.body.text pairs (ofType h) ∧
          (typeDefinition d h).fields.Gathers pairs) ∧
        (∀ h ∈ functionHits d.chars,
          ListRead d ("Invalid parameter definition in function " ++ String.ofList h.value.name)
            Code.invalidParameter (h.start + h.value.parameters.offset) h.value.parameters.text
            ((signature d 0 none h).parameters.map fun p => (p.name, p.type)) (ofFunction h)) ∧
        (∀ name t, x.table.types.get? name = some t →
          ∃ h ∈ typeHits d.chars, t = typeDefinition d h) ∧
        (∀ name f, x.table.functions.get? name = some f →
          ∃ h ∈ functionHits d.chars, f = signature d 0 none h) ∧
        ∀ name C, x.table.classes.get? name = some C → ∀ n s, C.methods.get? n = some s →
          ∃ c ∈ hits (anywhere (Pattern.blockHead "class")) d.chars,
          ∃ m ∈ functionHits (classBody d.chars c),
            s = signature d c.stop (some C.name) m ∧
            ∃ unreported,
              ListRead d ("Invalid parameter definition in function " ++ s.name)
                Code.invalidParameter (c.stop + m.start + m.value.parameters.offset)
                m.value.parameters.text (s.parameters.map fun p => (p.name, p.type))
                unreported := by
  refine ⟨fun d message code front cs back hd => accounted_list hd, quietParameters_eq, ?_⟩
  intro text uri lookup d x
  refine ⟨fun h => (malformedEntries
      ("Invalid field definition in type " ++ String.ofList h.value.name) Code.invalidField
      (h.start + h.value.body.offset) h.value.body.text).map (Finding.report d .error .syntactic),
    fun h => (malformedEntries
      ("Invalid parameter definition in function " ++ String.ofList h.value.name)
      Code.invalidParameter (h.start + h.value.parameters.offset) h.value.parameters.text).map
        (Finding.report d .error .syntactic),
    ?reports, ?types, ?functions, ?recorded, ?declared, ?methods⟩
  case reports =>
    have hreports : x.diagnostics = (fieldFindings d.chars ++ parameterFindings d.chars).map
        (Finding.report d .error .syntactic) := rfl
    rw [hreports, List.map_append, fieldFindings, parameterFindings, List.map_flatMap,
      List.map_flatMap]
  case types =>
    intro h hmem
    obtain ⟨front, back, hd, hfront⟩ := body_of_mem_typeHits hmem
    refine ⟨pairs h.value.body.text, ?_, OrderedMap.gathers_ofList _⟩
    rw [← map_parameters]
    exact listRead hd hfront
  case functions =>
    intro h hmem
    obtain ⟨front, back, hd, hfront⟩ := list_of_mem_functionHits hmem
    exact listRead_signature hd hfront
  case recorded =>
    intro name t ht
    obtain ⟨h, hmem, rfl⟩ := List.mem_map.1 (mem_of_get?_byName ht)
    exact ⟨h, hmem, rfl⟩
  case declared =>
    intro name f hf
    obtain ⟨h, hmem, rfl⟩ := List.mem_map.1 (mem_of_get?_byName hf)
    exact ⟨h, hmem, rfl⟩
  case methods =>
    intro name C hC n s hs
    obtain ⟨c, hc, rfl⟩ := List.mem_map.1 (mem_of_get?_byName hC)
    obtain ⟨m, hm, rfl⟩ := List.mem_map.1 (mem_of_get?_byName hs)
    obtain ⟨front, back, hd, hfront⟩ := list_of_mem_classBody hc hm
    exact ⟨c, hc, m, hm, rfl, _, listRead_signature hd hfront⟩

end Symbol

end BurnLens
