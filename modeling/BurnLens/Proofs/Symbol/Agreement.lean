import BurnLens.Proofs.Check.Declaration
import BurnLens.Proofs.Check.Reported
import BurnLens.Symbol.Extract

/-!
# What the index and the usage stage take for declared

The index and the usage stage search a text for declarations, each with its own recognisers. For
types and classes the usage stage finds all that the index finds. For variables it does not: it also
accepts a declaration that only ends its line, so it may read `var my` in front of a line that the
index takes to be `var x = 1`, and where the name in front ends in a keyword (`var myvar` and then
`x = 1`) the index starts at that keyword (`Clipped`). That is the only way for the two to differ
(`recorded_declared_iff`).
-/

namespace BurnLens

theorem OrderedMap.mem_keys_ofList {α : Type} {key : String} {entries : List (String × α)} :
    key ∈ (OrderedMap.ofList entries).keys ↔ ∃ e ∈ entries, e.1 = key := by
  have hfold : ∀ m : OrderedMap α, key ∈ (entries.foldl (fun m e => m.put e.1 e.2) m).keys ↔
      key ∈ m.keys ∨ ∃ e ∈ entries, e.1 = key := by
    induction entries with
    | nil => simp
    | cons e es ih =>
      intro m
      have hput : key ∈ (m.put e.1 e.2).keys ↔ key ∈ m.keys ∨ e.1 = key := by
        rw [keys_put]
        split
        next hmem =>
          refine ⟨.inl, fun h => h.elim id fun heq => heq ▸ hmem⟩
        next => simp [eq_comm]
      rw [List.foldl_cons, ih, hput, or_assoc]
      simp
  have hempty : (OrderedMap.empty : OrderedMap α).keys = [] := rfl
  rw [OrderedMap.ofList, hfold, hempty]
  simp

theorem OrderedMap.mem_of_mem_ofList {α : Type} {es : List (String × α)} {e : String × α}
    (h : e ∈ (ofList es).entries) : e ∈ es := by
  have hfold : ∀ m : OrderedMap α, e ∈ (es.foldl (fun m e => m.put e.1 e.2) m).entries →
      e ∈ m.entries ∨ e ∈ es := by
    clear h
    induction es with
    | nil => exact fun m h => .inl h
    | cons a es ih =>
      intro m h
      rcases ih _ h with h | h
      · rcases mem_of_mem_put h with rfl | h
        · exact .inr List.mem_cons_self
        · exact .inl h
      · exact .inr (List.mem_cons_of_mem _ h)
  rcases hfold empty h with h | h
  · cases h
  · exact h

namespace Symbol

open Text Check Source

theorem mem_keys_byName {α : Type} {name : α → String} {ds : List α} {key : String} :
    key ∈ (byName name ds).keys ↔ ∃ d ∈ ds, name d = key := by
  rw [byName, OrderedMap.mem_keys_ofList]
  simp

theorem mem_of_get?_byName {α : Type} {name : α → String} {ds : List α} {key : String} {d : α}
    (h : (byName name ds).get? key = some d) : d ∈ ds := by
  obtain ⟨d', hd, heq⟩ := List.mem_map.1 (OrderedMap.mem_of_mem_ofList (OrderedMap.mem_of_get? h))
  cases heq
  exact hd

/-! ### Types -/

/-- A type starts like a block. -/
theorem blockHead_of_typeDeclaration {cs rest : List Char} {b : Pattern.Body}
    (h : Pattern.typeDeclaration cs = some (b, rest)) :
    ∃ rest', Pattern.blockHead "def" cs = some (b.name, rest') := by
  obtain ⟨r, hk, h⟩ := Option.bind_eq_some_iff.1 h
  obtain ⟨r', hblanks, h⟩ := Option.bind_eq_some_iff.1 h
  obtain ⟨⟨n, r''⟩, hn, h⟩ := Option.bind_eq_some_iff.1 h
  obtain ⟨body, hopen, h⟩ := Option.bind_eq_some_iff.1 h
  obtain ⟨rest', -, h⟩ := Option.bind_eq_some_iff.1 h
  obtain ⟨rfl, rfl⟩ := Prod.mk.inj (Option.some.inj h)
  refine ⟨body, ?_⟩
  simp only [Pattern.blockHead, hk, hblanks, hn, hopen, Option.bind_eq_bind, Option.bind_some,
    Option.pure_def]

theorem typeHits_declared {cs : List Char} {h : Hit Pattern.Body} (hmem : h ∈ typeHits cs) :
    h.value.name ∈ declaredNames cs := by
  rw [typeHits, ← hitsBehind_nil_front] at hmem
  obtain ⟨front, y, rest, rfl, hread, -⟩ := exists_of_mem_hitsBehind hmem
  obtain ⟨rest', hread⟩ := blockHead_of_typeDeclaration hread
  have hlead : "def".toList ∈ leads := by decide
  obtain ⟨m, hm, hvalue⟩ := blockHead_found hlead front hread
  have hnames : h.value.name ∈
      (hits (anywhere (Pattern.blockHead "def")) (front ++ y)).map (·.value) :=
    List.mem_map.2 ⟨m, hm, hvalue⟩
  simp only [declaredNames, List.mem_append]
  exact .inl (.inl (.inl (.inr hnames)))

/-! ### Variables -/

theorem declaratorEnds_of_equals {cs rest : List Char}
    (h : literal ['='] (Text.blanks cs) = some rest) : Pattern.declaratorEnds cs = true := by
  have hblanks : cs.dropWhile isBlank = '=' :: rest := literal_eq_some_iff.1 h
  simp [Pattern.declaratorEnds, hblanks]

/-- A variable with an initialiser starts like a declared one. -/
theorem declaredVariable_of_initialised {cs rest : List Char} {v : Pattern.Initialised}
    (h : Pattern.initialisedVariable cs = some (v, rest)) :
    ∃ (e : Declarator) (back rest' : List Char), cs = e.render ++ back ∧ e.name.chars = v.name ∧
      e.isConst = v.isConst ∧
      Pattern.declaredVariable (e.render ++ back) = some (e.read, rest') := by
  obtain ⟨⟨d, r⟩, hd, h⟩ := Option.bind_eq_some_iff.1 h
  obtain ⟨e, rfl, rfl, -⟩ := Declarator.exists_of_declarator hd
  obtain ⟨r', hequals, h⟩ := Option.bind_eq_some_iff.1 h
  obtain ⟨⟨value, r''⟩, -, h⟩ := Option.bind_eq_some_iff.1 h
  obtain ⟨rfl, -⟩ := Prod.mk.inj (Option.some.inj h)
  have hends := declaratorEnds_of_equals hequals
  cases ht : typed r with
  | none =>
    rw [ht] at hends
    refine ⟨e, r, r, rfl, rfl, rfl, ?_⟩
    simp only [Pattern.declaredVariable, hd, Option.bind_eq_bind, Option.bind_some, ht]
    rw [if_pos hends]
    rfl
  | some m =>
    rw [ht] at hends
    refine ⟨e, r, m.2, rfl, rfl, rfl, ?_⟩
    simp only [Pattern.declaredVariable, hd, Option.bind_eq_bind, Option.bind_some, ht]
    rw [if_pos hends]
    rfl

/-- A declaration that the usage stage finds ends behind the keyword of the variable, which it has
taken for its own name or type. -/
def Clipped (cs : List Char) (h : Hit Pattern.Initialised) : Prop :=
  ∃ m ∈ hits (anywhere Pattern.declaredVariable) cs,
    m.start < h.start ∧ m.stop = h.start + if h.value.isConst then 5 else 3

theorem declared_or_clipped {cs : List Char} {h : Hit Pattern.Initialised}
    (hmem : h ∈ hits (anywhere Pattern.initialisedVariable) cs) :
    h.value.name ∈ declaredNames cs ∨ Clipped cs h := by
  rw [← hitsBehind_nil_front] at hmem
  obtain ⟨front, y, rest, rfl, hread, hstart⟩ := exists_of_mem_hitsBehind hmem
  rw [List.nil_append] at hstart
  obtain ⟨e, back, rest', rfl, hname, hconst, hread⟩ := declaredVariable_of_initialised hread
  rcases declaredVariable_found e front hread with
    ⟨m, hm, -, hvalue⟩ | ⟨-, m, hm, hlt, hstop⟩
  · have hdeclared := variable_declared hm
    rw [hvalue] at hdeclared
    exact .inl (hname ▸ hdeclared)
  · have hkeyword : e.keyword.toList.length = if h.value.isConst then 5 else 3 := by
      rw [Declarator.keyword, hconst]
      cases h.value.isConst <;> rfl
    exact .inr ⟨m, hm, hstart ▸ hlt, by rw [hstop, hstart, hkeyword]⟩

/-! ### Both -/

/-- The types and classes of a file are declared; its variables are iff each one that is clipped is
declared elsewhere; and no declared name is reported. -/
theorem recorded_declared_iff (text uri : String) (lookup : FunctionLookup) :
    let t := (extract text uri lookup).table
    (∀ n ∈ t.types.keys ++ t.classes.keys, n.toList ∈ declaredNames text.toList) ∧
    ((∀ n ∈ t.vars.keys, n.toList ∈ declaredNames text.toList) ↔
      ∀ h ∈ hits (anywhere Pattern.initialisedVariable) text.toList,
        Clipped text.toList h → h.value.name ∈ declaredNames text.toList) ∧
    ∀ n : String, n.toList ∈ declaredNames text.toList →
      ∀ version, ¬ (Document.mk uri version text).Undeclared n := by
  intro t
  refine ⟨?types, ⟨?only, ?enough⟩, fun n hn version => Document.not_undeclared hn⟩
  case types =>
    intro n hn
    rcases List.mem_append.1 hn with hn | hn
    · obtain ⟨d, hd, rfl⟩ := mem_keys_byName.1 hn
      obtain ⟨h, hmem, rfl⟩ := List.mem_map.1 hd
      have hname : h.value.name ∈ declaredNames text.toList := typeHits_declared hmem
      simpa [typeDefinition] using hname
    · obtain ⟨d, hd, rfl⟩ := mem_keys_byName.1 hn
      obtain ⟨h, hmem, rfl⟩ := List.mem_map.1 hd
      have hnames : h.value ∈
          (hits (anywhere (Pattern.blockHead "class")) text.toList).map (·.value) :=
        List.mem_map_of_mem hmem
      simp only [classDefinition, String.toList_ofList, declaredNames, List.mem_append]
      exact .inl (.inl (.inl (.inl hnames)))
  case only =>
    intro hall h hmem _
    have hkey : String.ofList h.value.name ∈ t.vars.keys :=
      mem_keys_byName.2 ⟨_, List.mem_map_of_mem hmem, rfl⟩
    simpa using hall _ hkey
  case enough =>
    intro hclipped n hn
    obtain ⟨v, hv, rfl⟩ := mem_keys_byName.1 hn
    obtain ⟨h, hmem, rfl⟩ := List.mem_map.1 hv
    have hname : (String.ofList h.value.name).toList ∈ declaredNames text.toList := by
      rw [String.toList_ofList]
      rcases declared_or_clipped hmem with hdeclared | hclip
      · exact hdeclared
      · exact hclipped h hmem hclip
    exact hname

/-- The index records a variable that is reported as undeclared. -/
theorem recorded_undeclared :
    let d : Document := ⟨"file:///ws/main.bn", 1, "var myvar\nx = 5\nprint(x)\nprint(myvar)\n"⟩
    "x" ∈ (extract d.text d.uri fun _ => none).table.vars.keys ∧ d.Undeclared "x" := by
  decide +kernel

end Symbol

end BurnLens
