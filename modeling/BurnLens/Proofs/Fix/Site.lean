import BurnLens.Fix
import BurnLens.Proofs.Check.Ahead
import BurnLens.Proofs.Check.Reported
import BurnLens.Proofs.Check.Use
import BurnLens.Proofs.Text.Position

/-!
# Where a fix takes place

Either kind of fix is one edit. The one puts a declaration into a line of its own
(`exists_of_declare`). The other takes place where lint has found a declaration whose name does not
come again (`Site`): it writes the keyword, one space and the name with an underscore in front, and
leaves the rest of the text as it is (`exists_of_underscore`). The search for declarations finds in
the new text what it has found in the old one, the new name in the place of the old
(`Site.names_after`).
-/

namespace BurnLens

open Text Check Source

/-- The text of the document with the edit made. -/
def Edit.result (e : Edit) (d : Document) : List Char :=
  d.chars.take (d.offsetAt e.range.start.line e.range.start.character) ++ (e.newText.toList ++
    d.chars.drop (d.offsetAt e.range.stop.line e.range.stop.character))

/-- The document with the edit made. -/
def Edit.apply (e : Edit) (d : Document) : Document :=
  { d with text := String.ofList (e.result d) }

theorem Edit.chars_apply (e : Edit) (d : Document) : (e.apply d).chars = e.result d :=
  String.toList_ofList

namespace Source

/-- The name with an underscore in front. -/
def Identifier.underscored (n : Identifier) : Identifier where
  chars := '_' :: n.chars
  start := rfl
  ident := List.forall_mem_cons.2 ⟨rfl, n.ident⟩

theorem Identifier.quote_notMem (n : Identifier) : '\'' ∉ n.chars :=
  fun h => by cases n.ident _ h

/-- A declaration as the fixes write it. -/
def Declarator.spaced (isConst : Bool) (n : Identifier) : Declarator where
  isConst := isConst
  gap := [' ']
  name := n
  ne_nil := List.cons_ne_nil _ _
  blank := by simp [isBlank, isBlankCode]

/-- The name stands on the line of the keyword, and is no equals sign. -/
theorem Declarator.spaced_ends (isConst : Bool) (n : Identifier) (rest : List Char) :
    Pattern.declaratorEnds ((Declarator.spaced isConst n).behind rest) = false := by
  obtain ⟨c, name, hname, hc, hblank⟩ := n.exists_cons
  have hequals : c ≠ '=' := by
    rintro rfl
    cases hc
  have hspace : isBlank ' ' = true := by decide
  simp [Declarator.behind, Declarator.spaced, hname, Pattern.declaratorEnds, hblank, hequals,
    hspace]

def Declarator.underscored (e : Declarator) : Declarator :=
  .spaced e.isConst e.name.underscored

@[simp] theorem Declarator.underscored_keyword (e : Declarator) :
    e.underscored.keyword = e.keyword := rfl

@[simp] theorem Declarator.underscored_gap (e : Declarator) : e.underscored.gap = [' '] := rfl

@[simp] theorem Declarator.underscored_behind (e : Declarator) (rest : List Char) :
    e.underscored.behind rest = ' ' :: '_' :: (e.name.chars ++ rest) := rfl

/-- Whether a declarator may end somewhere does not depend on the declarator. -/
theorem endingAt_some {d d' e : Pattern.Declarator} {rs : List (List Char)} {r : List Char}
    (h : endingAt d rs = some (e, r)) : endingAt d' rs = some (d', r) := by
  induction rs with
  | nil => cases h
  | cons r' rs ih =>
    rw [endingAt] at h ⊢
    split at h
    next hends =>
      rw [if_pos hends, (Prod.mk.inj (Option.some.inj h)).2]
    next hends =>
      rw [if_neg hends]
      exact ih h

theorem declaredVariable_swap {e e' : Declarator} {back rest : List Char} {d : Pattern.Declarator}
    (hback : Apart back) (h : Pattern.declaredVariable (e.render ++ back) = some (d, rest)) :
    Pattern.declaredVariable (e'.render ++ back) = some (e'.read, rest) := by
  rw [declaredVariable_eq, Declarator.declarator_render hback, Option.bind_some] at h ⊢
  exact endingAt_some h

end Source

namespace Fix

/-- A declaration, the first of its name, and the name does not come again. -/
structure Site (cs : List Char) where
  front : List Char
  decl : Declarator
  back : List Char
  found : List (Hit Pattern.Declarator)
  rest : List Char
  split : cs = front ++ (decl.render ++ back)
  apart : Apart back
  passes : Passes (anywhere Pattern.declaredVariable) (decl.render ++ back) [] front found
  read : Pattern.declaredVariable (decl.render ++ back) = some (decl.read, rest)
  first : ∀ m ∈ found, m.value.name ≠ decl.name.chars
  plain : decl.name.chars.head? ≠ some '_'
  unseen : hits (Pattern.wholeWord decl.name.chars) back = []

namespace Site
variable {cs : List Char} (s : Site cs)

theorem length_eq : cs.length = s.front.length + (s.decl.render.length + s.back.length) := by
  have h := congrArg List.length s.split
  rwa [List.length_append, List.length_append] at h

theorem take_front : cs.take s.front.length = s.front :=
  (congrArg (List.take s.front.length) s.split).trans List.take_left

theorem drop_front : cs.drop s.front.length = s.decl.render ++ s.back :=
  (congrArg (List.drop s.front.length) s.split).trans List.drop_left

theorem drop_decl : cs.drop (s.front.length + s.decl.render.length) = s.back := by
  rw [← List.drop_drop, s.drop_front, List.drop_left]

/-- The text with the underscore. -/
def after : List Char :=
  s.front ++ (s.decl.underscored.render ++ s.back)

theorem passes_after : Passes (anywhere Pattern.declaredVariable)
    (s.decl.underscored.render ++ s.back) [] s.front s.found :=
  passes_behind s.decl.underscored_keyword (Declarator.spaced_ends _ _ s.back) s.passes

theorem read_after : Pattern.declaredVariable (s.decl.underscored.render ++ s.back) =
    some (s.decl.underscored.read, s.rest) :=
  declaredVariable_swap s.apart s.read

/-- The names of the declarations found in a text with `front` and `rest`. -/
theorem names_of_passes {front back rest : List Char} {found : List (Hit Pattern.Declarator)}
    {e : Declarator}
    (hpass : Passes (anywhere Pattern.declaredVariable) (e.render ++ back) [] front found)
    (hread : Pattern.declaredVariable (e.render ++ back) = some (e.read, rest)) :
    (hits (anywhere Pattern.declaredVariable) (front ++ (e.render ++ back))).map (·.value.name) =
      found.map (·.value.name) ++ e.name.chars ::
        (hits (anywhere Pattern.declaredVariable) rest).map (·.value.name) := by
  obtain ⟨u, hu, heq⟩ := declaredVariable_reads none _ _ _ hread
  have hfound := hpass.hitsBehind_eq
  rw [heq] at hread hfound ⊢
  rw [hitsBehind_append_some hu hread, hitsBehind_nil_front, hitsBehind_anywhere] at hfound
  rw [hfound, List.map_append, List.map_cons, List.map_map]
  rfl

theorem names : (hits (anywhere Pattern.declaredVariable) cs).map (·.value.name) =
    s.found.map (·.value.name) ++ s.decl.name.chars ::
      (hits (anywhere Pattern.declaredVariable) s.rest).map (·.value.name) := by
  have h := names_of_passes s.passes s.read
  rwa [← s.split] at h

theorem names_after : (hits (anywhere Pattern.declaredVariable) s.after).map (·.value.name) =
    s.found.map (·.value.name) ++ ('_' :: s.decl.name.chars) ::
      (hits (anywhere Pattern.declaredVariable) s.rest).map (·.value.name) :=
  names_of_passes s.passes_after s.read_after

end Site

/-! ### Names in messages -/

theorem nameIn?_message {words n : List Char} (hne : n ≠ []) (hquote : '\'' ∉ n) :
    nameIn? (String.ofList ('\'' :: words))
      (String.ofList ("Variable '".toList ++ (n ++ '\'' :: words))) = some (String.ofList n) := by
  have hrun : run1 (· != '\'') (n ++ '\'' :: words) = some (n, '\'' :: words) :=
    run1_exact hne (fun c hc => bne_iff_ne.2 fun heq => hquote (heq ▸ hc)) (by simp)
  have hwords : literal ('\'' :: words) ('\'' :: words) = some [] :=
    literal_eq_some_iff.2 (List.append_nil _).symm
  have hread : quotedName (String.ofList ('\'' :: words))
      ("Variable '".toList ++ (n ++ '\'' :: words)) = some (n, []) := by
    simp only [quotedName, literal_append, hrun, String.toList_ofList, hwords, Option.bind_eq_bind,
      Option.bind_some, Option.pure_def]
  have hne : "Variable '".toList ++ (n ++ '\'' :: words) ≠ [] :=
    List.append_ne_nil_of_left_ne_nil (by decide) _
  have hhere : anywhere (quotedName (String.ofList ('\'' :: words))) ([] : List Char).getLast?
      ("Variable '".toList ++ (n ++ '\'' :: words) ++ []) = some (n, []) := by
    rw [List.append_nil]
    exact hread
  have hhits := hitsBehind_append_some hne hhere
  rw [List.append_nil, hitsBehind_nil_front] at hhits
  rw [nameIn?, firstHit?, String.toList_ofList, hhits]
  rfl

theorem nameIn?_undeclared (n : Identifier) :
    nameIn? "' is used but not declared" (undeclaredMessage n.chars) =
      some (String.ofList n.chars) := by
  have hmessage : undeclaredMessage n.chars = String.ofList
      ("Variable '".toList ++ (n.chars ++ "' is used but not declared".toList)) := by
    rw [← toList_undeclaredMessage, String.ofList_toList]
  rw [hmessage]
  exact nameIn?_message n.ne_nil n.quote_notMem

theorem nameIn?_unused (n : Identifier) :
    nameIn? "' is declared but never used" (unusedMessage n.chars) =
      some (String.ofList n.chars) := by
  have hmessage : unusedMessage n.chars = String.ofList
      ("Variable '".toList ++ (n.chars ++ "' is declared but never used".toList)) := by
    rw [← toList_unusedMessage, String.ofList_toList]
  rw [hmessage]
  exact nameIn?_message n.ne_nil n.quote_notMem

/-! ### A declaration on a line of its own -/

theorem exists_of_declare {d : Document} {g : Diagnostic} {f : Fix} (h : g ∈ d.checkUsage)
    (hoffer : offer? d g = some f) :
    ∃ (n : Identifier) (e : Edit) (front back : List Char),
      f.title = "Declare variable '" ++ String.ofList n.chars ++ "'" ∧ f.edits = [e] ∧
      g.message = undeclaredMessage n.chars ∧ d.chars = front ++ back ∧
      e.result d = front ++ ("var ".toList ++ (n.chars ++ (" = \n".toList ++ back))) := by
  obtain ⟨u, hu, rfl⟩ := Document.exists_of_mem_checkUsage h
  have hmem : u ∈ hits Pattern.plainUse d.chars := (List.mem_filter.1 hu).1
  rw [← hitsBehind_nil_front] at hmem
  obtain ⟨piece, y, rest, -, hread, -⟩ := exists_of_mem_hitsBehind hmem
  obtain ⟨n, hn, -⟩ := exists_of_plainUse hread
  have hmessage : ((undeclaredName u).report d .warning .semantics).message =
      undeclaredMessage n.chars := congrArg undeclaredMessage hn
  have hcode : ((undeclaredName u).report d .warning .semantics).code =
      some Code.undeclaredVariable := rfl
  rw [offer?, if_pos hcode, declare?, hmessage, nameIn?_undeclared] at hoffer
  cases hoffer
  have hsplit := List.take_append_drop
    (d.offsetAt (d.positionAt u.start).line 0) d.chars
  refine ⟨n, _, _, _, rfl, rfl, hmessage, hsplit.symm, ?_⟩
  simp [Edit.result, String.toList_append, Range.onLine, Finding.report, undeclaredName,
    Document.rangeOf]

/-! ### An underscore -/

theorem exists_site {d : Document} {g : Diagnostic} (h : g ∈ d.lint)
    (hcode : g.code = some Code.unusedVariable) :
    ∃ (s : Site d.chars) (stop : Nat),
      g = (unusedVariable ⟨s.front.length, stop, s.decl.read⟩).report d .hint .lint := by
  obtain ⟨found, m, after, hfound, rfl, hfirst, hplain, hunseen⟩ :=
    Document.exists_of_mem_lint h hcode
  rw [← hitsBehind_nil_front] at hfound
  obtain ⟨front, u, rest, hsplit, -, hpass, hread, hstart⟩ :=
    exists_passes declaredVariable_reads hfound
  obtain ⟨start, stop, value⟩ := m
  obtain rfl : start = front.length := hstart
  have hread' : Pattern.declaredVariable (u ++ rest) = some (value, rest) := hread
  obtain ⟨e, back, hcs, hvalue, hapart, -⟩ := exists_of_declaredVariable hread'
  subst hvalue
  rw [hcs] at hsplit hpass hread'
  have hback : d.chars.drop (front.length + e.render.length) = back := by
    rw [hsplit, ← List.append_assoc, ← List.length_append, List.drop_left]
  have hnone : hits (Pattern.wholeWord e.name.chars) back = [] := by
    have hhead : (hits (Pattern.wholeWord e.name.chars)
        (d.chars.drop (front.length + e.render.length))).head?.isSome = false := hunseen
    rw [hback] at hhead
    cases hhits : hits (Pattern.wholeWord e.name.chars) back with
    | nil => rfl
    | cons m ms => simp [hhits] at hhead
  exact ⟨⟨front, e, back, found, rest, hsplit, hapart, hpass, hread', hfirst, hplain, hnone⟩,
    stop, rfl⟩

theorem keywordAt_render (e : Declarator) (rest : List Char) :
    keywordAt (e.render ++ rest) = e.keyword := by
  rw [e.render_append, keywordAt]
  have hone : oneOf ["var", "const"] (e.keyword.toList ++ e.behind rest) =
      some (e.keyword, e.behind rest) := by
    rw [Declarator.keyword]
    split <;> rfl
  have hblanks : (blanks1 (e.behind rest)).isSome = true := by
    rw [Declarator.behind, blanks1_append e.ne_nil e.blank]
    rfl
  simp only [hone, hblanks, ↓reduceIte]

/-- The fix for the hint about a declaration. -/
theorem Site.offer?_unused {d : Document} (s : Site d.chars) (stop : Nat) :
    let g := (unusedVariable ⟨s.front.length, stop, s.decl.read⟩).report d .hint .lint
    offer? d g = some ⟨"Add underscore to '" ++ String.ofList s.decl.name.chars ++ "'", d.uri,
      [⟨g.range, s.decl.keyword ++ " _" ++ String.ofList s.decl.name.chars⟩], g⟩ := by
  intro g
  have hother : g.code ≠ some Code.undeclaredVariable := by
    show some Code.unusedVariable ≠ some Code.undeclaredVariable
    decide
  have hcode : g.code = some Code.unusedVariable := rfl
  have hmessage : g.message = unusedMessage s.decl.name.chars := rfl
  have hle : s.front.length ≤ d.chars.length := by
    have := s.length_eq
    omega
  have hstart : d.offsetAt g.range.start.line g.range.start.character = s.front.length :=
    Document.offsetAt_positionAt hle
  rw [offer?, if_neg hother, if_pos hcode, underscore?, hmessage, nameIn?_unused]
  simp only [Option.bind_eq_bind, Option.bind_some, Option.pure_def, hstart, s.drop_front,
    keywordAt_render]

theorem exists_of_underscore {d : Document} {g : Diagnostic} {f : Fix} (h : g ∈ d.lint)
    (hoffer : offer? d g = some f) :
    ∃ (s : Site d.chars) (e : Edit),
      f.title = "Add underscore to '" ++ String.ofList s.decl.name.chars ++ "'" ∧ f.edits = [e] ∧
      g.message = unusedMessage s.decl.name.chars ∧
      g.range = d.rangeOf s.front.length (s.front.length + s.decl.render.length : Nat) ∧
      e.result d = s.after := by
  have hcode : g.code = some Code.unusedVariable := by
    rcases Document.mem_lint h with ⟨f', hf', rfl⟩ | ⟨pos, rfl⟩
    · obtain ⟨m, -, rfl⟩ := List.mem_map.1 hf'
      rfl
    · cases hoffer
  obtain ⟨s, stop, rfl⟩ := exists_site h hcode
  have hlength := s.length_eq
  have hstart : d.offsetAt (d.positionAt s.front.length).line
      (d.positionAt s.front.length).character = s.front.length :=
    Document.offsetAt_positionAt (by omega)
  have hstop : d.offsetAt (d.positionAt (s.front.length + s.decl.render.length : Nat)).line
      (d.positionAt (s.front.length + s.decl.render.length : Nat)).character =
        s.front.length + s.decl.render.length :=
    Document.offsetAt_positionAt (by omega)
  rw [s.offer?_unused] at hoffer
  cases hoffer
  have hrange : ((unusedVariable ⟨s.front.length, stop, s.decl.read⟩).report d .hint .lint).range =
      d.rangeOf s.front.length (s.front.length + s.decl.render.length : Nat) := rfl
  refine ⟨s, _, rfl, rfl, rfl, hrange, ?_⟩
  rw [Edit.result]
  simp only [hrange, Document.rangeOf, hstart, hstop, s.take_front, s.drop_decl]
  rw [Site.after, Declarator.render_append]
  simp [String.toList_append]

end Fix

end BurnLens
