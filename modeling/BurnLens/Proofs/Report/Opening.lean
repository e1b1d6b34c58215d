import BurnLens.Proofs.Text.Occurs
import BurnLens.Proofs.Text.Passes
import BurnLens.Proofs.Text.Run
import BurnLens.Report.Notice

/-!
# What grammars open with

All grammars but the one of files read ` at line `, and each of them has something of its own in
front of it or behind it (`Opens`). A line that has these words once leaves a grammar one place to
read them, so the grammar reads nothing in the line if what it opens with does not stand in front
of that place (`find?_eq_none_of_opens`), and nothing in a line without the words
(`find?_eq_none_of_unmarked`).
-/

namespace BurnLens.Notice

open Text

/-! ### What was read -/

section
variable {cs r ds line column : List Char} {kind : ErrorKind} {kinds : List ErrorKind} {n : Notice}

theorem digits_of_number {word : String} (h : number word cs = some (ds, r)) :
    ds ≠ [] ∧ ∀ c ∈ ds, isDigit c = true := by
  obtain ⟨r', -, h⟩ := Option.bind_eq_some_iff.1 h
  obtain ⟨hne, hdigits, -⟩ := run1_eq_some h
  exact ⟨hne, hdigits⟩

theorem number_eq_some {word : String} (h : number word cs = some (ds, r)) :
    cs = word.toList ++ (ds ++ r) := by
  obtain ⟨r', hword, h⟩ := Option.bind_eq_some_iff.1 h
  obtain ⟨-, -, rfl⟩ := run1_eq_some h
  exact literal_eq_some_iff.1 hword

theorem atPlace_eq_some (h : atPlace cs = some ((line, column), r)) :
    cs = " at line ".toList ++ (line ++ (", column ".toList ++ (column ++ r))) := by
  obtain ⟨⟨l, r₁⟩, hline, h⟩ := Option.bind_eq_some_iff.1 h
  obtain ⟨⟨c, r₂⟩, hcolumn, h⟩ := Option.bind_eq_some_iff.1 h
  cases h
  rw [number_eq_some hline, number_eq_some hcolumn]

theorem kindAtLine_eq_some (h : kindAtLine kinds cs = some ((kind, line), r)) :
    cs = (kind.label.toList ++ " error".toList) ++ (" at line ".toList ++ (line ++ r)) := by
  obtain ⟨⟨k, r₁⟩, hkind, h⟩ := Option.bind_eq_some_iff.1 h
  obtain ⟨r₂, herror, h⟩ := Option.bind_eq_some_iff.1 h
  obtain ⟨⟨l, r₃⟩, hline, h⟩ := Option.bind_eq_some_iff.1 h
  cases h
  obtain ⟨k', -, hkind⟩ := List.exists_of_findSome?_eq_some hkind
  obtain ⟨r₄, hlabel, heq⟩ := Option.map_eq_some_iff.1 hkind
  cases heq
  rw [literal_eq_some_iff.1 hlabel, literal_eq_some_iff.1 herror, number_eq_some hline,
    List.append_assoc]

theorem kindAtPlace_eq_some (h : kindAtPlace kinds cs = some ((kind, line, column), r)) :
    cs = (kind.label.toList ++ " error".toList) ++ (" at line ".toList ++
      (line ++ (", column ".toList ++ (column ++ (": ".toList ++ r))))) := by
  obtain ⟨⟨⟨k, l⟩, r₁⟩, hkind, h⟩ := Option.bind_eq_some_iff.1 h
  obtain ⟨⟨c, r₂⟩, hcolumn, h⟩ := Option.bind_eq_some_iff.1 h
  obtain ⟨r₃, hcolon, h⟩ := Option.bind_eq_some_iff.1 h
  cases h
  rw [kindAtLine_eq_some hkind, number_eq_some hcolumn, literal_eq_some_iff.1 hcolon]

/-- A text between single quotes. -/
def quote (text : List Char) : List Char :=
  '\'' :: (text ++ ['\''])

theorem inQuotes_eq_some {text : List Char} (h : inQuotes cs = some (text, r)) :
    '\'' ∉ text ∧ cs = quote text ++ r := by
  obtain ⟨r₁, hopen, h⟩ := Option.bind_eq_some_iff.1 h
  obtain ⟨r₂, hclose, h⟩ := Option.bind_eq_some_iff.1 h
  cases h
  refine ⟨fun hmem => ?_, ?_⟩
  · simpa using List.mem_takeWhile_imp hmem
  · have hrun := run_append (· != '\'') r₁
    rw [run, literal_eq_some_iff.1 hclose] at hrun
    rw [literal_eq_some_iff.1 hopen, quote]
    simp only [List.cons_append, List.append_assoc, List.nil_append] at hrun ⊢
    exact congrArg _ hrun.symm

end

/-! ### Openings -/

/-- The words that a line has once. -/
def mark : List Char := "at line".toList

/-- What the grammar reads has `shape` in front of ` at line ` and behind it. -/
def Opens (grammar : List Char → Option (Notice × List Char))
    (shape : List Char → List Char → Prop) : Prop :=
  ∀ cs n r, grammar cs = some (n, r) →
    ∃ u v, cs = u ++ (" at line ".toList ++ v) ∧ shape u v

theorem atLine_eq : " at line ".toList = ' ' :: (mark ++ [' ']) := by decide

theorem mark_occurs (u v : List Char) : mark <:+: u ++ (" at line ".toList ++ v) := by
  rw [atLine_eq]
  exact ⟨u ++ [' '], ' ' :: v, by simp only [List.append_assoc, List.cons_append, List.nil_append]⟩

theorem mark_occurs_of_hit {cs : List Char} {m : Hit (List Char)}
    (h : m ∈ hits (anywhere atLine) cs) : mark <:+: cs := by
  rw [← hitsBehind_nil_front] at h
  obtain ⟨piece, y, rest, rfl, hread, -⟩ := exists_of_mem_hitsBehind h
  rw [number_eq_some hread]
  exact mark_occurs piece _

theorem find?_eq_none {grammar : List Char → Option (Notice × List Char)} {line : List Char}
    (h : ∀ x y, line = x ++ y → grammar y = none) : find? grammar line = none := by
  have hsearch : search grammar 0 line = [] := by
    have hnone : search grammar 0 (line ++ []) = search grammar (0 + line.length) [] :=
      search_append_none (fun x y hxy _ => by rw [List.append_nil]; exact h x y hxy) 0
    rwa [List.append_nil] at hnone
  rw [find?, firstHit?, hits_anywhere, hsearch]
  rfl

/-- The leftmost match stands behind a piece in which nothing matches. -/
theorem find?_append {grammar : List Char → Option (Notice × List Char)} {x y r : List Char}
    {n : Notice} (hx : ∀ a b, x = a ++ b → b ≠ [] → grammar (b ++ y) = none) (hne : y ≠ [])
    (hy : grammar y = some (n, r)) : find? grammar (x ++ y) = some n := by
  rw [find?, firstHit?, hits_anywhere, search_append_none hx]
  cases y with
  | nil => exact absurd rfl hne
  | cons c cs =>
    have hhere : anywhere grammar none (c :: cs) = some (n, r) := hy
    rw [search, hitsFrom]
    simp only [hhere]
    rfl

/-- The words do not overlap themselves but for the blanks around them. -/
theorem mark_border {t : List Char} (hends : t <:+ " at line ".toList)
    (hstarts : t <+: " at line ".toList) : t = " at line ".toList ∨ t = [' '] ∨ t = [] := by
  have hborders : ∀ t ∈ " at line ".toList.tails, t <+: " at line ".toList →
      t = " at line ".toList ∨ t = [' '] ∨ t = [] := by decide
  exact hborders t ((List.mem_tails t _).2 hends) hstarts

theorem mark_later {s p q : List Char} (hne : s ≠ [])
    (h : " at line ".toList ++ p = s ++ (" at line ".toList ++ q)) :
    mark <:+: s ∧ mark <:+: p := by
  have hword : mark <:+: " at line ".toList := ⟨[' '], [' '], rfl⟩
  rcases List.append_eq_append_iff.1 h with ⟨s', rfl, hp⟩ | ⟨t, ht, hq⟩
  · rw [hp]
    exact ⟨hword.trans (List.prefix_append _ s').isInfix, mark_occurs s' q⟩
  · have hstarts : t <+: " at line ".toList := by
      have hmark : " at line ".toList <+: t ++ p := hq ▸ List.prefix_append _ q
      refine List.prefix_of_prefix_length_le (List.prefix_append t p) hmark ?_
      rw [ht, List.length_append]
      omega
    rcases mark_border ⟨s, ht.symm⟩ hstarts with rfl | rfl | rfl
    · exact absurd (List.self_eq_append_left.1 ht) hne
    · -- One blank is both behind the first words and in front of the next.
      have hs : s = ' ' :: mark := List.append_cancel_right (ht.symm.trans rfl)
      have hp : p = mark ++ ' ' :: q := (List.cons.inj hq).2.symm
      rw [hs, hp]
      exact ⟨(List.suffix_cons ' ' mark).isInfix, (List.prefix_append mark _).isInfix⟩
    · rw [List.append_nil] at ht
      rw [← ht, ← show " at line ".toList ++ q = p from hq]
      exact ⟨hword, mark_occurs [] q⟩

/-- Words that stand once in a line are read there. -/
theorem mark_once {front back x v : List Char} (hfront : ¬ mark <:+: front)
    (hback : ¬ mark <:+: back)
    (h : front ++ (" at line ".toList ++ back) = x ++ (" at line ".toList ++ v)) :
    x = front ∧ v = back := by
  rcases List.append_eq_append_iff.1 h with ⟨s, rfl, hs⟩ | ⟨s, rfl, hs⟩
  · by_cases hne : s = []
    · subst hne
      exact ⟨List.append_nil front, (List.append_cancel_left hs).symm⟩
    · exact absurd (mark_later hne hs).2 hback
  · by_cases hne : s = []
    · subst hne
      exact ⟨(List.append_nil x).symm, List.append_cancel_left hs⟩
    · exact absurd ((mark_later hne hs).1.trans (List.suffix_append x s).isInfix) hfront

section
variable {grammar : List Char → Option (Notice × List Char)} {shape : List Char → List Char → Prop}

theorem find?_eq_none_of_unmarked (h : Opens grammar shape) {line : List Char}
    (hline : ¬ mark <:+: line) : find? grammar line = none := by
  refine find?_eq_none fun x y hxy => Option.eq_none_iff_forall_not_mem.2 fun m hm => hline ?_
  obtain ⟨u, v, hy, -⟩ := h y m.1 m.2 hm
  rw [hxy, hy]
  exact (mark_occurs u v).trans (List.suffix_append x _).isInfix

theorem find?_eq_none_of_opens (h : Opens grammar shape) {front back : List Char}
    (hfront : ¬ mark <:+: front) (hback : ¬ mark <:+: back)
    (hno : ∀ x u, front = x ++ u → ¬ shape u back) :
    find? grammar (front ++ (" at line ".toList ++ back)) = none := by
  refine find?_eq_none fun x y hxy => Option.eq_none_iff_forall_not_mem.2 fun m hm => ?_
  obtain ⟨u, v, hy, hshape⟩ := h y m.1 m.2 hm
  rw [hy] at hxy
  obtain ⟨hu, rfl⟩ := mark_once hfront hback (hxy.trans (List.append_assoc x u _).symm)
  exact hno x u hu.symm hshape

end

/-! ### The openings of the grammars -/

theorem expectedName_opens : Opens expectedName fun u _ =>
    u = "expected variable name".toList ∨ u = "expected expression".toList := by
  intro cs n r h
  obtain ⟨r₁, hexpected, h⟩ := Option.bind_eq_some_iff.1 h
  obtain ⟨⟨what, r₂⟩, hwhat, h⟩ := Option.bind_eq_some_iff.1 h
  obtain ⟨⟨line, r₃⟩, hline, -⟩ := Option.bind_eq_some_iff.1 h
  obtain ⟨hmem, rfl⟩ := oneOf_eq_some hwhat
  refine ⟨"expected ".toList ++ what.toList, line ++ r₃, ?_, ?_⟩
  · rw [literal_eq_some_iff.1 hexpected, number_eq_some hline, List.append_assoc]
  · rcases List.mem_pair.1 hmem with rfl | rfl
    · exact .inl rfl
    · exact .inr rfl

/-- What an error of a kind opens with. -/
def IsKind (u : List Char) : Prop :=
  ∃ kind : ErrorKind, u = kind.label.toList ++ " error".toList

theorem coupledPlace_opens : Opens coupledPlace fun _ v => mark <:+: v := by
  intro cs n r h
  obtain ⟨⟨⟨kind, line, column⟩, r₁⟩, hkind, h⟩ := Option.bind_eq_some_iff.1 h
  obtain ⟨last, hlast, -⟩ := Option.bind_eq_some_iff.1 h
  refine ⟨_, _, kindAtPlace_eq_some hkind, ?_⟩
  have hmark := mark_occurs_of_hit (List.mem_of_getLast? hlast)
  simp only [← List.append_assoc]
  exact hmark.trans (List.suffix_append _ r₁).isInfix

theorem coupledLine_opens : Opens coupledLine fun _ v => mark <:+: v := by
  intro cs n r h
  obtain ⟨⟨⟨kind, line⟩, r₁⟩, hkind, h⟩ := Option.bind_eq_some_iff.1 h
  obtain ⟨⟨c, r₂⟩, hchar, h⟩ := Option.bind_eq_some_iff.1 h
  obtain ⟨first, hfirst, -⟩ := Option.bind_eq_some_iff.1 h
  refine ⟨_, _, kindAtLine_eq_some hkind, ?_⟩
  have hmark := mark_occurs_of_hit (List.mem_of_head? hfirst)
  cases r₁ with
  | nil => cases hchar
  | cons d r₁ =>
    rw [charOf] at hchar
    split at hchar
    · cases hchar
      exact hmark.trans ((List.suffix_cons c r₂).trans (List.suffix_append line _)).isInfix
    · cases hchar

theorem missingInitialiser_opens : Opens missingInitialiser fun _ v =>
    "must have a type or initializer".toList <:+: v := by
  intro cs n r h
  obtain ⟨⟨⟨kind, line, column⟩, r₁⟩, hkind, h⟩ := Option.bind_eq_some_iff.1 h
  obtain ⟨r₂, hvariable, h⟩ := Option.bind_eq_some_iff.1 h
  obtain ⟨⟨name, r₃⟩, hname, h⟩ := Option.bind_eq_some_iff.1 h
  obtain ⟨r₄, hmust, -⟩ := Option.bind_eq_some_iff.1 h
  obtain ⟨-, -, hname⟩ := run1_eq_some hname
  refine ⟨_, _, kindAtPlace_eq_some hkind, ?_⟩
  rw [literal_eq_some_iff.1 hvariable, hname, literal_eq_some_iff.1 hmust]
  have hword : "must have a type or initializer".toList <:+:
      " must have a type or initializer".toList := ⟨[' '], [], rfl⟩
  simp only [← List.append_assoc]
  refine hword.trans ⟨_, r₄, rfl⟩

theorem kindMessage_opens : Opens kindMessage fun u v => IsKind u ∧ ':' ∈ v := by
  intro cs n r h
  obtain ⟨⟨⟨kind, line, column⟩, r₁⟩, hkind, -⟩ := Option.bind_eq_some_iff.1 h
  exact ⟨_, _, kindAtPlace_eq_some hkind, ⟨kind, rfl⟩, by simp⟩

theorem token_opens : Opens token fun u _ =>
    ∃ text, '\'' ∉ text ∧ u = "unexpected token ".toList ++ quote text := by
  intro cs n r h
  obtain ⟨r₁, hword, h⟩ := Option.bind_eq_some_iff.1 h
  obtain ⟨⟨text, r₂⟩, htext, h⟩ := Option.bind_eq_some_iff.1 h
  obtain ⟨⟨⟨line, column⟩, r₃⟩, hplace, -⟩ := Option.bind_eq_some_iff.1 h
  obtain ⟨hquote, hr⟩ := inQuotes_eq_some htext
  refine ⟨_, line ++ (", column ".toList ++ (column ++ r₃)), ?_, text, hquote, rfl⟩
  rw [literal_eq_some_iff.1 hword, hr, atPlace_eq_some hplace, List.append_assoc]

theorem undefinedName_opens : Opens undefinedName fun u _ =>
    ∃ name, '\'' ∉ name ∧ u = "undefined variable ".toList ++ quote name := by
  intro cs n r h
  obtain ⟨r₁, hword, h⟩ := Option.bind_eq_some_iff.1 h
  obtain ⟨⟨name, r₂⟩, hname, h⟩ := Option.bind_eq_some_iff.1 h
  obtain ⟨hquote, hr⟩ := inQuotes_eq_some hname
  dsimp only at h
  split at h
  · cases h
  · obtain ⟨⟨⟨line, column⟩, r₃⟩, hplace, -⟩ := Option.bind_eq_some_iff.1 h
    refine ⟨_, line ++ (", column ".toList ++ (column ++ r₃)), ?_, name, hquote, rfl⟩
    rw [literal_eq_some_iff.1 hword, hr, atPlace_eq_some hplace, List.append_assoc]

theorem mismatch_opens : Opens mismatch fun u _ => ∃ wanted got, '\'' ∉ got ∧
    u = "type mismatch: expected ".toList ++ (quote wanted ++ (", got ".toList ++ quote got)) := by
  intro cs n r h
  obtain ⟨r₁, hword, h⟩ := Option.bind_eq_some_iff.1 h
  obtain ⟨⟨wanted, r₂⟩, hwanted, h⟩ := Option.bind_eq_some_iff.1 h
  obtain ⟨r₃, hcomma, h⟩ := Option.bind_eq_some_iff.1 h
  obtain ⟨⟨got, r₄⟩, hgot, h⟩ := Option.bind_eq_some_iff.1 h
  obtain ⟨⟨⟨line, column⟩, r₅⟩, hplace, -⟩ := Option.bind_eq_some_iff.1 h
  obtain ⟨-, hr₁⟩ := inQuotes_eq_some hwanted
  obtain ⟨hquote, hr₃⟩ := inQuotes_eq_some hgot
  refine ⟨_, line ++ (", column ".toList ++ (column ++ r₅)), ?_, wanted, got, hquote, rfl⟩
  rw [literal_eq_some_iff.1 hword, hr₁, literal_eq_some_iff.1 hcomma, hr₃, atPlace_eq_some hplace]
  simp only [List.append_assoc]

/-- Texts that end in quotes end alike only if what is quoted last is the same. -/
theorem append_quote_inj {a b s t : List Char} (hs : '\'' ∉ s) (ht : '\'' ∉ t)
    (h : a ++ quote s = b ++ quote t) : a = b ∧ s = t := by
  have hopen : a ++ '\'' :: s = b ++ '\'' :: t := by
    have hclosed : a ++ '\'' :: s ++ ['\''] = b ++ '\'' :: t ++ ['\''] := by
      rw [List.append_assoc, List.append_assoc]
      exact h
    exact List.append_cancel_right hclosed
  have hreverse := congrArg List.reverse hopen
  simp only [List.reverse_append, List.reverse_cons, List.append_assoc, List.singleton_append]
    at hreverse
  obtain ⟨hst, hab⟩ := eq_of_append_cons_eq (by simpa using hs) (by simpa using ht) hreverse
  exact ⟨List.reverse_injective hab, List.reverse_injective hst⟩

end BurnLens.Notice
