import Mathlib.Data.List.Nodup
import Mathlib.Data.List.Perm.Basic
import BurnLens.Proofs.Symbol.Found

/-!
# Import statements are read back

Single imports and groups are found by two scans that know nothing of each other, and a third one
reads the paths of a group. A path may hold the word `import`, so a statement is not told by that
word. What keeps the scans apart is what stands behind it: white space and a quote for a single
path, an opening parenthesis for a group, and a closing quote behind the word in a path
(`QuotedPath.silent`). The paths of both scans, put in the order of their offsets, are those of the
statements (`importPaths_statements`).
-/

namespace BurnLens.Source

open Text

/-! ### Statements -/

inductive Quote where
  | single
  | double

def Quote.char : Quote → Char
  | .single => '\''
  | .double => '"'

structure PathText where
  chars : List Char
  ne_nil : chars ≠ []
  unquoted : ∀ c ∈ chars, Pattern.isQuote c = false
  unenclosed : '(' ∉ chars ∧ ')' ∉ chars
  unspaced : ∀ c ∈ chars, isBlank c = false

/-- A path between quotes of either kind, mixed or not. -/
structure QuotedPath where
  opening : Quote
  path : PathText
  closing : Quote

structure Gap where
  chars : List Char
  blank : ∀ c ∈ chars, isBlank c = true

/-- A single path, or a group of paths, each of them with the gap in front of it and a last gap
behind them. -/
inductive ImportStatement where
  | single (path : QuotedPath)
  | group (entries : List (Gap × QuotedPath)) (last : Gap)

def QuotedPath.render (q : QuotedPath) : List Char :=
  q.opening.char :: (q.path.chars ++ [q.closing.char])

def entryText (e : Gap × QuotedPath) : List Char :=
  e.1.chars ++ e.2.render

/-- What stands between the parentheses of a group. -/
def groupBody (entries : List (Gap × QuotedPath)) (last : Gap) : List Char :=
  entries.flatMap entryText ++ last.chars

def ImportStatement.render : ImportStatement → List Char
  | .single q => "import".toList ++ ' ' :: q.render
  | .group entries last => "import".toList ++ ' ' :: '(' :: (groupBody entries last ++ [')'])

/-- The paths of a statement in order. -/
def ImportStatement.paths : ImportStatement → List String
  | .single q => [String.ofList q.path.chars]
  | .group entries _ => entries.map fun e => String.ofList e.2.path.chars

/-- Statements on lines of their own, with `blank` newlines behind the last. -/
def importFile (blank : Nat) (ss : List ImportStatement) : List Char :=
  joinWith '\n' (ss.map ImportStatement.render) ++ List.replicate blank '\n'

/-! ### Where nothing is found -/

section
variable {ks : List (List Char)} {a : List Char} (hks : ks ⊆ leads)

theorem Quote.isQuote_char (q : Quote) : Pattern.isQuote q.char = true := by
  cases q <;> rfl

theorem Quote.isIdentChar_char (q : Quote) : isIdentChar q.char = false := by
  cases q <;> rfl

theorem Quote.isBlank_char (q : Quote) : isBlank q.char = false := by
  cases q <;> rfl

theorem Quote.char_ne (q : Quote) : q.char ≠ '(' ∧ q.char ≠ ')' := by
  cases q <;> decide

theorem QuotedPath.apart (q : QuotedPath) (rest : List Char) : Apart (q.render ++ rest) :=
  apart_cons.2 q.opening.isIdentChar_char

/-- No character of a quoted path may stand behind the word of a statement. -/
theorem QuotedPath.not_behind (q : QuotedPath) {c : Char} (h : c ∈ q.render) :
    isBlank c = false ∧ c ≠ '(' ∧ c ≠ ')' := by
  rcases List.mem_cons.1 h with rfl | h
  · exact ⟨q.opening.isBlank_char, q.opening.char_ne⟩
  · rcases List.mem_append.1 h with h | h
    · refine ⟨q.path.unspaced c h, ?_, ?_⟩
      · rintro rfl
        exact q.path.unenclosed.1 h
      · rintro rfl
        exact q.path.unenclosed.2 h
    · rw [List.mem_singleton.1 h]
      exact ⟨q.closing.isBlank_char, q.closing.char_ne⟩

theorem QuotedPath.silent (q : QuotedPath) : Silent ["import".toList] q.render := by
  rintro rest - x y hxy hy ⟨k, hk, c, tail, hc, heq⟩
  rw [List.mem_singleton.1 hk] at heq
  -- Whatever is left of the quoted path ends in the closing quote, which the word does not have.
  have hclosing : q.closing.char ∈ y := by
    have hlast : q.render.getLast? = some q.closing.char := by
      rw [QuotedPath.render, ← List.cons_append, List.getLast?_concat]
    rw [hxy, List.getLast?_append_of_ne_nil x hy] at hlast
    exact List.mem_of_getLast? hlast
  have hword : q.closing.char ∉ "import".toList := by
    cases q.closing <;> decide
  rcases List.append_eq_append_iff.1 heq with ⟨u, hu, -⟩ | ⟨u, rfl, hu⟩
  · refine hword ?_
    rw [hu]
    exact List.mem_append_left u hclosing
  · cases u with
    | nil =>
      rw [List.append_nil] at hclosing
      exact hword hclosing
    | cons d u =>
      obtain rfl : c = d := (List.cons.inj hu).1
      have hd : c ∈ q.render := by
        rw [hxy]
        simp
      obtain ⟨hblank, hopen, -⟩ := q.not_behind hd
      rcases hc with hc | hc
      · rw [hblank] at hc
        cases hc
      · exact hopen hc

include hks in
theorem silent_of_marks (h : ∀ c ∈ a, isIdentChar c = false) : Silent ks a := by
  induction a with
  | nil => exact silent_nil
  | cons c a ih =>
    exact (ih fun d hd => h d (List.mem_cons_of_mem c hd)).cons hks (h c List.mem_cons_self)

theorem Gap.not_ident (g : Gap) : ∀ c ∈ g.chars, isIdentChar c = false :=
  fun c hc => isIdentChar_of_isBlank (g.blank c hc)

theorem Gap.silent (g : Gap) : Silent ["import".toList] g.chars :=
  silent_of_marks (by decide) g.not_ident

theorem apart_of_not_ident (h : ∀ c ∈ a, isIdentChar c = false) : Apart a :=
  fun c hc => h c (List.mem_of_mem_head? hc)

theorem silent_groupBody (entries : List (Gap × QuotedPath)) (last : Gap) :
    Silent ["import".toList] (groupBody entries last) ∧ Apart (groupBody entries last) := by
  induction entries with
  | nil => exact ⟨last.silent, apart_of_not_ident last.not_ident⟩
  | cons e es ih =>
    have hbody : groupBody (e :: es) last = e.1.chars ++ (e.2.render ++ groupBody es last) := by
      simp only [groupBody, entryText, List.flatMap_cons, List.append_assoc]
    have hpath := e.2.silent.append ih.1 ih.2
    have happ := e.2.apart (groupBody es last)
    rw [hbody]
    exact ⟨e.1.silent.append hpath happ, (apart_of_not_ident e.1.not_ident).append happ⟩

end

/-! ### What is found -/

section
variable {rest : List Char} (pos : Nat)

theorem quotedPath_render (q : QuotedPath) (rest : List Char) :
    Pattern.quotedPath (q.render ++ rest) = some (q.path.chars, rest) := by
  have hopen : charOf Pattern.isQuote (q.render ++ rest) =
      some (q.opening.char, q.path.chars ++ (q.closing.char :: rest)) := by
    simp [QuotedPath.render, charOf, q.opening.isQuote_char]
  have hpath : run1 (fun c => !Pattern.isQuote c) (q.path.chars ++ (q.closing.char :: rest)) =
      some (q.path.chars, q.closing.char :: rest) :=
    run1_exact q.path.ne_nil (by simpa using q.path.unquoted)
      (by simp [q.closing.isQuote_char])
  have hclose : charOf Pattern.isQuote (q.closing.char :: rest) = some (q.closing.char, rest) :=
    if_pos q.closing.isQuote_char
  refine Option.bind_eq_some_iff.2 ⟨_, hopen, ?_⟩
  refine Option.bind_eq_some_iff.2 ⟨_, hpath, ?_⟩
  exact Option.bind_eq_some_iff.2 ⟨_, hclose, rfl⟩

theorem singleImport_render (q : QuotedPath) (rest : List Char) :
    Pattern.singleImport ((ImportStatement.single q).render ++ rest) =
      some (⟨q.path.chars, 8⟩, rest) := by
  have hrender : (ImportStatement.single q).render ++ rest =
      "import".toList ++ ' ' :: (q.render ++ rest) := by
    show "import".toList ++ ' ' :: q.render ++ rest = _
    rw [List.append_assoc, List.cons_append]
  have hgap : blanks1 (' ' :: (q.render ++ rest)) = some (q.render ++ rest) := by
    rw [blanks1_space]
    exact congrArg some (blanks_cons_of_not q.opening.isBlank_char _)
  have hoffset : ("import".toList ++ ' ' :: (q.render ++ rest)).length - (q.render ++ rest).length =
      7 := by
    have hword : "import".toList.length = 6 := rfl
    simp only [List.length_append, List.length_cons, hword]
    omega
  rw [hrender]
  simp only [Pattern.singleImport, literal_append, hgap, quotedPath_render, hoffset,
    Option.bind_eq_bind, Option.bind_some, Option.pure_def]

theorem not_mem_groupBody (entries : List (Gap × QuotedPath)) (last : Gap) :
    ')' ∉ groupBody entries last := by
  have hgap : ∀ g : Gap, ')' ∉ g.chars := fun g h => by cases g.blank _ h
  intro h
  rcases List.mem_append.1 h with h | h
  · obtain ⟨e, -, h⟩ := List.mem_flatMap.1 h
    rcases List.mem_append.1 h with h | h
    · exact hgap e.1 h
    · exact (e.2.not_behind h).2.2 rfl
  · exact hgap last h

theorem groupImport_render (entries : List (Gap × QuotedPath)) (last : Gap) (rest : List Char) :
    Pattern.groupImport ((ImportStatement.group entries last).render ++ rest) =
      some (⟨groupBody entries last, 8⟩, rest) := by
  have hrender : (ImportStatement.group entries last).render ++ rest =
      "import".toList ++ ' ' :: '(' :: (groupBody entries last ++ ')' :: rest) := by
    show "import".toList ++ ' ' :: '(' :: (groupBody entries last ++ [')']) ++ rest = _
    rw [List.append_assoc, List.cons_append, List.cons_append, List.append_assoc,
      List.singleton_append]
  have hopen : literal ['('] (blanks (' ' :: '(' :: (groupBody entries last ++ ')' :: rest))) =
      some (groupBody entries last ++ ')' :: rest) := rfl
  have hbody : run (· != ')') (groupBody entries last ++ ')' :: rest) =
      (groupBody entries last, ')' :: rest) := run_until (not_mem_groupBody entries last) rest
  have hclose : literal [')'] (')' :: rest) = some rest := rfl
  have hoffset : ("import".toList ++ ' ' :: '(' :: (groupBody entries last ++ ')' :: rest)).length -
      (groupBody entries last ++ ')' :: rest).length = 8 := by
    have hword : "import".toList.length = 6 := rfl
    simp only [List.length_append, List.length_cons, hword]
    omega
  rw [hrender]
  simp only [Pattern.groupImport, literal_append, hopen, hbody, hclose, hoffset,
    Option.bind_eq_bind, Option.bind_some, Option.pure_def]

/-- A statement that the recogniser does not read where it starts is passed over. -/
theorem search_statement {α : Type} {r : List Char → Option (α × List Char)}
    (hled : LedBy ["import".toList] r) {a : List Char} (ha : Silent ["import".toList] a)
    (hapart : Apart a) (hrest : Apart rest) (hr : r ("import".toList ++ (a ++ rest)) = none) :
    search r pos ("import".toList ++ a ++ rest) =
      search r (pos + ("import".toList ++ a).length) rest := by
  have hword : Silent ["import".toList] "mport".toList :=
    Free.silent (by decide) (by decide)
  have htail : Silent ["import".toList] ("mport".toList ++ a) := hword.append ha hapart
  have hlength : ("import".toList ++ a).length = ("mport".toList ++ a).length + 1 := by
    simp only [List.length_append]
    show 6 + a.length = 5 + a.length + 1
    omega
  have hcons : "import".toList ++ a ++ rest = 'i' :: ("mport".toList ++ a ++ rest) := rfl
  rw [← List.append_assoc, hcons] at hr
  rw [hcons, search_cons_none hr, search_silent hled htail hrest, hlength]
  congr 1
  omega

theorem ImportStatement.render_ne_nil (s : ImportStatement) : s.render ≠ [] := by
  cases s <;> exact List.cons_ne_nil 'i' _

/-- The path of a single statement, with its offset. -/
def ImportStatement.singlePath : Nat × ImportStatement → List Symbol.ImportPath
  | (pos, .single q) => [⟨pos + 8, q.path.chars⟩]
  | _ => []

theorem search_single (s : ImportStatement) (hrest : Apart rest) :
    (search Pattern.singleImport pos (s.render ++ rest)).map
        (fun h => (⟨h.start + h.value.offset, h.value.text⟩ : Symbol.ImportPath)) =
      ImportStatement.singlePath (pos, s) ++
        (search Pattern.singleImport (pos + s.render.length) rest).map
          fun h => ⟨h.start + h.value.offset, h.value.text⟩ := by
  cases s with
  | single q =>
    rw [search_append_some (ImportStatement.render_ne_nil _) (singleImport_render q rest)]
    rfl
  | group entries last =>
    have hbody : Silent ["import".toList] (' ' :: '(' :: (groupBody entries last ++ [')'])) :=
      (((silent_groupBody entries last).1.append
        (silent_nil.cons (by decide) rfl) (apart_cons.2 rfl)).cons (by decide) rfl).cons
        (by decide) rfl
    exact congrArg _ (search_statement pos singleImport_led hbody (apart_cons.2 rfl) hrest rfl)

/-- The match of a group. -/
def ImportStatement.groupHit : Nat × ImportStatement → List (Hit Pattern.Part)
  | (pos, .group entries last) =>
    [⟨pos, pos + (ImportStatement.group entries last).render.length, ⟨groupBody entries last, 8⟩⟩]
  | _ => []

theorem search_group (s : ImportStatement) (hrest : Apart rest) :
    search Pattern.groupImport pos (s.render ++ rest) =
      ImportStatement.groupHit (pos, s) ++
        search Pattern.groupImport (pos + s.render.length) rest := by
  cases s with
  | single q =>
    have hr : Pattern.groupImport ("import".toList ++ (' ' :: q.render ++ rest)) = none := by
      have hgap : blanks (' ' :: (q.render ++ rest)) = q.render ++ rest :=
        blanks_cons_of_not q.opening.isBlank_char _
      have hopen : literal ['('] (q.render ++ rest) = none :=
        if_neg (by simpa using q.opening.char_ne.1.symm)
      simp only [Pattern.groupImport, literal_append, List.cons_append, hgap, hopen,
        Option.bind_eq_bind, Option.bind_some, Option.bind_none]
    exact search_statement pos groupImport_led (q.silent.cons (by decide) rfl) (apart_cons.2 rfl)
      hrest hr
  | group entries last =>
    exact search_append_some (ImportStatement.render_ne_nil _)
      (groupImport_render entries last rest) pos

/-- The paths of a group, the first gap of which stands at an offset. -/
def entryPaths (pos : Nat) : List (Gap × QuotedPath) → List Symbol.ImportPath
  | [] => []
  | e :: es => ⟨pos + e.1.chars.length + 1, e.2.path.chars⟩ ::
      entryPaths (pos + (entryText e).length) es

theorem search_gap (g : Gap) (rest : List Char) :
    search Pattern.quotedPath pos (g.chars ++ rest) =
      search Pattern.quotedPath (pos + g.chars.length) rest := by
  refine search_append_none (fun x y hxy hy => ?_) pos
  cases y with
  | nil => exact absurd rfl hy
  | cons c y =>
    have hblank := g.blank c (by simp [hxy])
    have hquote : Pattern.isQuote c = false := by
      refine Bool.eq_false_iff.2 fun h => ?_
      rcases Pattern.isQuote_iff.1 h with rfl | rfl <;> cases hblank
    simp [Pattern.quotedPath, charOf, hquote]

theorem search_groupBody (base : Nat) (entries : List (Gap × QuotedPath)) (last : Gap) :
    (search Pattern.quotedPath pos (groupBody entries last)).map
        (fun h => (⟨base + h.start + 1, h.value⟩ : Symbol.ImportPath)) =
      entryPaths (base + pos) entries := by
  induction entries generalizing pos with
  | nil =>
    have hgap := search_gap pos last []
    rw [List.append_nil] at hgap
    exact congrArg _ hgap
  | cons e es ih =>
    have hbody : groupBody (e :: es) last = e.1.chars ++ (e.2.render ++ groupBody es last) := by
      simp only [groupBody, entryText, List.flatMap_cons, List.append_assoc]
    have hlength : pos + e.1.chars.length + e.2.render.length = pos + (entryText e).length := by
      rw [entryText, List.length_append, Nat.add_assoc]
    have hne : e.2.render ≠ [] := List.cons_ne_nil _ _
    rw [hbody, search_gap, search_append_some hne (quotedPath_render e.2 _),
      List.map_cons, hlength, ih, entryPaths, ← Nat.add_assoc base, ← Nat.add_assoc base]

/-- The paths of a group, with their offsets. -/
def ImportStatement.groupPaths : Nat × ImportStatement → List Symbol.ImportPath
  | (pos, .group entries _) => entryPaths (pos + 8) entries
  | _ => []

end

/-! ### A file of statements -/

section
variable (blank : Nat) (ss : List ImportStatement)

def placedStatements : List (Nat × ImportStatement) :=
  placed ImportStatement.render 0 ss

theorem lineEnd_newlines (n : Nat) : LineEnd (List.replicate n '\n') := by
  intro c hc
  exact List.eq_of_mem_replicate (List.mem_of_mem_head? hc)

theorem singlePaths_importFile :
    Symbol.singlePaths (importFile blank ss) =
      (placedStatements ss).flatMap ImportStatement.singlePath := by
  have hlines := map_search_lines _ ImportStatement.singlePath singleImport_led (by decide)
    (fun pos s rest hrest => search_single pos s hrest.apart) ss (lineEnd_newlines blank) 0
  rw [search_newlines singleImport_led (by decide), List.map_nil, List.append_nil] at hlines
  exact hlines

theorem groupPaths_importFile :
    Symbol.groupPaths (importFile blank ss) =
      (placedStatements ss).flatMap ImportStatement.groupPaths := by
  have hlines := map_search_lines id ImportStatement.groupHit groupImport_led (by decide)
    (fun pos s rest hrest => by simpa using search_group pos s hrest.apart) ss
    (lineEnd_newlines blank) 0
  rw [search_newlines groupImport_led (by decide), List.map_nil, List.append_nil, List.map_id]
    at hlines
  have hhits : hits (anywhere Pattern.groupImport) (importFile blank ss) =
      (placedStatements ss).flatMap ImportStatement.groupHit := hlines
  rw [Symbol.groupPaths, hhits, List.flatMap_assoc]
  refine congrArg (List.flatMap · _) (funext fun p => ?_)
  obtain ⟨pos, s⟩ := p
  cases s with
  | single q => rfl
  | group entries last =>
    refine (List.flatMap_singleton _ _).trans ?_
    exact search_groupBody 0 (pos + 8) entries last

/-- The paths of a statement, with their offsets. -/
def ImportStatement.placedPaths (p : Nat × ImportStatement) : List Symbol.ImportPath :=
  ImportStatement.singlePath p ++ ImportStatement.groupPaths p

theorem map_entryPaths (pos : Nat) (entries : List (Gap × QuotedPath)) :
    (entryPaths pos entries).map (fun p => String.ofList p.path) =
      entries.map fun e => String.ofList e.2.path.chars := by
  induction entries generalizing pos with
  | nil => rfl
  | cons e es ih => rw [entryPaths, List.map_cons, List.map_cons, ih]

theorem map_placedPaths (p : Nat × ImportStatement) :
    (ImportStatement.placedPaths p).map (fun q => String.ofList q.path) = p.2.paths := by
  obtain ⟨pos, s⟩ := p
  cases s with
  | single q => rfl
  | group entries last => exact map_entryPaths (pos + 8) entries

/-! ### Offsets -/

theorem entryPaths_ordered (pos : Nat) (entries : List (Gap × QuotedPath)) :
    (∀ p ∈ entryPaths pos entries,
      pos ≤ p.offset ∧ p.offset < pos + (entries.flatMap entryText).length) ∧
    (entryPaths pos entries).Pairwise fun p q => p.offset < q.offset := by
  induction entries generalizing pos with
  | nil => exact ⟨nofun, .nil⟩
  | cons e es ih =>
    obtain ⟨hin, hpair⟩ := ih (pos + (entryText e).length)
    have hentry : e.1.chars.length + 1 < (entryText e).length := by
      have := List.length_pos_iff.2 e.2.path.ne_nil
      simp only [entryText, QuotedPath.render, List.length_append, List.length_cons]
      omega
    refine ⟨?_, List.pairwise_cons.2 ⟨?_, hpair⟩⟩
    · rw [List.flatMap_cons, List.length_append]
      intro p hp
      rcases List.mem_cons.1 hp with rfl | hp
      · dsimp only
        omega
      · have := hin p hp
        omega
    · intro p hp
      have := (hin p hp).1
      dsimp only
      omega

theorem placedPaths_ordered (p : Nat × ImportStatement) :
    (∀ q ∈ ImportStatement.placedPaths p,
      p.1 ≤ q.offset ∧ q.offset < p.1 + p.2.render.length) ∧
    (ImportStatement.placedPaths p).Pairwise fun q q' => q.offset < q'.offset := by
  obtain ⟨pos, s⟩ := p
  cases s with
  | single q =>
    refine ⟨?_, List.pairwise_singleton _ _⟩
    intro q' hq'
    obtain rfl := List.mem_singleton.1 hq'
    have := List.length_pos_iff.2 q.path.ne_nil
    show pos ≤ pos + 8 ∧ pos + 8 < pos + ("import".toList ++ ' ' :: q.render).length
    simp only [QuotedPath.render, List.length_append, List.length_cons]
    show pos ≤ pos + 8 ∧ pos + 8 < pos + (6 + (q.path.chars.length + 1 + 1 + 1))
    omega
  | group entries last =>
    obtain ⟨hin, hpair⟩ := entryPaths_ordered (pos + 8) entries
    refine ⟨?_, hpair⟩
    intro q hq
    have := hin q hq
    have hlength : (ImportStatement.group entries last).render.length =
        6 + ((entries.flatMap entryText).length + last.chars.length + 1 + 1 + 1) := by
      show ("import".toList ++ ' ' :: '(' :: (groupBody entries last ++ [')'])).length = _
      simp only [groupBody, List.length_append, List.length_cons, List.length_nil]
      rfl
    dsimp only
    omega

theorem placed_ordered {α : Type} (render : α → List Char) (pos : Nat) (as : List α) :
    (∀ p ∈ placed render pos as, pos ≤ p.1) ∧
      (placed render pos as).Pairwise fun p q => p.1 + (render p.2).length < q.1 := by
  induction as generalizing pos with
  | nil => exact ⟨nofun, .nil⟩
  | cons a as ih =>
    obtain ⟨hin, hpair⟩ := ih (pos + (render a).length + 1)
    refine ⟨?_, List.pairwise_cons.2 ⟨?_, hpair⟩⟩
    · intro p hp
      rcases List.mem_cons.1 hp with rfl | hp
      · exact Nat.le_refl pos
      · have := hin p hp
        omega
    · intro p hp
      have := hin p hp
      dsimp only
      omega

theorem statementPaths_ordered :
    ((placedStatements ss).flatMap ImportStatement.placedPaths).Pairwise
      fun p q => p.offset < q.offset := by
  rw [List.pairwise_flatMap]
  refine ⟨fun p _ => (placedPaths_ordered p).2, ?_⟩
  refine (placed_ordered ImportStatement.render 0 ss).2.imp ?_
  intro p q hpq x hx y hy
  have := ((placedPaths_ordered p).1 x hx).2
  have := ((placedPaths_ordered q).1 y hy).1
  omega

/-- Sorting by offset puts paths at different offsets in the one order that they can have. -/
theorem mergeSort_offsets {ps qs : List Symbol.ImportPath} (hperm : ps.Perm qs)
    (hqs : qs.Pairwise fun p q => p.offset < q.offset) :
    ps.mergeSort (fun p q => p.offset ≤ q.offset) = qs := by
  have hsorted : (ps.mergeSort fun p q => p.offset ≤ q.offset).Pairwise
      fun p q => p.offset ≤ q.offset := by
    have h : (ps.mergeSort fun p q => decide (p.offset ≤ q.offset)).Pairwise
        fun p q => decide (p.offset ≤ q.offset) = true :=
      List.pairwise_mergeSort (by simpa using fun _ _ _ => Nat.le_trans)
        (by simpa using fun _ _ => Nat.le_total _ _) ps
    simpa using h
  refine List.Perm.eq_of_pairwise ?_ hsorted (hqs.imp Nat.le_of_lt)
    ((List.mergeSort_perm ps _).trans hperm)
  intro p q hp hq hle hge
  have hp : p ∈ qs := hperm.mem_iff.1 ((List.mergeSort_perm ps _).mem_iff.1 hp)
  have hnodup : (qs.map Symbol.ImportPath.offset).Nodup :=
    List.pairwise_map.2 (hqs.imp Nat.ne_of_lt)
  exact List.inj_on_of_nodup_map hnodup hp hq (Nat.le_antisymm hle hge)

theorem map_snd_placed {α : Type} (render : α → List Char) (pos : Nat) (as : List α) :
    (placed render pos as).map Prod.snd = as := by
  induction as generalizing pos with
  | nil => rfl
  | cons a as ih => rw [placed, List.map_cons, ih]

/-- The paths of import statements on lines of their own come back as they were written, all of
them once and in order. -/
theorem importPaths_statements :
    Symbol.importPaths (importFile blank ss) = ss.flatMap ImportStatement.paths := by
  have hperm := List.flatMap_append_perm (placedStatements ss) ImportStatement.singlePath
    ImportStatement.groupPaths
  rw [Symbol.importPaths, singlePaths_importFile, groupPaths_importFile,
    mergeSort_offsets hperm (statementPaths_ordered ss), List.map_flatMap]
  calc (placedStatements ss).flatMap
        (fun p => (ImportStatement.placedPaths p).map fun q => String.ofList q.path)
      = (placedStatements ss).flatMap (fun p => p.2.paths) :=
        congrArg (List.flatMap · _) (funext map_placedPaths)
    _ = ((placedStatements ss).map Prod.snd).flatMap ImportStatement.paths :=
        (List.flatMap_map Prod.snd ImportStatement.paths _).symm
    _ = ss.flatMap ImportStatement.paths := by rw [placedStatements, map_snd_placed]

end

end BurnLens.Source
