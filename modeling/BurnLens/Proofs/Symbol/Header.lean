import BurnLens.Proofs.Check.Declaration
import BurnLens.Proofs.Text.Overlap

/-!
# Function headers as they are written

What the recogniser of function headers has read, told as the text it was: `fun`, a name and an
opening parenthesis (`Source.FunctionHead`), a parameter list, and up to the brace what `headerEnd`
reads. Only a parameter list can hold another header. A match that starts in front of a header and
leads into it has taken its start for parameters, so they share the closing parenthesis and with it
all that follows: they end at the same brace (`functionHeader_endTogether`).
-/

namespace BurnLens.Source

open Text

/-! ### Behind the parameter list -/

/-- The optional type and the brace that end a header. -/
def headerEnd (cs : List Char) : Option (List Char × List Char) := do
  let (type, rest) := (typed cs).getD ([], cs)
  let rest ← literal ['{'] (Text.blanks rest)
  return (type, rest)

/-- What `headerEnd` has read: white space and the brace, or a colon and a name in front of them. -/
inductive HeaderEnd (rest : List Char) : List Char → List Char → Prop
  | bare {b} (hb : ∀ c ∈ b, isBlank c = true) : HeaderEnd rest [] (b ++ '{' :: rest)
  | annotated {b b' b''} (n : Identifier) (hb : ∀ c ∈ b, isBlank c = true)
      (hb' : ∀ c ∈ b', isBlank c = true) (hb'' : ∀ c ∈ b'', isBlank c = true) :
      HeaderEnd rest n.chars (b ++ ':' :: (b' ++ (n.chars ++ (b'' ++ '{' :: rest))))

variable {cs rest t : List Char}

theorem HeaderEnd.read (h : HeaderEnd rest t cs) : headerEnd cs = some (t, rest) := by
  have hblanks : ∀ {gap : List Char}, (∀ c ∈ gap, isBlank c = true) → ∀ c cs, isBlank c = false →
      Text.blanks (gap ++ c :: cs) = c :: cs := by
    intro gap hgap c cs hc
    rw [blanks_append hgap, blanks_cons_of_not hc]
  cases h with
  | @bare b hb =>
    have hbrace := hblanks hb '{' rest rfl
    have htyped : typed (b ++ '{' :: rest) = none := by
      rw [typed, hbrace]
      rfl
    rw [headerEnd, htyped]
    simp only [Option.getD_none, hbrace]
    rfl
  | @annotated b b' b'' n hb hb' hb'' =>
    have hbrace := hblanks hb'' '{' rest rfl
    have htyped : typed (b ++ ':' :: (b' ++ (n.chars ++ (b'' ++ '{' :: rest)))) =
        some (n.chars, b'' ++ '{' :: rest) := by
      rw [typed, hblanks hb _ _ rfl]
      show Text.identifier (Text.blanks (b' ++ (n.chars ++ (b'' ++ '{' :: rest)))) = _
      rw [blanks_append hb', n.blanks, n.identifier (apart_of_mark hb'' rfl)]
    rw [headerEnd, htyped]
    simp only [Option.getD_some, hbrace]
    rfl

theorem headerEnd_case (h : headerEnd cs = some (t, rest)) : HeaderEnd rest t cs := by
  cases htyped : typed cs with
  | none =>
    rw [headerEnd, htyped] at h
    obtain ⟨r, hbrace, hr⟩ := Option.bind_eq_some_iff.1 h
    obtain ⟨rfl, rfl⟩ := Prod.mk.inj (Option.some.inj hr)
    obtain ⟨b, hb, hcs⟩ := exists_blanks cs
    rw [literal_eq_some_iff.1 hbrace] at hcs
    exact hcs ▸ .bare hb
  | some m =>
    obtain ⟨type, back⟩ := m
    rw [headerEnd, htyped] at h
    obtain ⟨r, hbrace, hr⟩ := Option.bind_eq_some_iff.1 h
    obtain ⟨rfl, rfl⟩ := Prod.mk.inj (Option.some.inj hr)
    obtain ⟨b'', hb'', hback⟩ := exists_blanks back
    rw [literal_eq_some_iff.1 hbrace] at hback
    obtain ⟨b, b', n, hb, hb', hcs, -, rfl⟩ := exists_of_typed htyped
    rw [hcs, hback]
    exact .annotated n hb hb' hb''

namespace HeaderEnd

/-- What is behind the brace does not matter. -/
theorem exists_append (h : HeaderEnd rest t cs) :
    ∃ v, v ≠ [] ∧ cs = v ++ rest ∧ ∀ rest', HeaderEnd rest' t (v ++ rest') := by
  cases h with
  | @bare b hb =>
    refine ⟨b ++ ['{'], by simp, by simp, fun rest' => ?_⟩
    rw [List.append_assoc]
    exact .bare hb
  | @annotated b b' b'' n hb hb' hb'' =>
    refine ⟨b ++ ':' :: (b' ++ (n.chars ++ (b'' ++ ['{']))), by simp, by simp, fun rest' => ?_⟩
    have hend : HeaderEnd rest' n.chars _ := .annotated n hb hb' hb''
    simpa using hend

/-- A word with a gap and a name behind it lies behind the brace. -/
theorem past {w k gap y : List Char} {name : Identifier} (hne : k ≠ [])
    (hk : ∀ c ∈ k, isIdentChar c = true) (hgap : gap ≠ []) (hblank : ∀ c ∈ gap, isBlank c = true)
    (h : HeaderEnd rest t (w ++ (k ++ (gap ++ (name.chars ++ y))))) :
    ∃ w', w' ++ (k ++ (gap ++ (name.chars ++ y))) = rest := by
  have hbrace : ∀ {w b : List Char}, (∀ c ∈ b, isBlank c = true) →
      w ++ (k ++ (gap ++ (name.chars ++ y))) = b ++ '{' :: rest →
      ∃ w', w' ++ (k ++ (gap ++ (name.chars ++ y))) = rest := by
    intro w b hb h
    obtain ⟨w, h⟩ := past_blanks hb hk hne h
    exact past_mark rfl hk hne h
  generalize hcs : w ++ (k ++ (gap ++ (name.chars ++ y))) = cs at h
  cases h with
  | bare hb => exact hbrace hb hcs
  | annotated n hb hb' hb'' =>
    obtain ⟨w, hcs⟩ := past_blanks hb hk hne hcs
    obtain ⟨w, hcs⟩ := past_mark rfl hk hne hcs
    obtain ⟨w, hcs⟩ := past_blanks hb' hk hne hcs
    rcases past_word n.ident hk (apart_of_blank hgap hblank) (apart_of_mark hb'' rfl) hcs with
      ⟨-, heq⟩ | ⟨w, hcs⟩
    · exact absurd heq.symm (not_mark_of_gap hblank hb'' name rfl rfl)
    · exact hbrace hb'' hcs

end HeaderEnd

/-! ### Up to the parameter list -/

/-- `fun N (`, with any white space in between. -/
structure FunctionHead where
  gap : List Char
  name : Identifier
  inner : List Char
  ne_nil : gap ≠ []
  blank : ∀ c ∈ gap, isBlank c = true
  inner_blank : ∀ c ∈ inner, isBlank c = true

namespace FunctionHead

/-- What stands behind the keyword. -/
def behind (e : FunctionHead) (rest : List Char) : List Char :=
  e.gap ++ (e.name.chars ++ (e.inner ++ '(' :: rest))

def render (e : FunctionHead) : List Char :=
  "fun".toList ++ e.behind []

variable (e : FunctionHead) (rest : List Char)

theorem render_append : e.render ++ rest = "fun".toList ++ e.behind rest := by
  simp [render, behind]

theorem not_mem_render : ')' ∉ e.render := by
  have hblank : ∀ {b : List Char}, (∀ c ∈ b, isBlank c = true) → ')' ∉ b :=
    fun hb hmem => by cases hb _ hmem
  have hname : ')' ∉ e.name.chars := fun hmem => by cases e.name.ident _ hmem
  simp [render, behind, hblank e.blank, hblank e.inner_blank, hname]

/-- A header is read as it was written. -/
theorem read {params : List Char} (hparams : ')' ∉ params) (tail : List Char) :
    Pattern.functionHeader (e.render ++ (params ++ ')' :: tail)) =
      (headerEnd tail).map fun p => (⟨e.name.chars, ⟨params, e.render.length⟩, p.1⟩, p.2) := by
  have hname : Text.identifier (e.name.chars ++ (e.inner ++ '(' :: (params ++ ')' :: tail))) =
      some (e.name.chars, e.inner ++ '(' :: (params ++ ')' :: tail)) :=
    e.name.identifier (apart_of_mark e.inner_blank rfl)
  have hblanks : blanks1 (e.behind (params ++ ')' :: tail)) =
      some (e.name.chars ++ (e.inner ++ '(' :: (params ++ ')' :: tail))) := by
    rw [behind, blanks1_append e.ne_nil e.blank, e.name.blanks]
  have hopen : literal ['('] (Text.blanks (e.inner ++ '(' :: (params ++ ')' :: tail))) =
      some (params ++ ')' :: tail) := by
    rw [blanks_append e.inner_blank, blanks_cons_of_not rfl]
    rfl
  have hclose : literal [')'] (')' :: tail) = some tail := rfl
  have hlength : ("fun".toList ++ e.behind (params ++ ')' :: tail)).length -
      (params ++ ')' :: tail).length = e.render.length := by
    rw [← e.render_append, List.length_append, Nat.add_sub_cancel]
  rw [e.render_append, Pattern.functionHeader]
  simp only [literal_append, hblanks, hname, hopen, run_until hparams, hclose, hlength,
    Option.bind_eq_bind, Option.bind_some]
  rw [headerEnd]
  cases hbrace : literal ['{'] (Text.blanks ((typed tail).getD ([], tail)).2) with
  | none => simp [hbrace]
  | some r => simp [hbrace]

/-- A header that starts inside another one starts behind its parenthesis. -/
theorem past {e' : FunctionHead} {w y z : List Char} (hw : w ≠ [])
    (h : w ++ (e.render ++ y) = e'.render ++ z) : ∃ w', w' ++ (e.render ++ y) = z := by
  have hlead : "fun".toList ∈ leads := by decide
  obtain ⟨hne, hident⟩ := ident_of_mem_leads _ hlead
  have hapart : ∀ (e : FunctionHead) rest, Apart (e.behind rest) :=
    fun e rest => apart_of_blank e.ne_nil e.blank
  rw [e.render_append] at h ⊢
  rw [e'.render_append] at h
  obtain ⟨w, h⟩ := past_lead hlead hlead hw (hapart e _) (hapart e' _) h
  obtain ⟨w, h⟩ := past_blanks e'.blank hident hne h
  rcases past_word e'.name.ident hident (hapart e _) (apart_of_mark e'.inner_blank rfl) h with
    ⟨-, heq⟩ | ⟨w, h⟩
  · exact absurd heq.symm (not_mark_of_gap e.blank e'.inner_blank e.name rfl rfl)
  · obtain ⟨w, h⟩ := past_blanks e'.inner_blank hident hne h
    exact past_mark rfl hident hne h

end FunctionHead

theorem exists_of_functionHeader {cs rest : List Char} {h : Pattern.Header}
    (hread : Pattern.functionHeader cs = some (h, rest)) :
    ∃ (e : FunctionHead) (params tail : List Char), ')' ∉ params ∧
      cs = e.render ++ (params ++ ')' :: tail) ∧ HeaderEnd rest h.returnType tail ∧
      h = ⟨e.name.chars, ⟨params, e.render.length⟩, h.returnType⟩ := by
  suffices hsplit : ∃ (e : FunctionHead) (params tail : List Char), ')' ∉ params ∧
      cs = e.render ++ (params ++ ')' :: tail) by
    obtain ⟨e, params, tail, hparams, rfl⟩ := hsplit
    rw [e.read hparams] at hread
    obtain ⟨⟨type, r⟩, hend, heq⟩ := Option.map_eq_some_iff.1 hread
    cases heq
    exact ⟨e, params, tail, hparams, rfl, headerEnd_case hend, rfl⟩
  obtain ⟨r, hk, hread⟩ := Option.bind_eq_some_iff.1 hread
  obtain ⟨r', hblanks, hread⟩ := Option.bind_eq_some_iff.1 hread
  obtain ⟨⟨n, r''⟩, hn, hread⟩ := Option.bind_eq_some_iff.1 hread
  obtain ⟨body, hopen, hread⟩ := Option.bind_eq_some_iff.1 hread
  obtain ⟨tail, hclose, -⟩ := Option.bind_eq_some_iff.1 hread
  obtain ⟨gap, hne, hgap, rfl⟩ := exists_of_blanks1 hblanks
  obtain ⟨name, rfl, rfl, -⟩ := exists_of_identifier hn
  obtain ⟨inner, hinner, hr⟩ := exists_blanks r''
  rw [literal_eq_some_iff.1 hopen] at hr
  have hbody : body.takeWhile (· != ')') ++ ')' :: tail = body := by
    rw [← List.singleton_append, ← literal_eq_some_iff.1 hclose]
    exact List.takeWhile_append_dropWhile
  refine ⟨⟨gap, name, inner, hne, hgap, hinner⟩, body.takeWhile (· != ')'), tail, ?_, ?_⟩
  · intro hmem
    simpa using List.mem_takeWhile_imp hmem
  · rw [hbody, FunctionHead.render_append, literal_eq_some_iff.1 hk, hr]
    rfl

/-! ### Searching for headers -/

theorem functionHeader_reads : Reads (anywhere Pattern.functionHeader) := by
  intro _ cs h rest hread
  obtain ⟨e, params, tail, -, rfl, hend, -⟩ := exists_of_functionHeader hread
  obtain ⟨v, hv, rfl, -⟩ := hend.exists_append
  exact ⟨e.render ++ (params ++ ')' :: v), by simp, by simp⟩

theorem functionHeader_local : Local Pattern.functionHeader := by
  intro u rest h hread rest'
  obtain ⟨e, params, tail, hparams, hcs, hend, heq⟩ := exists_of_functionHeader hread
  obtain ⟨v, -, rfl, hagain⟩ := hend.exists_append
  have hu : u = e.render ++ (params ++ ')' :: v) := by
    refine (List.append_left_inj rest).1 ?_
    simpa using hcs
  rw [hu, List.append_assoc, List.append_assoc, List.cons_append, e.read hparams,
    (hagain rest').read, heq]
  rfl

/-- A header that leads into another one ends where that one ends. -/
theorem functionHeader_endTogether : EndTogether Pattern.functionHeader := by
  intro w cs a rest b rest' hw hread hread' hlt
  obtain ⟨e, params, tail, hparams, rfl, hend, -⟩ := exists_of_functionHeader hread
  obtain ⟨e', params', tail', hparams', hcs, hend', -⟩ := exists_of_functionHeader hread'
  obtain ⟨w, hcs⟩ := e.past hw hcs
  have hsplit : (w ++ (e.render ++ params)) ++ ')' :: tail = params' ++ ')' :: tail' := by
    rw [← hcs, List.append_assoc, List.append_assoc]
  rcases split_of_append_cons_eq hparams' hsplit with ⟨-, rfl⟩ | ⟨s, hs, rfl⟩
  · -- Both have the same closing parenthesis.
    have hsame := hend.read.symm.trans hend'.read
    exact (Prod.mk.inj (Option.some.inj hsame)).2.symm
  · -- The first one has closed its parameter list in front of the second.
    exfalso
    have hfree : ')' ∉ e.render ++ params := by
      simp [e.not_mem_render, hparams]
    obtain ⟨x, rfl⟩ := exists_append_of_not_mem hfree hs
    have htail : x ++ (e.render ++ params) ++ ')' :: tail =
        x ++ ("fun".toList ++ e.behind (params ++ ')' :: tail)) := by
      rw [List.append_assoc, List.append_assoc, e.render_append]
    rw [htail] at hend'
    have hlead := ident_of_mem_leads "fun".toList (by decide)
    obtain ⟨y, hy⟩ := hend'.past hlead.1 hlead.2 e.ne_nil e.blank
    rw [e.render_append, ← hy, List.length_append] at hlt
    exact absurd hlt (Nat.not_lt_of_le (Nat.le_add_left _ _))

end BurnLens.Source
