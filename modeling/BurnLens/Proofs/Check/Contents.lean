import Mathlib.Data.List.Forall2
import BurnLens.Proofs.Check.Matching
import BurnLens.Proofs.Lexeme.Resume
import BurnLens.Proofs.Text.Position

/-!
# What stands in comments and literals

The syntax stage does not look into comments and string literals. Another comment may be longer, and
then every offset behind it is another one: the runs over the two texts are not the same, only the
places that they report are. So lexemes are compared by their places (`Token.Alike`), a relation
that says nothing about those of which nothing is reported, and the stacks of the two runs with
them: `structureFrom_alike`. Both for comments and for literals: `checkStructure_contents`.
-/

namespace BurnLens

/-! ### Places in two documents -/

namespace Text
variable {cs cs' u b : List Char}

/-- The place behind a text. -/
def place (cs : List Char) : Position :=
  ⟨cs.count '\n', (cs.reverse.takeWhile (· != '\n')).length⟩

/-- Behind a newline the column starts again. -/
theorem place_append_newline (u b : List Char) :
    place (u ++ '\n' :: b) = ⟨u.count '\n' + 1 + (place b).line, (place b).character⟩ := by
  have hcolumn : ∀ l r : List Char, (l ++ '\n' :: r).takeWhile (· != '\n') =
      l.takeWhile (· != '\n') := by
    intro l r
    induction l with
    | nil => rfl
    | cons c l ih => simp only [List.cons_append, List.takeWhile_cons, ih]
  have hreverse : (u ++ '\n' :: b).reverse = b.reverse ++ '\n' :: u.reverse := by simp
  rw [place, place, hreverse, hcolumn, List.count_append, List.count_cons_self]
  congr 1
  dsimp only
  omega

/-- A place depends on where the newlines are. -/
theorem place_congr (h : cs.map (· == '\n') = cs'.map (· == '\n')) : place cs = place cs' := by
  have hcount : ∀ cs : List Char, cs.count '\n' = (cs.map (· == '\n')).count true := by
    intro cs
    rw [List.count_eq_countP, List.count_eq_countP, List.countP_map]
    exact List.countP_congr fun c _ => by simp
  have hcolumn : ∀ cs : List Char, (cs.reverse.takeWhile (· != '\n')).length =
      ((cs.map (· == '\n')).reverse.takeWhile (!·)).length := by
    intro cs
    rw [← List.map_reverse, List.takeWhile_map, List.length_map]
    rfl
  rw [place, place, hcount, hcount cs', hcolumn, hcolumn cs', h]

end Text

namespace Document
open Text
variable {d d' : Document} {a u u' b x x' : List Char}

theorem positionAt_eq_place (d : Document) (o : Nat) : d.positionAt o = place (d.chars.take o) := by
  rw [positionAt, clamp, Int.toNat_natCast, ← List.take_eq_take_min]
  rfl

/-- Up to the end of what two texts have in common their places are the same. -/
theorem positionAt_front (h : d.chars = a ++ x) (h' : d'.chars = a ++ x') {o : Nat}
    (ho : o ≤ a.length) : d.positionAt o = d'.positionAt o := by
  rw [positionAt_eq_place, positionAt_eq_place, h, h', List.take_append_of_le_length ho,
    List.take_append_of_le_length ho]

/-- Behind a newline places are the same if there are as many newlines in front. -/
theorem positionAt_behind (h : d.chars = u ++ '\n' :: b) (h' : d'.chars = u' ++ '\n' :: b)
    (hcount : u.count '\n' = u'.count '\n') (o : Nat) :
    d.positionAt ↑(u.length + 1 + o) = d'.positionAt ↑(u'.length + 1 + o) := by
  have htake : ∀ v : List Char,
      (v ++ '\n' :: b).take (v.length + 1 + o) = v ++ '\n' :: b.take o := by
    intro v
    rw [Nat.add_assoc, List.take_length_add_append, Nat.add_comm 1, List.take_succ_cons]
  rw [positionAt_eq_place, positionAt_eq_place, h, h', htake, htake, place_append_newline,
    place_append_newline, hcount]

end Document

/-! ### Two runs -/

namespace Lexeme

/-- Nothing is reported of the lexeme, and it does nothing to the stacks. -/
def Idle : Lexeme → Prop
  | .quoted e => e = .closed
  | .comment => True
  | .word _ _ => False
  | .mark c => Delimiter.opened? c = none ∧ Delimiter.closed? c = none

end Lexeme

/-- Two characters stand at the same place. -/
structure Document.SamePlace (d d' : Document) (p p' : Nat) : Prop where
  start : d.positionAt p = d'.positionAt p'
  stop : d.positionAt ↑(p + 1) = d'.positionAt ↑(p' + 1)

/-- Two lexemes are the same, and at the same place if anything is reported of them. -/
structure Token.Alike (d d' : Document) (t t' : Token) : Prop where
  lexeme : t.lexeme = t'.lexeme
  place : ¬ t.lexeme.Idle →
    d.SamePlace d' t.start t'.start ∧ d.positionAt t.stop = d'.positionAt t'.stop

namespace Check
open Delimiter Lexeme
variable {d d' : Document} {opens opens' : Opens} {ts ts' : List Token}

/-- What the syntax stage makes of findings. -/
def errors (d : Document) (fs : List Finding) : List Diagnostic :=
  fs.map (Finding.report d .error .syntactic)

theorem report_congr {start stop start' stop' : Nat} {message code : String}
    (hstart : d.positionAt start = d'.positionAt start')
    (hstop : d.positionAt stop = d'.positionAt stop') :
    Finding.report d .error .syntactic ⟨start, stop, message, code⟩ =
      Finding.report d' .error .syntactic ⟨start', stop', message, code⟩ := by
  simp only [Finding.report, Document.rangeOf, hstart, hstop]

theorem unclosed_alike (hopens : ∀ k, List.Forall₂ (d.SamePlace d') (opens k) (opens' k)) :
    errors d (unclosed opens) = errors d' (unclosed opens') := by
  simp only [errors, unclosed, List.map_filterMap]
  refine List.filterMap_congr fun k _ => ?_
  have hk := hopens k
  generalize opens k = l at hk ⊢
  generalize opens' k = l' at hk ⊢
  cases hk with
  | nil => rfl
  | cons hp _ => exact congrArg some (report_congr hp.start hp.stop)

theorem alike_set (hopens : ∀ k, List.Forall₂ (d.SamePlace d') (opens k) (opens' k))
    {k : Delimiter} {l l' : List Nat} (hl : List.Forall₂ (d.SamePlace d') l l') (j : Delimiter) :
    List.Forall₂ (d.SamePlace d') (opens.set k l j) (opens'.set k l' j) := by
  by_cases hj : k = j
  · subst hj
    rwa [Opens.set_self, Opens.set_self]
  · rw [Opens.set_of_ne opens hj, Opens.set_of_ne opens' hj]
    exact hopens j

/-- Runs over lexemes that are alike report the same. -/
theorem structureFrom_alike (hopens : ∀ k, List.Forall₂ (d.SamePlace d') (opens k) (opens' k))
    (hts : List.Forall₂ (Token.Alike d d') ts ts') :
    errors d (structureFrom opens ts) = errors d' (structureFrom opens' ts') := by
  -- The offsets on the stacks differ, so the induction carries that their places do not.
  induction hts generalizing opens opens' with
  | nil => exact unclosed_alike hopens
  | @cons t t' ts ts' ht hts ih =>
    obtain ⟨start, stop, lexeme⟩ := t
    obtain ⟨start', stop', lexeme'⟩ := t'
    obtain ⟨hlexeme, hplace⟩ := ht
    dsimp only at hlexeme hplace
    subst hlexeme
    have hrest := ih hopens
    cases lexeme with
    | comment => exact hrest
    | quoted e =>
      cases e with
      | closed => exact hrest
      | newline =>
        obtain ⟨hstart, hstop⟩ := hplace nofun
        exact congrArg₂ List.cons (report_congr hstart.start hstop) hrest
      | endOfText =>
        obtain ⟨hstart, hstop⟩ := hplace nofun
        simp only [errors, structureFrom, List.map_append] at hrest ⊢
        rw [hrest]
        exact congrArg (_ ++ [·]) (report_congr hstart.start hstop)
    | word name next =>
      obtain ⟨hstart, hstop⟩ := hplace id
      simp only [structureFrom]
      split
      · exact congrArg₂ List.cons (report_congr hstart.start hstop) hrest
      · exact hrest
    | mark c =>
      cases hopened : opened? c with
      | some k =>
        have hspot := (hplace fun h => by simp [Idle, hopened] at h).1
        simp only [structureFrom, hopened]
        exact ih (alike_set hopens (.cons hspot (hopens k)))
      | none =>
        cases hclosed : closed? c with
        | none =>
          simp only [structureFrom, hopened, hclosed]
          exact hrest
        | some k =>
          have hspot := (hplace fun h => by simp [Idle, hclosed] at h).1
          have hk := hopens k
          simp only [structureFrom, hopened, hclosed]
          cases hpos : opens k with
          | nil =>
            rw [hpos] at hk
            rw [List.forall₂_nil_left_iff.1 hk]
            exact congrArg₂ List.cons (report_congr hspot.start hspot.stop) hrest
          | cons pos outer =>
            rw [hpos] at hk
            obtain ⟨pos', outer', -, houter, heq⟩ := List.forall₂_cons_left_iff.1 hk
            rw [heq]
            exact ih (alike_set hopens houter)

/-! ### The two texts -/

variable {a b u u' x x' : List Char}

/-- The lexemes in what two texts have in common. -/
theorem front_alike (h : d.chars = a ++ x) (h' : d'.chars = a ++ x') {front : List Token}
    (hfront : ∀ t ∈ front, t.start < t.stop ∧ t.stop ≤ 0 + a.length) :
    List.Forall₂ (Token.Alike d d') front front := by
  refine List.forall₂_same.2 fun t ht => ⟨rfl, fun _ => ?_⟩
  obtain ⟨hlt, hle⟩ := hfront t ht
  rw [Nat.zero_add] at hle
  exact ⟨⟨Document.positionAt_front h h' (by omega), Document.positionAt_front h h' (by omega)⟩,
    Document.positionAt_front h h' hle⟩

/-- The lexemes behind a newline. -/
theorem behind_alike (h : d.chars = u ++ '\n' :: b) (h' : d'.chars = u' ++ '\n' :: b)
    (hcount : u.count '\n' = u'.count '\n') :
    List.Forall₂ (Token.Alike d d') (tokensFrom (u.length + 1) 0 b)
      (tokensFrom (u'.length + 1) 0 b) := by
  have hplace := Document.positionAt_behind h h' hcount
  rw [← Nat.add_zero (u.length + 1), ← Nat.add_zero (u'.length + 1), tokensFrom_shift,
    tokensFrom_shift, List.forall₂_map_left_iff, List.forall₂_map_right_iff]
  exact List.forall₂_same.2 fun t _ =>
    ⟨rfl, fun _ => ⟨⟨hplace t.start, hplace (t.start + 1)⟩, hplace t.stop⟩⟩

end Check

namespace Document
open Check Lexeme
variable {d d' : Document} {a b : List Char}

/-- Another comment. -/
theorem checkStructure_comment {c c' : List Char} (hc : '\n' ∉ c) (hc' : '\n' ∉ c')
    (h : d.chars = a ++ '/' :: '/' :: (c ++ '\n' :: b))
    (h' : d'.chars = a ++ '/' :: '/' :: (c' ++ '\n' :: b))
    (hcode : ∃ t ∈ tokens d.chars, t.start = a.length) :
    d.checkStructure = d'.checkStructure := by
  rw [h, tokens, ← Nat.zero_add a.length] at hcode
  obtain ⟨front, hfront, heq⟩ := tokensFrom_front (by decide) 0 hcode
  have hbehind : List.Forall₂ (Token.Alike d d')
      (tokensFrom (0 + a.length + (c.length + 2) + 1) 0 b)
      (tokensFrom (0 + a.length + (c'.length + 2) + 1) 0 b) := by
    have hrest : ∀ v : List Char, '\n' ∉ v →
        0 + a.length + (v.length + 2) + 1 = (a ++ '/' :: '/' :: v).length + 1 ∧
        (a ++ '/' :: '/' :: v).count '\n' = a.count '\n' := by
      intro v hv
      constructor
      · simp
      · simp [List.count_append, List.count_eq_zero.2 hv]
    rw [(hrest c hc).1, (hrest c' hc').1]
    refine behind_alike (by simpa using h) (by simpa using h') ?_
    rw [(hrest c hc).2, (hrest c' hc').2]
  show errors d _ = errors d' _
  rw [structureFindings, structureFindings, h, h', tokens, tokens, heq, heq, tokensFrom_comment hc,
    tokensFrom_comment hc']
  refine structureFrom_alike (fun _ => .nil) (List.rel_append (front_alike h h' hfront) ?_)
  exact .cons ⟨rfl, fun hidle => absurd trivial hidle⟩
    (.cons ⟨rfl, fun hidle => absurd ⟨rfl, rfl⟩ hidle⟩ hbehind)

/-- Another literal of the same length. -/
theorem checkStructure_literal {quote : Char} {s s' : List Char} (hlength : s.length = s'.length)
    (hs : '\n' ∉ s) (hs' : ∀ c ∈ s', c ≠ '"' ∧ c ≠ '\'' ∧ c ≠ '\\' ∧ c ≠ '\n')
    (h : d.chars = a ++ quote :: (s ++ quote :: b))
    (h' : d'.chars = a ++ quote :: (s' ++ quote :: b))
    (hclosed : ⟨a.length, a.length + (s.length + 2), .quoted .closed⟩ ∈ tokens d.chars) :
    d.checkStructure = d'.checkStructure := by
  have hread : read quote (s ++ quote :: b) = (.quoted .closed, s.length + 2) := by
    obtain ⟨c, w, hdrop, heq⟩ := exists_of_mem_tokensFrom hclosed
    rw [h, Nat.sub_zero, List.drop_left] at hdrop
    obtain ⟨rfl, rfl⟩ := List.cons.inj hdrop
    simp only [Token.mk.injEq, Nat.add_left_cancel_iff] at heq
    exact Prod.ext heq.2.2.symm heq.2.1.symm
  have hquote := quote_of_read (congrArg Prod.fst hread)
  have hread' : read quote (s' ++ quote :: b) = (.quoted .closed, s.length + 2) := by
    have hinside : ∀ c ∈ s', c ≠ quote ∧ c ≠ '\\' ∧ c ≠ '\n' := by
      intro c hc
      obtain ⟨hdouble, hsingle, hrest⟩ := hs' c hc
      refine ⟨?_, hrest⟩
      rcases hquote with rfl | rfl
      · exact hdouble
      · exact hsingle
    have hescape : quote ≠ '\\' := by rcases hquote with rfl | rfl <;> decide
    rw [read_of_quote hquote, quotedTail_plain hescape hinside, hlength]
  have htokens : tokens d'.chars = tokens d.chars := by
    have hblank : Text.isBlank quote = false := by rcases hquote with rfl | rfl <;> decide
    have hstart : ∃ t ∈ tokensFrom 0 0 (a ++ quote :: (s ++ quote :: b)),
        t.start = 0 + a.length := by
      rw [tokens, h] at hclosed
      exact ⟨_, hclosed, (Nat.zero_add _).symm⟩
    obtain ⟨front, -, heq⟩ := tokensFrom_front hblank 0 hstart
    have hdrop : ∀ v : List Char, v.length = s.length →
        (quote :: (v ++ quote :: b)).drop (s.length + 2) = b := by
      intro v hv
      rw [← hv]
      simp
    rw [h, h', tokens, tokens, heq, heq, tokensFrom_cons, tokensFrom_cons, hread, hread',
      hdrop s rfl, hdrop s' hlength.symm]
  have hplace : ∀ o : Nat, d.positionAt o = d'.positionAt o := by
    intro o
    have hnone : ∀ v : List Char, '\n' ∉ v →
        v.map (· == '\n') = List.replicate v.length false := by
      intro v hv
      refine List.eq_replicate_iff.2 ⟨List.length_map _, ?_⟩
      rintro _ hmem
      obtain ⟨c, hc, rfl⟩ := List.mem_map.1 hmem
      exact beq_eq_false_iff_ne.2 fun heq => hv (heq ▸ hc)
    have hnew : '\n' ∉ s' := fun hmem => (hs' _ hmem).2.2.2 rfl
    rw [positionAt_eq_place, positionAt_eq_place]
    refine Text.place_congr ?_
    rw [List.map_take, List.map_take, h, h']
    simp [hnone s hs, hnone s' hnew, hlength]
  rw [checkStructure, checkStructure, structureFindings, structureFindings, htokens]
  exact List.map_congr_left fun f _ => report_congr (hplace f.start) (hplace f.stop)

/-- What stands in a comment does not matter to the syntax stage, nor how long it is; what stands in
a literal does not matter as long as its length stays the same. Here a lexeme starts at the offset
of the comment or the literal, so the scanner gets there between lexemes. -/
theorem checkStructure_contents (d d' : Document) (a b : List Char) :
    (∀ c c', '\n' ∉ c → '\n' ∉ c' →
      d.chars = a ++ '/' :: '/' :: (c ++ '\n' :: b) →
      d'.chars = a ++ '/' :: '/' :: (c' ++ '\n' :: b) →
      (∃ t ∈ tokens d.chars, t.start = a.length) →
      d.checkStructure = d'.checkStructure) ∧
    ∀ quote s s', s.length = s'.length → '\n' ∉ s →
      (∀ c ∈ s', c ≠ '"' ∧ c ≠ '\'' ∧ c ≠ '\\' ∧ c ≠ '\n') →
      d.chars = a ++ quote :: (s ++ quote :: b) →
      d'.chars = a ++ quote :: (s' ++ quote :: b) →
      ⟨a.length, a.length + (s.length + 2), .quoted .closed⟩ ∈ tokens d.chars →
      d.checkStructure = d'.checkStructure :=
  ⟨fun _ _ hc hc' h h' hcode => checkStructure_comment hc hc' h h' hcode,
    fun _ _ _ hlength hs hs' h h' hclosed => checkStructure_literal hlength hs hs' h h' hclosed⟩

/-- A keyword in front of a comment, delimiters and quotes in it, and a delimiter in a literal. -/
theorem checkStructure_contents_open :
    let d : Document := ⟨"file:///a.bn", 1, "var // (\n'(' ) [ x"⟩
    let longer : Document := ⟨"file:///a.bn", 2, "var // it's \" ] )\n'(' ) [ x"⟩
    let other : Document := ⟨"file:///a.bn", 3, "var // (\n']' ) [ x"⟩
    d.checkStructure = longer.checkStructure ∧ d.checkStructure = other.checkStructure ∧
      d.checkStructure.map (·.code) = [some Code.expectedIdentifier,
        some Code.unexpectedClosingDelimiter, some Code.unclosedDelimiter] := by
  intro d longer other
  refine ⟨?_, ?_, by decide +kernel⟩
  · exact (checkStructure_contents d longer "var ".toList "'(' ) [ x".toList).1 " (".toList
      " it's \" ] )".toList (by decide +kernel) (by decide +kernel) (by decide +kernel)
      (by decide +kernel) (by decide +kernel)
  · exact (checkStructure_contents d other "var // (\n".toList " ) [ x".toList).2 '\'' ['('] [']']
      rfl (by decide +kernel) (by simp) (by decide +kernel) (by decide +kernel)
      (by decide +kernel)

end Document

end BurnLens
