import Mathlib.Data.List.Infix
import BurnLens.Check.Delimiters
import BurnLens.Check.Usage
import BurnLens.Proofs.Lexeme.Code
import BurnLens.Proofs.Text.Search

/-!
# What is not code

The syntax stage cuts a text into lexemes from left to right; the usage stage searches it twice, for
string literals and for comments, and drops the comments that start inside a literal. The two
differ in two places. The search for comments takes the first `//` of a line even if that one stands
in a literal, drops it, and has then passed the comment that follows on the line. The search for
literals does not let a backslash take a newline along, so a literal that goes on behind an escaped
newline is not found, and its closing quote may open another.

These are the only places: in a text without unterminated literals the two agree on what is not code
iff every literal stands on one line and no `//` stands in front of a comment on its line
(`nonCode_agrees_iff`). Both searches are followed along the lexemes. The search for literals is in
step with them at the start of each; where the search for comments is, depends on whether it has met
a `//` on the line (`comments`).
-/

namespace BurnLens

/-- Literals and comments. -/
def Lexeme.isHidden : Lexeme → Bool
  | .quoted _ => true
  | .comment => true
  | .word _ _ => false
  | .mark _ => false

/-- The offset lies in a literal or a comment. -/
def Lexeme.Hidden (ts : List Token) (pos : Nat) : Prop :=
  ∃ t ∈ ts, t.lexeme.isHidden = true ∧ t.start ≤ pos ∧ pos < t.stop

instance (ts : List Token) (pos : Nat) : Decidable (Lexeme.Hidden ts pos) :=
  inferInstanceAs (Decidable (∃ t ∈ ts, _))

theorem Lexeme.hidden_cons {t : Token} {ts : List Token} {pos : Nat} :
    Hidden (t :: ts) pos ↔
      (t.lexeme.isHidden = true ∧ t.start ≤ pos ∧ pos < t.stop) ∨ Hidden ts pos := by
  simp [Hidden]

namespace Check

open Text Lexeme

/-! ### The search for comments -/

/-- A `//` starts in `front` on its last line, `cs` being the text behind it. -/
def Slashed (front cs : List Char) : Prop :=
  ∃ line ∈ front.tails, line ≠ [] ∧ '\n' ∉ line ∧ ['/', '/'] <+: line ++ cs

instance (front cs : List Char) : Decidable (Slashed front cs) :=
  inferInstanceAs (Decidable (∃ line ∈ front.tails, _))

theorem not_slashed_nil (cs : List Char) : ¬ Slashed [] cs := by
  simp [Slashed]

theorem slashed_concat (front : List Char) (c : Char) (cs : List Char) :
    Slashed (front ++ [c]) cs ↔ c ≠ '\n' ∧ (Slashed front (c :: cs) ∨ ['/', '/'] <+: c :: cs) := by
  simp only [Slashed, List.mem_tails, List.suffix_concat_iff]
  constructor
  · rintro ⟨line, rfl | ⟨line, rfl, hline⟩, hne, hnew, hslash⟩
    · exact absurd rfl hne
    · have hc : c ≠ '\n' := fun h => hnew (by simp [h])
      refine ⟨hc, ?_⟩
      rw [List.append_assoc, List.singleton_append] at hslash
      by_cases hempty : line = []
      · subst hempty
        exact .inr hslash
      · exact .inl ⟨line, hline, hempty, fun h => hnew (List.mem_append_left _ h), hslash⟩
  · rintro ⟨hc, ⟨line, hline, hne, hnew, hslash⟩ | hslash⟩
    · refine ⟨line ++ [c], .inr ⟨line, rfl, hline⟩, by simp, ?_, by simpa using hslash⟩
      simp [hnew, Ne.symm hc]
    · exact ⟨[c], .inr ⟨[], rfl, List.nil_suffix⟩, by simp, by simp [Ne.symm hc], hslash⟩

/-- What is left of the line. -/
def line (cs : List Char) : List Char :=
  cs.takeWhile (· != '\n')

theorem line_append_dropWhile (cs : List Char) : line cs ++ cs.dropWhile (· != '\n') = cs :=
  List.takeWhile_append_dropWhile

/-- The comments found in `cs` behind `front`: the search goes on at the end of the line if it has
met a `//` on it. -/
def comments (front cs : List Char) : List (Hit Unit) :=
  if Slashed front cs then
    search Pattern.lineComment (front.length + (line cs).length) (cs.dropWhile (· != '\n'))
  else search Pattern.lineComment front.length cs

theorem comments_nil (cs : List Char) :
    comments [] cs = hits (anywhere Pattern.lineComment) cs := by
  rw [comments, if_neg (not_slashed_nil cs)]
  rfl

theorem lineComment_eq_none {cs : List Char} (h : ¬ ['/', '/'] <+: cs) :
    Pattern.lineComment cs = none := by
  cases hr : literal ['/', '/'] cs with
  | none => simp [Pattern.lineComment, hr]
  | some rest => exact absurd ⟨rest, (literal_eq_some_iff.1 hr).symm⟩ h

theorem lineComment_slashes (cs : List Char) :
    Pattern.lineComment ('/' :: '/' :: cs) = some ((), cs.dropWhile (· != '\n')) := rfl

/-- The comment found where `cs` starts: there is a `//`, the first on its line. -/
def commentAt (front cs : List Char) : List (Hit Unit) :=
  if ['/', '/'] <+: cs ∧ ¬ Slashed front cs then
    [⟨front.length, front.length + (line cs).length, ()⟩]
  else []

theorem comments_cons (front : List Char) (c : Char) (cs : List Char) :
    comments front (c :: cs) = commentAt front (c :: cs) ++ comments (front ++ [c]) cs := by
  have hconcat := slashed_concat front c cs
  have hlength : (front ++ [c]).length = front.length + 1 := by simp
  by_cases hs : Slashed front (c :: cs)
  · rw [commentAt, if_neg fun h => h.2 hs, List.nil_append, comments, if_pos hs]
    by_cases hc : c = '\n'
    · subst hc
      have hnone : Pattern.lineComment ('\n' :: cs) = none := rfl
      rw [comments, if_neg fun h => (hconcat.1 h).1 rfl, hlength]
      exact search_cons_none hnone front.length
    · have hline : line (c :: cs) = c :: line cs := by simp [line, hc]
      have hdrop : (c :: cs).dropWhile (· != '\n') = cs.dropWhile (· != '\n') := by simp [hc]
      rw [comments, if_pos (hconcat.2 ⟨hc, .inl hs⟩), hline, hdrop, hlength, List.length_cons]
      congr 1
      omega
  · rw [comments, if_neg hs]
    by_cases hslash : ['/', '/'] <+: c :: cs
    · have hc : c ≠ '\n' := by
        rintro rfl
        simp at hslash
      have hmatch : Pattern.lineComment (line (c :: cs) ++ (c :: cs).dropWhile (· != '\n')) =
          some ((), (c :: cs).dropWhile (· != '\n')) := by
        rw [line_append_dropWhile]
        obtain ⟨tail, htail⟩ := hslash
        rw [← htail]
        rfl
      have hline : line (c :: cs) = c :: line cs := by simp [line, hc]
      have hdrop : (c :: cs).dropWhile (· != '\n') = cs.dropWhile (· != '\n') := by simp [hc]
      have hfound := search_append_some (by simp [hline]) hmatch front.length
      rw [line_append_dropWhile] at hfound
      rw [hfound, commentAt, if_pos ⟨hslash, hs⟩, comments,
        if_pos (hconcat.2 ⟨hc, .inr hslash⟩), hdrop, hline, hlength, List.length_cons]
      simp only [List.singleton_append, List.cons.injEq, true_and]
      congr 1
      omega
    · rw [commentAt, if_neg fun h => hslash h.1, comments,
        if_neg fun h => (hconcat.1 h).2.elim hs hslash, hlength]
      exact search_cons_none (lineComment_eq_none hslash) front.length

/-- The search for comments at the end of a piece: what it has found starts in the piece. -/
theorem comments_append (front piece rest : List Char) :
    ∃ here, comments front (piece ++ rest) = here ++ comments (front ++ piece) rest ∧
      ∀ h ∈ here, ∃ x y, piece = x ++ y ∧ y ≠ [] ∧ h.start = front.length + x.length ∧
        ['/', '/'] <+: y ++ rest := by
  induction piece generalizing front with
  | nil => exact ⟨[], by simp, by simp⟩
  | cons c piece ih =>
    obtain ⟨here, heq, hin⟩ := ih (front ++ [c])
    refine ⟨commentAt front (c :: piece ++ rest) ++ here, ?_, ?_⟩
    · rw [List.cons_append, comments_cons, heq, List.append_assoc front, List.singleton_append,
        List.append_assoc]
    · intro h hmem
      rcases List.mem_append.1 hmem with hmem | hmem
      · rw [commentAt] at hmem
        split at hmem
        next hslash =>
          cases List.mem_singleton.1 hmem
          exact ⟨[], c :: piece, rfl, by simp, rfl, hslash.1⟩
        next => cases hmem
      · obtain ⟨x, y, rfl, hy, hstart, hslash⟩ := hin h hmem
        refine ⟨c :: x, y, rfl, hy, ?_, hslash⟩
        simp only [hstart, List.length_append, List.length_cons, List.length_nil]
        omega

theorem le_start_of_mem_comments {front cs : List Char} {h : Hit Unit}
    (hmem : h ∈ comments front cs) : front.length ≤ h.start := by
  rw [comments] at hmem
  split at hmem
  · exact Nat.le_trans (Nat.le_add_right _ _) (le_start_of_mem_search hmem)
  · exact le_start_of_mem_search hmem

/-! ### The search for literals -/

/-- A closed literal is found iff it holds no newline. -/
theorem closeQuote_of_closed {quote : Char} (hquote : quote ≠ '\\' ∧ quote ≠ '\n') {cs : List Char}
    (h : (quotedTail quote cs).2 = .closed) :
    Pattern.closeQuote quote cs = if '\n' ∈ cs.take (quotedTail quote cs).1 then none
      else some (cs.drop (quotedTail quote cs).1) := by
  fun_induction quotedTail quote cs with
  | case1 => cases h
  | case2 c hc => cases h
  | case3 c hc d rest ih =>
    obtain rfl : c = '\\' := by simpa using hc
    by_cases hd : d = '\n'
    · simp [Pattern.closeQuote, hd]
    · simp [Pattern.closeQuote, hd, ih h, Ne.symm hd]
  | case4 c cs hc hq =>
    obtain rfl : c = quote := by simpa using hq
    rw [Pattern.closeQuote]
    · simp [Ne.symm hquote.2]
    · intro d rest hd
      exact absurd hd hquote.1
  | case5 c cs hc hq hn => cases h
  | case6 c cs hc hq hn ih =>
    have hc' : c ≠ '\\' := by simpa using hc
    have hq' : c ≠ quote := by simpa using hq
    have hn' : c ≠ '\n' := by simpa using hn
    rw [Pattern.closeQuote]
    · simp [hc', hq', hn', ih h, Ne.symm hn']
    · intro d rest hd
      exact absurd hd hc'

theorem notMem_of_closeQuote {quote : Char} (hquote : quote ≠ '\n') {cs rest : List Char}
    (h : Pattern.closeQuote quote cs = some rest) : ∃ body, cs = body ++ rest ∧ '\n' ∉ body := by
  fun_induction Pattern.closeQuote quote cs with
  | case1 => cases h
  | case2 c cs hc => cases h
  | case3 c cs hc ih =>
    obtain ⟨body, rfl, hbody⟩ := ih h
    have hc' : c ≠ '\n' := by simpa using hc
    exact ⟨'\\' :: c :: body, rfl, by simp [hbody, Ne.symm hc']⟩
  | case4 c cs hc hq =>
    cases h
    have hq' : c = quote := by simpa using hq
    exact ⟨[c], rfl, by simp [hq', Ne.symm hquote]⟩
  | case5 c cs hc hq hn => cases h
  | case6 c cs hc hq hn ih =>
    obtain ⟨body, rfl, hbody⟩ := ih h
    simp only [Bool.or_eq_true, beq_iff_eq, not_or] at hn
    exact ⟨c :: body, rfl, by simp [hbody, Ne.symm hn.2]⟩

theorem stringLiteral_eq_none {c : Char} (h : ¬ (c = '"' ∨ c = '\'')) (cs : List Char) :
    Pattern.stringLiteral (c :: cs) = none := by
  simp [Pattern.stringLiteral, charOf, Pattern.isQuote_iff, h]

theorem stringLiteral_cons {c : Char} (h : c = '"' ∨ c = '\'') (cs : List Char) :
    Pattern.stringLiteral (c :: cs) = (Pattern.closeQuote c cs).map ((), ·) := by
  cases hr : Pattern.closeQuote c cs <;>
    simp [Pattern.stringLiteral, charOf, Pattern.isQuote_iff, h, hr]

/-- A closed literal is found iff it stands on one line. -/
theorem stringLiteral_of_closed {c : Char} (hc : c = '"' ∨ c = '\'') {cs : List Char}
    (h : (quotedTail c cs).2 = .closed) :
    Pattern.stringLiteral (c :: cs) =
      if '\n' ∈ (c :: cs).take ((quotedTail c cs).1 + 1) then none
      else some ((), (c :: cs).drop ((quotedTail c cs).1 + 1)) := by
  have hquote : c ≠ '\\' ∧ c ≠ '\n' := by
    rcases hc with rfl | rfl <;> decide
  rw [stringLiteral_cons hc, closeQuote_of_closed hquote h, List.take_succ_cons,
    List.drop_succ_cons]
  by_cases hnew : '\n' ∈ cs.take (quotedTail c cs).1
  · simp [hnew]
  · simp [hnew, Ne.symm hquote.2]

/-- A literal that is found on a line ends on it. -/
theorem stringLiteral_within {cs rest rest' : List Char} {a : Unit} (hcs : '\n' ∉ cs)
    (hne : cs ≠ []) (hrest : rest.head?.all (· == '\n') = true)
    (h : Pattern.stringLiteral (cs ++ rest) = some (a, rest')) :
    ∃ u v, u ≠ [] ∧ cs = u ++ v ∧ rest' = v ++ rest := by
  cases cs with
  | nil => exact absurd rfl hne
  | cons c cs =>
    by_cases hc : c = '"' ∨ c = '\''
    · rw [List.cons_append, stringLiteral_cons hc] at h
      obtain ⟨closed, hclose, heq⟩ := Option.map_eq_some_iff.1 h
      cases heq
      have hquote : c ≠ '\n' := by
        rcases hc with rfl | rfl <;> decide
      obtain ⟨body, hbody, hnew⟩ := notMem_of_closeQuote hquote hclose
      rcases List.append_eq_append_iff.1 hbody with ⟨extra, rfl, hextra⟩ | ⟨v, rfl, hv⟩
      · cases extra with
        | nil => exact ⟨c :: cs, [], by simp, by simp, by simpa using hextra.symm⟩
        | cons d extra =>
          -- The literal would go on behind the end of the line.
          have hd : d = '\n' := by simpa [hextra] using hrest
          exact absurd (by simp [hd]) hnew
      · exact ⟨c :: body, v, by simp, rfl, hv⟩
    · rw [List.cons_append, stringLiteral_eq_none hc] at h
      cases h

/-! ### Both searches along the lexemes -/

/-- The offset lies in a literal that was found, or in a comment that does not start in one. -/
def Covered (strings comments : List (Hit Unit)) (pos : Nat) : Prop :=
  (∃ s ∈ strings, s.start ≤ pos ∧ pos < s.stop) ∨
    ∃ c ∈ comments, (c.start ≤ pos ∧ pos < c.stop) ∧
      ∀ s ∈ strings, ¬ (s.start ≤ c.start ∧ c.start < s.stop)

theorem nonCode_contains_iff (cs : List Char) (pos : Nat) :
    (nonCode cs).any (·.contains pos) = true ↔
      Covered (hits (anywhere Pattern.stringLiteral) cs) (hits (anywhere Pattern.lineComment) cs)
        pos := by
  simp only [nonCode, Region.contains, Covered, List.any_append, List.any_map, List.any_filter,
    Bool.or_eq_true, List.any_eq_true, Function.comp_apply, Bool.and_eq_true, decide_eq_true_eq,
    Bool.not_eq_true', List.any_eq_false]
  refine or_congr Iff.rfl (exists_congr fun c => and_congr_right fun _ => ?_)
  exact and_comm

/-- What is found up to an offset and what is found from it on do not meet, although a comment that
is dropped may reach over it. -/
theorem covered_append {strings strings' comments comments' : List (Hit Unit)} {stop pos : Nat}
    (hs : ∀ s ∈ strings, s.stop ≤ stop) (hs' : ∀ s ∈ strings', stop ≤ s.start)
    (hc : ∀ c ∈ comments, c.start < stop) (hc' : ∀ c ∈ comments', stop ≤ c.start) :
    Covered (strings ++ strings') (comments ++ comments') pos ↔
      Covered strings comments pos ∨ Covered strings' comments' pos := by
  simp only [Covered, List.mem_append]
  constructor
  · rintro (⟨s, hmem | hmem, hpos⟩ | ⟨c, hmem | hmem, hpos, hout⟩)
    · exact .inl (.inl ⟨s, hmem, hpos⟩)
    · exact .inr (.inl ⟨s, hmem, hpos⟩)
    · exact .inl (.inr ⟨c, hmem, hpos, fun s h => hout s (.inl h)⟩)
    · exact .inr (.inr ⟨c, hmem, hpos, fun s h => hout s (.inr h)⟩)
  · rintro ((⟨s, hmem, hpos⟩ | ⟨c, hmem, hpos, hout⟩) | (⟨s, hmem, hpos⟩ | ⟨c, hmem, hpos, hout⟩))
    · exact .inl ⟨s, .inl hmem, hpos⟩
    · refine .inr ⟨c, .inl hmem, hpos, ?_⟩
      rintro s (h | h)
      · exact hout s h
      · have := hs' s h
        have := hc c hmem
        omega
    · exact .inl ⟨s, .inr hmem, hpos⟩
    · refine .inr ⟨c, .inr hmem, hpos, ?_⟩
      rintro s (h | h)
      · have := hs s h
        have := hc' c hmem
        omega
      · exact hout s h

/-- The offset is covered by what both searches find in `cs` behind `front`. -/
def Passed (front cs : List Char) (pos : Nat) : Prop :=
  Covered (search Pattern.stringLiteral front.length cs) (comments front cs) pos

theorem le_of_passed {front cs : List Char} {pos : Nat} (h : Passed front cs pos) :
    front.length ≤ pos := by
  rcases h with ⟨s, hmem, hpos, -⟩ | ⟨c, hmem, ⟨hpos, -⟩, -⟩
  · exact Nat.le_trans (le_start_of_mem_search hmem) hpos
  · exact Nat.le_trans (le_start_of_mem_comments hmem) hpos

/-- Both searches split behind a piece that no literal leaves. -/
theorem passed_append {front piece rest : List Char} {strings : List (Hit Unit)}
    (hs : search Pattern.stringLiteral front.length (piece ++ rest) =
      strings ++ search Pattern.stringLiteral (front.length + piece.length) rest)
    (hin : ∀ s ∈ strings, s.stop ≤ front.length + piece.length) :
    ∃ here, comments front (piece ++ rest) = here ++ comments (front ++ piece) rest ∧
      (∀ h ∈ here, ∃ x y, piece = x ++ y ∧ y ≠ [] ∧ h.start = front.length + x.length ∧
        ['/', '/'] <+: y ++ rest) ∧
      ∀ pos, Passed front (piece ++ rest) pos ↔
        Covered strings here pos ∨ Passed (front ++ piece) rest pos := by
  obtain ⟨here, hhere, hstart⟩ := comments_append front piece rest
  refine ⟨here, hhere, hstart, fun pos => ?_⟩
  rw [Passed, hs, hhere, Passed, List.length_append]
  refine covered_append hin (fun s h => le_start_of_mem_search h) ?_ ?_
  · intro c hc
    obtain ⟨x, y, rfl, hy, hx, -⟩ := hstart c hc
    have := List.length_pos_iff.2 hy
    rw [hx, List.length_append]
    omega
  · intro c hc
    have := le_start_of_mem_comments hc
    rwa [List.length_append] at this

/-- Neither search finds anything in words and marks. -/
theorem passed_plain {front piece rest : List Char} (pos : Nat)
    (h : ∀ x c y, piece = x ++ c :: y → ¬ (c = '"' ∨ c = '\'') ∧ ¬ ['/', '/'] <+: c :: y ++ rest) :
    Passed front (piece ++ rest) pos ↔ Passed (front ++ piece) rest pos := by
  have hnone : ∀ x y, piece = x ++ y → y ≠ [] → Pattern.stringLiteral (y ++ rest) = none := by
    intro x y hxy hy
    cases y with
    | nil => exact absurd rfl hy
    | cons c y => exact stringLiteral_eq_none (h x c y hxy).1 _
  have hsearch : search Pattern.stringLiteral front.length (piece ++ rest) =
      [] ++ search Pattern.stringLiteral (front.length + piece.length) rest :=
    search_append_none hnone front.length
  obtain ⟨here, -, hstart, hiff⟩ := passed_append hsearch (by simp)
  have hempty : here = [] := by
    refine List.eq_nil_iff_forall_not_mem.2 fun m hm => ?_
    obtain ⟨x, y, hxy, hy, -, hslash⟩ := hstart m hm
    cases y with
    | nil => exact hy rfl
    | cons c y => exact (h x c y hxy).2 hslash
  rw [hiff, hempty]
  simp [Covered]

/-- A comment is found as a whole if its `//` is the first on its line. -/
theorem comments_comment {front body rest : List Char} (hbody : '\n' ∉ body)
    (hrest : rest.head?.all (· == '\n') = true)
    (hfirst : ¬ Slashed front ('/' :: '/' :: body ++ rest)) :
    comments front ('/' :: '/' :: body ++ rest) =
      [⟨front.length, front.length + ('/' :: '/' :: body).length, ()⟩] ++
        comments (front ++ '/' :: '/' :: body) rest := by
  have hend : line rest = [] ∧ rest.dropWhile (· != '\n') = rest := by
    cases rest with
    | nil => exact ⟨rfl, rfl⟩
    | cons d rest =>
      obtain rfl : d = '\n' := by simpa using hrest
      exact ⟨rfl, rfl⟩
  have hdrop : (body ++ rest).dropWhile (· != '\n') = rest := by
    rw [List.dropWhile_append_of_pos, hend.2]
    intro d hd
    exact bne_iff_ne.2 fun hnew => hbody (hnew ▸ hd)
  have hmatch : Pattern.lineComment ('/' :: '/' :: body ++ rest) = some ((), rest) := by
    rw [List.cons_append, List.cons_append, lineComment_slashes, hdrop]
  have hslashed : Slashed (front ++ '/' :: '/' :: body) rest :=
    ⟨'/' :: '/' :: body, List.mem_tails _ _ |>.2 (List.suffix_append _ _), by simp,
      by simp [hbody], by simp⟩
  rw [comments, if_neg hfirst, search_append_some (List.cons_ne_nil _ _) hmatch, comments,
    if_pos hslashed, hend.1, hend.2, List.length_append]
  rfl

/-- A comment is passed as a whole if its `//` is the first on its line; the literals found in it do
not matter. -/
theorem passed_comment {front body rest : List Char} (hbody : '\n' ∉ body)
    (hrest : rest.head?.all (· == '\n') = true)
    (hfirst : ¬ Slashed front ('/' :: '/' :: body ++ rest)) (pos : Nat) :
    Passed front ('/' :: '/' :: body ++ rest) pos ↔
      (front.length ≤ pos ∧ pos < front.length + ('/' :: '/' :: body).length) ∨
        Passed (front ++ '/' :: '/' :: body) rest pos := by
  have hwithin : ∀ x y a rest', '/' :: body = x ++ y → y ≠ [] →
      Pattern.stringLiteral (y ++ rest) = some (a, rest') →
      ∃ u v, u ≠ [] ∧ y = u ++ v ∧ rest' = v ++ rest := by
    intro x y a rest' hxy hne
    have hy : '\n' ∉ y := by
      intro h
      have hmem : '\n' ∈ '/' :: body := hxy ▸ List.mem_append_right x h
      simp [hbody] at hmem
    exact stringLiteral_within hy hne hrest
  obtain ⟨inner, hinner, hin⟩ := search_append_within hwithin (front.length + 1)
  have hsearch : search Pattern.stringLiteral front.length ('/' :: '/' :: body ++ rest) =
      inner ++ search Pattern.stringLiteral (front.length + ('/' :: '/' :: body).length) rest := by
    have hslash : ¬ ('/' = '"' ∨ '/' = '\'') := by decide
    have hstep := search_cons_none (stringLiteral_eq_none hslash ('/' :: body ++ rest)) front.length
    rw [List.cons_append, hstep, hinner]
    congr 2
    simp only [List.length_cons]
    omega
  have hstop : ∀ s ∈ inner, s.stop ≤ front.length + ('/' :: '/' :: body).length := by
    intro s hs
    have := (hin s hs).2
    simp only [List.length_cons] at this ⊢
    omega
  obtain ⟨here, hhere, -, hiff⟩ := passed_append hsearch hstop
  rw [comments_comment hbody hrest hfirst] at hhere
  obtain rfl := List.append_cancel_right hhere
  rw [hiff]
  refine or_congr_left ⟨?_, fun hpos => .inr ⟨_, List.mem_singleton_self _, hpos, ?_⟩⟩
  · rintro (⟨s, hmem, hpos⟩ | ⟨c, hmem, hpos, -⟩)
    · have := hin s hmem
      have := hstop s hmem
      omega
    · cases List.mem_singleton.1 hmem
      exact hpos
  · intro s hmem
    have := hin s hmem
    simp only
    omega

/-- A literal that stands on one line is passed as a whole. -/
theorem passed_quoted {front piece rest : List Char} (hne : piece ≠ [])
    (h : Pattern.stringLiteral (piece ++ rest) = some ((), rest)) (pos : Nat) :
    Passed front (piece ++ rest) pos ↔
      (front.length ≤ pos ∧ pos < front.length + piece.length) ∨
        Passed (front ++ piece) rest pos := by
  have hsearch : search Pattern.stringLiteral front.length (piece ++ rest) =
      [⟨front.length, front.length + piece.length, ()⟩] ++
        search Pattern.stringLiteral (front.length + piece.length) rest :=
    search_append_some hne h front.length
  obtain ⟨here, -, hstart, hiff⟩ := passed_append hsearch (by simp)
  rw [hiff]
  refine or_congr_left ⟨?_, fun hpos => .inl ⟨_, List.mem_singleton_self _, hpos⟩⟩
  rintro (⟨s, hmem, hpos⟩ | ⟨c, hmem, -, hout⟩)
  · cases List.mem_singleton.1 hmem
    exact hpos
  · -- A comment that starts in the literal is dropped.
    obtain ⟨x, y, rfl, hy, hx, -⟩ := hstart c hmem
    have := List.length_pos_iff.2 hy
    refine absurd ⟨?_, ?_⟩ (hout _ (List.mem_singleton_self _))
    · simp only [hx]
      omega
    · simp only [hx, List.length_append]
      omega

/-- A literal with an escaped newline and a comment behind another `//` are missed where they
start. -/
theorem not_passed {front cs : List Char} {c : Char}
    (hstring : Pattern.stringLiteral (c :: cs) = none)
    (hcomment : ['/', '/'] <+: c :: cs → Slashed front (c :: cs)) :
    ¬ Passed front (c :: cs) front.length := by
  have hnone : commentAt front (c :: cs) = [] := if_neg fun h => h.2 (hcomment h.1)
  rw [Passed, search_cons_none hstring, comments_cons, hnone, List.nil_append]
  rintro (⟨s, hmem, hpos, -⟩ | ⟨d, hmem, ⟨hpos, -⟩, -⟩)
  · have := le_start_of_mem_search hmem
    omega
  · have := le_start_of_mem_comments hmem
    simp only [List.length_append, List.length_singleton] at this
    omega

/-! ### Agreement -/

/-- A literal stands on one line; a comment is the first `//` of its line. -/
def OnLine (text : List Char) : Token → Prop
  | ⟨start, stop, .quoted _⟩ => '\n' ∉ slice text start stop
  | ⟨start, _, .comment⟩ => ¬ Slashed (text.take start) (text.drop start)
  | ⟨_, _, .word _ _⟩ => True
  | ⟨_, _, .mark _⟩ => True

instance (text : List Char) : DecidablePred (OnLine text)
  | ⟨start, stop, .quoted _⟩ => inferInstanceAs (Decidable ('\n' ∉ slice text start stop))
  | ⟨start, _, .comment⟩ =>
    inferInstanceAs (Decidable (¬ Slashed (text.take start) (text.drop start)))
  | ⟨_, _, .word _ _⟩ => inferInstanceAs (Decidable True)
  | ⟨_, _, .mark _⟩ => inferInstanceAs (Decidable True)

theorem onLine_quoted {front cs : List Char} {n : Nat} {e : Ending} :
    OnLine (front ++ cs) ⟨front.length, front.length + n, .quoted e⟩ ↔ '\n' ∉ cs.take n := by
  rw [OnLine, slice, List.drop_left, Nat.add_sub_cancel_left]

theorem onLine_comment {front cs : List Char} {stop : Nat} :
    OnLine (front ++ cs) ⟨front.length, stop, .comment⟩ ↔ ¬ Slashed front cs := by
  rw [OnLine, List.take_left, List.drop_left]

/-- Both searches pass a lexeme that is on its line as the scanner does. -/
theorem passed_read {front cs : List Char} {c : Char}
    (hclosed : ∀ e, (read c cs).1 = .quoted e → e = .closed)
    (hline : OnLine (front ++ c :: cs) ⟨front.length, front.length + (read c cs).2, (read c cs).1⟩)
    (pos : Nat) :
    Passed front (c :: cs) pos ↔
      ((read c cs).1.isHidden = true ∧ front.length ≤ pos ∧ pos < front.length + (read c cs).2) ∨
        Passed (front ++ (c :: cs).take (read c cs).2) ((c :: cs).drop (read c cs).2) pos := by
  cases read_case c cs with
  | comment body rest hcs hbody hrest heq =>
    rw [heq] at hline ⊢
    have hfirst := onLine_comment.1 hline
    rw [hcs] at hfirst ⊢
    rw [List.take_left' rfl, List.drop_left' rfl, passed_comment hbody hrest hfirst]
    simp [isHidden]
  | quoted hquote heq =>
    have htail := hclosed _ (by rw [heq])
    rw [heq] at hline ⊢
    have hmatch := stringLiteral_of_closed hquote htail
    rw [if_neg (onLine_quoted.1 hline)] at hmatch
    obtain ⟨piece, rest, hcs, hlength⟩ : ∃ piece rest, c :: cs = piece ++ rest ∧
        piece.length = (quotedTail c cs).1 + 1 :=
      ⟨_, _, (List.take_append_drop _ _).symm,
        List.length_take_of_le (Nat.succ_le_succ (quotedTail_le c cs))⟩
    have hne : piece ≠ [] := List.length_pos_iff.1 (by omega)
    simp only [← hlength, hcs, List.take_left, List.drop_left] at hmatch ⊢
    simp [passed_quoted hne hmatch, isHidden]
  | word name rest hcs hname hne heq =>
    rw [heq, hcs, List.take_left' rfl, List.drop_left' rfl, passed_plain]
    · simp [isHidden]
    · intro x d y hxy
      have hd : isIdentChar d = true := hname d (by simp [hxy])
      refine ⟨?_, ?_⟩
      · rintro (rfl | rfl) <;> exact absurd hd (by decide)
      · intro hslash
        obtain rfl : d = '/' := by simpa [eq_comm] using List.cons_prefix_cons.1 hslash |>.1
        exact absurd hd (by decide)
  | mark hcomment hquote hword heq =>
    rw [heq]
    have hplain : ∀ x d y, [c] = x ++ d :: y →
        ¬ (d = '"' ∨ d = '\'') ∧ ¬ ['/', '/'] <+: d :: y ++ cs := by
      intro x d y hxy
      obtain ⟨rfl, rfl, rfl⟩ : x = [] ∧ c = d ∧ y = [] := by
        cases x <;> simp_all
      refine ⟨hquote, fun hslash => hcomment ?_⟩
      obtain ⟨tail, htail⟩ := hslash
      obtain ⟨rfl, rfl⟩ : '/' = c ∧ '/' :: tail = cs := by simpa using htail
      exact ⟨rfl, rfl⟩
    simpa [isHidden] using passed_plain pos hplain

/-- A lexeme that is not on its line is missed where it starts. -/
theorem not_passed_read {front cs : List Char} {c : Char}
    (hclosed : ∀ e, (read c cs).1 = .quoted e → e = .closed)
    (hline : ¬ OnLine (front ++ c :: cs)
      ⟨front.length, front.length + (read c cs).2, (read c cs).1⟩) :
    (read c cs).1.isHidden = true ∧ ¬ Passed front (c :: cs) front.length := by
  cases read_case c cs with
  | comment body rest hcs hbody hrest heq =>
    rw [heq] at hline ⊢
    have hc : c = '/' := (List.cons.inj hcs).1
    have hstring : Pattern.stringLiteral (c :: cs) = none :=
      stringLiteral_eq_none (by rw [hc]; decide) cs
    have hslashed := not_not.1 fun h => hline (onLine_comment.2 h)
    exact ⟨rfl, not_passed hstring fun _ => hslashed⟩
  | quoted hquote heq =>
    have htail := hclosed _ (by rw [heq])
    rw [heq] at hline ⊢
    have hnew := not_not.1 fun h => hline (onLine_quoted.2 h)
    have hstring : Pattern.stringLiteral (c :: cs) = none := by
      rw [stringLiteral_of_closed hquote htail, if_pos hnew]
    refine ⟨rfl, not_passed hstring fun hslash => ?_⟩
    obtain rfl : '/' = c := (List.cons_prefix_cons.1 hslash).1
    exact absurd hquote (by decide)
  | word name rest hcs hname hne heq =>
    rw [heq] at hline
    exact absurd trivial hline
  | mark hcomment hquote hword heq =>
    rw [heq] at hline
    exact absurd trivial hline

/-- The searches agree with the scanner iff every lexeme is on its line. -/
theorem passed_iff_hidden (front cs : List Char)
    (hclosed : ∀ t ∈ tokensFrom front.length 0 cs, ∀ e, t.lexeme = .quoted e → e = .closed) :
    (∀ pos, Passed front cs pos ↔ Hidden (tokensFrom front.length 0 cs) pos) ↔
      ∀ t ∈ tokensFrom front.length 0 cs, OnLine (front ++ cs) t := by
  induction cs using read_induction generalizing front with
  | nil =>
    have hnone : comments front [] = [] := by simp [comments]
    simp [Passed, Covered, hnone, tokensFrom, Hidden]
  | cons c cs ih =>
    rw [tokensFrom_cons] at hclosed ⊢
    obtain ⟨hfirst, hrest⟩ := List.forall_mem_cons.1 hclosed
    rw [List.forall_mem_cons]
    by_cases hline : OnLine (front ++ c :: cs)
        ⟨front.length, front.length + (read c cs).2, (read c cs).1⟩
    · have hstep := passed_read hfirst hline
      have hlength : (front ++ (c :: cs).take (read c cs).2).length =
          front.length + (read c cs).2 := by
        rw [List.length_append, List.length_take_of_le (read_le c cs)]
      have hbehind := ih (front ++ (c :: cs).take (read c cs).2)
      rw [hlength, List.append_assoc, List.take_append_drop] at hbehind
      rw [and_iff_right hline, ← hbehind hrest]
      refine forall_congr' fun pos => ?_
      rw [hstep, hidden_cons]
      simp only
      have hpassed : Passed (front ++ (c :: cs).take (read c cs).2)
          ((c :: cs).drop (read c cs).2) pos → front.length + (read c cs).2 ≤ pos :=
        fun h => hlength ▸ le_of_passed h
      have hhidden : Hidden (tokensFrom (front.length + (read c cs).2) 0
          ((c :: cs).drop (read c cs).2)) pos → front.length + (read c cs).2 ≤ pos := by
        rintro ⟨t, ht, -, hpos, -⟩
        exact Nat.le_trans (le_start_of_mem_tokensFrom ht) hpos
      constructor
      · intro hagree
        constructor <;> intro h
        · rcases hagree.1 (.inr h) with hhere | h'
          · have := hpassed h
            omega
          · exact h'
        · rcases hagree.2 (.inr h) with hhere | h'
          · have := hhidden h
            omega
          · exact h'
      · exact or_congr_right
    · -- The two differ where the lexeme starts.
      obtain ⟨hhidden, hmissed⟩ := not_passed_read hfirst hline
      refine iff_of_false (fun hagree => hmissed ?_) fun h => hline h.1
      have hpos := read_pos c cs
      exact (hagree _).2 (hidden_cons.2 (.inl ⟨hhidden, Nat.le_refl _, by simp only; omega⟩))

/-! ### Unterminated literals -/

theorem unterminatedString_mem {ts : List Token} {opens : Delimiter.Opens} {t : Token} {e : Ending}
    (ht : t ∈ ts) (hquoted : t.lexeme = .quoted e) (he : e ≠ .closed) :
    unterminatedString t.start t.stop ∈ structureFrom opens ts := by
  fun_induction structureFrom opens ts with
  | case1 opens => cases ht
  | case4 opens start stop rest ih =>
    rcases List.mem_cons.1 ht with rfl | ht
    · exact List.mem_cons_self
    · exact List.mem_cons_of_mem _ (ih ht)
  | case5 opens start stop rest ih =>
    rcases List.mem_cons.1 ht with rfl | ht
    · exact List.mem_append_right _ (List.mem_singleton_self _)
    · exact List.mem_append_left _ (ih ht)
  | _ => grind

/-- The scanner reports every literal that is not closed. -/
theorem closed_of_structureFindings {cs : List Char}
    (h : ∀ f ∈ structureFindings cs, f.code ≠ Code.unterminatedString) :
    ∀ t ∈ tokens cs, ∀ e, t.lexeme = .quoted e → e = .closed := by
  intro t ht e hquoted
  refine not_not.1 fun he => ?_
  exact h _ (unterminatedString_mem ht hquoted he) rfl

theorem mem_of_mem_firstUses {seen : List (List Char)} {uses : List (Hit (List Char))}
    {h : Hit (List Char)} (hmem : h ∈ firstUses seen uses) : h ∈ uses := by
  fun_induction firstUses seen uses with
  | case1 => cases hmem
  | case2 seen use rest hseen ih => exact List.mem_cons_of_mem _ (ih hmem)
  | case3 seen use rest hseen ih =>
    rcases List.mem_cons.1 hmem with rfl | hmem
    · exact List.mem_cons_self
    · exact List.mem_cons_of_mem _ (ih hmem)

theorem not_contains_of_mem_usageFindings {cs : List Char} {f : Finding}
    (h : f ∈ usageFindings cs) : ¬ (nonCode cs).any (·.contains f.start) = true := by
  obtain ⟨use, huse, rfl⟩ := List.mem_map.1 h
  have hcounts := (List.mem_filter.1 (mem_of_mem_firstUses huse)).2
  simp only [Bool.and_eq_true, Bool.not_eq_true'] at hcounts
  exact Bool.not_eq_true _ ▸ hcounts.1.2

/-! ### The two stages -/

/-- In a text without unterminated literals, what the usage stage takes for strings and comments is
what the scanner takes for them iff every lexeme is on its line; and then no name inside one is
reported. -/
theorem nonCode_agrees_iff (cs : List Char)
    (hstrings : ∀ f ∈ structureFindings cs, f.code ≠ Code.unterminatedString) :
    ((∀ pos, (nonCode cs).any (·.contains pos) = true ↔ Hidden (tokens cs) pos) ↔
      ∀ t ∈ tokens cs, OnLine cs t) ∧
    ((∀ t ∈ tokens cs, OnLine cs t) → ∀ f ∈ usageFindings cs, ¬ Hidden (tokens cs) f.start) := by
  have hagree := passed_iff_hidden [] cs (closed_of_structureFindings hstrings)
  have hiff : (∀ pos, (nonCode cs).any (·.contains pos) = true ↔ Hidden (tokens cs) pos) ↔
      ∀ t ∈ tokens cs, OnLine cs t := by
    simp only [nonCode_contains_iff]
    rw [← comments_nil, hits_anywhere]
    exact hagree
  refine ⟨hiff, fun hline f hf hhidden => ?_⟩
  exact not_contains_of_mem_usageFindings hf ((hiff.2 hline f.start).2 hhidden)

/-- Slashes in literals, quotes in a comment, escaped quotes. -/
theorem nonCode_agrees_slashes :
    let text := "u = 'a // b' ; \"\\\"c\"\n// it's \"d // e\" f\ng".toList
    (∀ f ∈ structureFindings text, f.code ≠ Code.unterminatedString) ∧
      (∀ t ∈ tokens text, OnLine text t) ∧
      (∀ pos, (nonCode text).any (·.contains pos) = true ↔ Hidden (tokens text) pos) ∧
      ∀ f ∈ usageFindings text, ¬ Hidden (tokens text) f.start := by
  intro text
  have hstrings : ∀ f ∈ structureFindings text, f.code ≠ Code.unterminatedString := by
    decide +kernel
  have hline : ∀ t ∈ tokens text, OnLine text t := by decide +kernel
  exact ⟨hstrings, hline, (nonCode_agrees_iff text hstrings).1.2 hline,
    (nonCode_agrees_iff text hstrings).2 hline⟩

/-- The scanner closes every literal, but a name that is hidden from it is reported. -/
def Misses (text : List Char) : Prop :=
  (∀ f ∈ structureFindings text, f.code ≠ Code.unterminatedString) ∧
    ∃ f ∈ usageFindings text, Hidden (tokens text) f.start ∧
      ¬ (nonCode text).any (·.contains f.start) = true

instance (text : List Char) : Decidable (Misses text) :=
  inferInstanceAs (Decidable (_ ∧ _))

/-- A comment behind a literal that holds `//`, and a literal that goes on behind an escaped
newline. -/
theorem nonCode_misses :
    Misses "\"//\" // x".toList ∧ Misses "\"\\\n x \"".toList := by
  decide +kernel

end Check

end BurnLens
