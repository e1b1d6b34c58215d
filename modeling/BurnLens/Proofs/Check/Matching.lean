import BurnLens.Proofs.Gate
import BurnLens.Proofs.Lexeme.Resume
import BurnLens.Proofs.Text.Position

/-!
# Unmatched delimiters and broken literals

The delimiters of one kind in the code of a text are matched by a stack: `strays` are the closers
that meet an empty stack, `unmatched` are the openers left on it. The syntax stage keeps three
stacks at once and runs over whole lexemes. It says the same about delimiters as a run over the
characters of code one by one (`filter_structureFrom`), and what that run says of a kind depends on
the stack of that kind alone. For string literals the reader of `notes` takes the place of the
stacks. Both together: `checkStructure_matching`.
-/

namespace BurnLens

namespace Delimiter
variable {k j : Delimiter} {c : Char} {pos : Nat} {stack : List Nat} {spots : List (Char × Nat)}

/-- The closers of a kind that meet an empty stack, given the openers that are on it, innermost
first. -/
def strays (k : Delimiter) (stack : List Nat) : List (Char × Nat) → List Nat
  | [] => []
  | (c, pos) :: rest =>
    if c = k.opener then k.strays (pos :: stack) rest
    else if c = k.closer then (if stack = [] then [pos] else []) ++ k.strays stack.tail rest
    else k.strays stack rest

/-- The openers of a kind that are left on the stack, innermost first. -/
def unmatched (k : Delimiter) (stack : List Nat) : List (Char × Nat) → List Nat
  | [] => stack
  | (c, pos) :: rest =>
    if c = k.opener then k.unmatched (pos :: stack) rest
    else if c = k.closer then k.unmatched stack.tail rest
    else k.unmatched stack rest

/-- The message about an unexpected closer of the kind. -/
def unexpected (k : Delimiter) : String :=
  "Unexpected closing " ++ k.name ++ " " ++ Check.shown k.closer

/-- The message about an unclosed opener of the kind. -/
def unclosed (k : Delimiter) : String :=
  "Unclosed " ++ k.name ++ " " ++ Check.shown k.opener

/-! ### One character -/

/-- The character does nothing to the stack of the kind. -/
def Ignores (k : Delimiter) (c : Char) : Prop :=
  c ≠ k.opener ∧ c ≠ k.closer

theorem ignores_opener (h : j ≠ k) : k.Ignores j.opener :=
  ⟨fun heq => h (opener_inj.1 heq), opener_ne_closer j k⟩

theorem ignores_closer (h : j ≠ k) : k.Ignores j.closer :=
  ⟨(opener_ne_closer k j).symm, fun heq => h (closer_inj.1 heq)⟩

theorem ignores_ident (h : Text.isIdentChar c = true) (k : Delimiter) : k.Ignores c := by
  constructor <;> rintro rfl <;> cases k <;> exact absurd h (by decide)

/-- What a character can be to the stacks. -/
inductive CharCase (c : Char) : Prop where
  | opener (k : Delimiter) (h : c = k.opener)
  | closer (k : Delimiter) (h : c = k.closer)
  | other (h : ∀ k : Delimiter, k.Ignores c)

theorem char_case (c : Char) : CharCase c := by
  by_cases hopener : ∃ k : Delimiter, c = k.opener
  · obtain ⟨k, h⟩ := hopener
    exact .opener k h
  by_cases hcloser : ∃ k : Delimiter, c = k.closer
  · obtain ⟨k, h⟩ := hcloser
    exact .closer k h
  · exact .other fun k => ⟨fun h => hopener ⟨k, h⟩, fun h => hcloser ⟨k, h⟩⟩

theorem strays_opener :
    k.strays stack ((k.opener, pos) :: spots) = k.strays (pos :: stack) spots :=
  if_pos rfl

theorem strays_closer : k.strays stack ((k.closer, pos) :: spots) =
    (if stack = [] then [pos] else []) ++ k.strays stack.tail spots := by
  rw [strays, if_neg (opener_ne_closer k k).symm, if_pos rfl]

theorem strays_ignored (h : k.Ignores c) :
    k.strays stack ((c, pos) :: spots) = k.strays stack spots := by
  rw [strays, if_neg h.1, if_neg h.2]

theorem unmatched_opener :
    k.unmatched stack ((k.opener, pos) :: spots) = k.unmatched (pos :: stack) spots :=
  if_pos rfl

theorem unmatched_closer :
    k.unmatched stack ((k.closer, pos) :: spots) = k.unmatched stack.tail spots := by
  rw [unmatched, if_neg (opener_ne_closer k k).symm, if_pos rfl]

theorem unmatched_ignored (h : k.Ignores c) :
    k.unmatched stack ((c, pos) :: spots) = k.unmatched stack spots := by
  rw [unmatched, if_neg h.1, if_neg h.2]

/-- The closers left over stand in the text in their order. -/
theorem strays_sublist (k : Delimiter) (stack : List Nat) (spots : List (Char × Nat)) :
    ((k.strays stack spots).map (k.closer, ·)).Sublist spots := by
  fun_induction strays k stack spots with
  | case1 => exact .slnil
  | case2 stack pos rest ih => exact ih.cons (k.opener, pos)
  | case3 stack pos rest h ih =>
    split
    · exact ih.cons_cons (k.closer, pos)
    · exact ih.cons (k.closer, pos)
  | case4 stack c pos rest h h' ih => exact ih.cons (c, pos)

/-- The openers left on the stack stand in the text in the opposite order. -/
theorem unmatched_sublist (k : Delimiter) (stack : List Nat) (spots : List (Char × Nat)) :
    ((k.unmatched stack spots).reverse.map (k.opener, ·)).Sublist
      (stack.reverse.map (k.opener, ·) ++ spots) := by
  fun_induction unmatched k stack spots with
  | case1 => simp
  | case2 stack pos rest ih => simpa using ih
  | case3 stack pos rest h ih =>
    have htail : (stack.tail.reverse.map (k.opener, ·)).Sublist
        (stack.reverse.map (k.opener, ·)) := ((List.tail_sublist stack).reverse).map _
    exact ih.trans (htail.append (List.sublist_cons_self _ rest))
  | case4 stack c pos rest h h' ih => exact ih.trans ((List.sublist_cons_self _ rest).append_left _)

/-- The stack leaves nothing over if the text is balanced behind the openers that are on it. -/
theorem balancedFrom_iff (k : Delimiter) (stack : List Nat) (spots : List (Char × Nat)) :
    k.BalancedFrom stack.length (spots.map Prod.fst) ↔
      k.strays stack spots = [] ∧ k.unmatched stack spots = [] := by
  induction spots generalizing stack with
  | nil => simp [balancedFrom_nil, strays, unmatched]
  | cons spot spots ih =>
    obtain ⟨c, pos⟩ := spot
    rw [List.map_cons]
    by_cases hopener : c = k.opener
    · subst hopener
      rw [balancedFrom_opener, strays_opener, unmatched_opener]
      exact ih (pos :: stack)
    by_cases hcloser : c = k.closer
    · subst hcloser
      rw [balancedFrom_closer, strays_closer, unmatched_closer, ← List.length_tail, ih]
      cases stack <;> simp
    · rw [balancedFrom_other hopener hcloser, strays_ignored ⟨hopener, hcloser⟩,
        unmatched_ignored ⟨hopener, hcloser⟩]
      exact ih stack

@[simp] theorem Opens.set_self (opens : Opens) (k : Delimiter) (offsets : List Nat) :
    opens.set k offsets k = offsets :=
  if_pos rfl

theorem Opens.set_of_ne (opens : Opens) (h : j ≠ k) (offsets : List Nat) :
    opens.set j offsets k = opens k :=
  if_neg h.symm

theorem Opens.set_eq_self (opens : Opens) {offsets : List Nat} (h : opens k = offsets) :
    opens.set k offsets = opens := by
  funext j
  by_cases hj : k = j
  · subst hj
    rw [set_self, h]
  · rw [set_of_ne opens hj]

end Delimiter

/-- The finding has this code and this message. -/
def Finding.reads (code message : String) (f : Finding) : Bool :=
  f.code = code && f.message = message

def Diagnostic.reads (code message : String) (x : Diagnostic) : Bool :=
  x.code = some code && x.message = message

namespace Check
open Delimiter Lexeme
variable {k j : Delimiter} {start stop pos : Nat} {opens : Opens} {c : Char}
  {rest : List (Char × Nat)} {ts : List Token}

/-! ### What a finding says -/

@[simp] theorem reads_unexpectedCloser :
    (unexpectedCloser j pos).reads Code.unexpectedClosingDelimiter k.unexpected =
      decide (j = k) := by
  cases j <;> cases k <;> rfl

@[simp] theorem reads_unclosedOpener :
    (unclosedOpener j pos).reads Code.unclosedDelimiter k.unclosed = decide (j = k) := by
  cases j <;> cases k <;> rfl

@[simp] theorem unexpectedCloser_not_unclosed (message : String) :
    (unexpectedCloser j pos).reads Code.unclosedDelimiter message = false :=
  rfl

@[simp] theorem unclosedOpener_not_unexpected (message : String) :
    (unclosedOpener j pos).reads Code.unexpectedClosingDelimiter message = false :=
  rfl

/-! ### Three stacks at once, one character after another -/

/-- The findings about delimiters in the code that remains, given those open so far. -/
def delimitersFrom (opens : Opens) : List (Char × Nat) → List Finding
  | [] => unclosed opens
  | (c, pos) :: rest =>
    match opened? c with
    | some k => delimitersFrom (opens.set k (pos :: opens k)) rest
    | none =>
      match closed? c with
      | none => delimitersFrom opens rest
      | some k =>
        match opens k with
        | [] => unexpectedCloser k pos :: delimitersFrom opens rest
        | _ :: outer => delimitersFrom (opens.set k outer) rest

theorem delimitersFrom_opener : delimitersFrom opens ((k.opener, pos) :: rest) =
    delimitersFrom (opens.set k (pos :: opens k)) rest := by
  cases k <;> rfl

theorem delimitersFrom_closer : delimitersFrom opens ((k.closer, pos) :: rest) =
    (if opens k = [] then [unexpectedCloser k pos] else []) ++
      delimitersFrom (opens.set k (opens k).tail) rest := by
  have hnone : opened? k.closer = none := by cases k <;> rfl
  have hsome : closed? k.closer = some k := by cases k <;> rfl
  simp only [delimitersFrom, hnone, hsome]
  split
  next hempty => simp [hempty, Opens.set_eq_self opens hempty]
  next outer houter => simp [houter]

theorem delimitersFrom_ignored (h : ∀ k : Delimiter, k.Ignores c) :
    delimitersFrom opens ((c, pos) :: rest) = delimitersFrom opens rest := by
  have hopened : opened? c = none := by
    refine List.find?_eq_none.2 fun k _ => ?_
    simpa using (h k).1.symm
  have hclosed : closed? c = none := by
    refine List.find?_eq_none.2 fun k _ => ?_
    simpa using (h k).2.symm
  simp only [delimitersFrom, hopened, hclosed]

/-- A word does nothing to any stack. -/
theorem delimitersFrom_word {name : List Char} (hname : ∀ c ∈ name, Text.isIdentChar c = true) :
    delimitersFrom opens (name.zipIdx pos ++ rest) = delimitersFrom opens rest := by
  induction name generalizing pos with
  | nil => rfl
  | cons c name ih =>
    have hc := hname c List.mem_cons_self
    rw [List.zipIdx_cons, List.cons_append, delimitersFrom_ignored (ignores_ident hc)]
    exact ih fun d hd => hname d (List.mem_cons_of_mem c hd)

theorem mem_delimitersFrom {f : Finding} (h : f ∈ delimitersFrom opens rest) :
    ∃ k pos, f = unexpectedCloser k pos ∨ f = unclosedOpener k pos := by
  fun_induction delimitersFrom opens rest with
  | case1 opens =>
    obtain ⟨k, -, hk⟩ := List.mem_filterMap.1 h
    obtain ⟨pos, -, rfl⟩ := Option.map_eq_some_iff.1 hk
    exact ⟨k, pos, .inr rfl⟩
  | case4 opens c pos rest hopened k hk hempty ih =>
    rcases List.mem_cons.1 h with rfl | h
    · exact ⟨k, pos, .inl rfl⟩
    · exact ih h
  | case2 opens c pos rest k hk ih => exact ih h
  | case3 opens c pos rest hopened hclosed ih => exact ih h
  | case5 opens c pos rest hopened k hk _ outer houter ih => exact ih h

/-- Findings selected by `p` depend on one stack if they do at the end of the text, and if a closer
of another kind is never selected. -/
theorem filter_delimitersFrom (p : Finding → Bool)
    (reported : List Nat → List (Char × Nat) → List Finding)
    (hend : ∀ opens : Opens, (unclosed opens).filter p = reported (opens k) [])
    (hother : ∀ j pos, j ≠ k → p (unexpectedCloser j pos) = false)
    (hopener : ∀ stack pos rest,
      reported stack ((k.opener, pos) :: rest) = reported (pos :: stack) rest)
    (hcloser : ∀ stack pos rest, reported stack ((k.closer, pos) :: rest) =
      (if stack = [] then [unexpectedCloser k pos].filter p else []) ++ reported stack.tail rest)
    (hignored : ∀ stack c pos rest, k.Ignores c →
      reported stack ((c, pos) :: rest) = reported stack rest)
    (opens : Opens) (rest : List (Char × Nat)) :
    (delimitersFrom opens rest).filter p = reported (opens k) rest := by
  induction rest generalizing opens with
  | nil => exact hend opens
  | cons spot rest ih =>
    obtain ⟨c, pos⟩ := spot
    cases char_case c with
    | opener j hj =>
      subst hj
      rw [delimitersFrom_opener, ih]
      by_cases hk : j = k
      · subst hk
        rw [Opens.set_self, hopener]
      · rw [Opens.set_of_ne opens hk, hignored _ _ _ _ (ignores_opener hk)]
    | closer j hj =>
      subst hj
      rw [delimitersFrom_closer, List.filter_append, ih]
      by_cases hk : j = k
      · subst hk
        rw [Opens.set_self, hcloser]
        split <;> rfl
      · rw [Opens.set_of_ne opens hk, hignored _ _ _ _ (ignores_closer hk)]
        split <;> simp [hother j pos hk]
    | other h => rw [delimitersFrom_ignored h, ih, hignored _ _ _ _ (h k)]

/-- The closers reported for a kind are those that its own stack leaves over. -/
theorem filter_unexpected (k : Delimiter) (opens : Opens) (rest : List (Char × Nat)) :
    (delimitersFrom opens rest).filter
        (Finding.reads Code.unexpectedClosingDelimiter k.unexpected) =
      (k.strays (opens k) rest).map (unexpectedCloser k) := by
  refine filter_delimitersFrom _ (fun stack rest => (k.strays stack rest).map (unexpectedCloser k))
    (fun opens => ?_) (fun j pos hj => by simp [hj]) (fun _ _ _ => ?_) (fun _ _ _ => ?_)
    (fun _ _ _ _ hc => ?_) opens rest
  · refine List.filter_eq_nil_iff.2 fun f hf => ?_
    obtain ⟨j, -, hj⟩ := List.mem_filterMap.1 hf
    obtain ⟨pos, -, rfl⟩ := Option.map_eq_some_iff.1 hj
    simp
  · rw [strays_opener]
  · rw [strays_closer, List.map_append]
    split <;> simp
  · rw [strays_ignored hc]

/-- The opener reported for a kind is the innermost one left on its own stack. -/
theorem filter_unclosed (k : Delimiter) (opens : Opens) (rest : List (Char × Nat)) :
    (delimitersFrom opens rest).filter (Finding.reads Code.unclosedDelimiter k.unclosed) =
      ((k.unmatched (opens k) rest).head?.map (unclosedOpener k)).toList := by
  refine filter_delimitersFrom _
    (fun stack rest => ((k.unmatched stack rest).head?.map (unclosedOpener k)).toList)
    (fun opens => ?_) (fun j pos _ => unexpectedCloser_not_unclosed _) (fun _ _ _ => ?_)
    (fun _ _ _ => ?_) (fun _ _ _ _ hc => ?_) opens rest
  · have hread : ∀ (j : Delimiter) (o : Option Nat),
        (o.map (unclosedOpener j)).filter (Finding.reads Code.unclosedDelimiter k.unclosed) =
          if j = k then o.map (unclosedOpener k) else none := by
      intro j o
      by_cases hj : j = k
      · subst hj
        cases o <;> simp
      · cases o <;> simp [hj]
    rw [Check.unclosed, List.filter_filterMap, unmatched]
    simp only [hread]
    cases hhead : (opens k).head? <;> cases k <;> simp [Delimiter.all, hhead]
  · rw [unmatched_opener]
  · rw [unmatched_closer]
    split <;> simp
  · rw [unmatched_ignored hc]

/-! ### Whole lexemes -/

/-- The places of code in lexemes. -/
def spotsOf (ts : List Token) : List (Char × Nat) :=
  ts.flatMap fun t => (t.lexeme.noted t.start t.stop).filterMap Note.spot?

/-- The literals among lexemes that end without their quote. -/
def brokenOf (ts : List Token) : List (Nat × Nat) :=
  ts.flatMap fun t => (t.lexeme.noted t.start t.stop).filterMap Note.broken?

theorem spots_eq (cs : List Char) : spots cs = spotsOf (tokens cs) := by
  rw [spots, notes, notesFrom_eq, List.filterMap_flatMap]
  rfl

theorem brokenLiterals_eq (cs : List Char) : brokenLiterals cs = brokenOf (tokens cs) := by
  rw [brokenLiterals, notes, notesFrom_eq, List.filterMap_flatMap]
  rfl

/-- A literal without its quote stands in the text. -/
theorem span_of_mem_brokenLiterals {cs : List Char} {l : Nat × Nat} (h : l ∈ brokenLiterals cs) :
    l.1 ≤ l.2 ∧ l.2 ≤ cs.length := by
  rw [brokenLiterals_eq] at h
  obtain ⟨t, ht, hl⟩ := List.mem_flatMap.1 h
  obtain ⟨note, hnote, hbroken⟩ := List.mem_filterMap.1 hl
  have hplace : l = (t.start, t.stop) := by
    cases hread : t.lexeme with
    | word name next =>
      rw [hread] at hnote
      obtain ⟨x, -, rfl⟩ := List.mem_map.1 hnote
      cases hbroken
    | mark c =>
      rw [hread] at hnote
      cases List.mem_singleton.1 hnote
      cases hbroken
    | comment =>
      rw [hread] at hnote
      cases hnote
    | quoted e =>
      rw [hread, noted] at hnote
      split at hnote
      · cases hnote
      · cases List.mem_singleton.1 hnote
        exact (Option.some.inj hbroken).symm
  rw [hplace]
  simpa using span_of_mem_tokensFrom ht

theorem spotsOf_word {name : List Char} {next : Option Char} :
    spotsOf (⟨start, stop, .word name next⟩ :: ts) = name.zipIdx start ++ spotsOf ts := by
  have hspot : Note.spot? ∘ (fun x : Char × Nat => .code x.1 x.2) = some := rfl
  rw [spotsOf, List.flatMap_cons, noted, List.filterMap_map, hspot, List.filterMap_some]
  rfl

theorem brokenOf_word {name : List Char} {next : Option Char} :
    brokenOf (⟨start, stop, .word name next⟩ :: ts) = brokenOf ts := by
  have hbroken : Note.broken? ∘ (fun x : Char × Nat => .code x.1 x.2) = fun _ => none := rfl
  rw [brokenOf, List.flatMap_cons, noted, List.filterMap_map, hbroken, List.filterMap_none]
  rfl

/-- The finding is about a delimiter. -/
def isCritical (f : Finding) : Bool :=
  Code.critical.contains f.code

/-- Lexemes bring the same findings about delimiters as the characters of their code. -/
theorem filter_structureFrom (opens : Opens) (ts : List Token)
    (hwords : ∀ t ∈ ts, ∀ name next, t.lexeme = .word name next →
      ∀ c ∈ name, Text.isIdentChar c = true) :
    (structureFrom opens ts).filter isCritical = delimitersFrom opens (spotsOf ts) := by
  fun_induction structureFrom opens ts with
  | case1 opens =>
    refine List.filter_eq_self.2 fun f hf => ?_
    obtain ⟨k, -, hk⟩ := List.mem_filterMap.1 hf
    obtain ⟨pos, -, rfl⟩ := Option.map_eq_some_iff.1 hk
    rfl
  | case2 opens start stop rest ih => exact ih fun t ht => hwords t (.tail _ ht)
  | case3 opens start stop rest ih => exact ih fun t ht => hwords t (.tail _ ht)
  | case4 opens start stop rest ih =>
    exact ih fun t ht => hwords t (.tail _ ht)
  | case5 opens start stop rest ih =>
    have hlast : [unterminatedString start stop].filter isCritical = [] := rfl
    rw [List.filter_append, hlast, List.append_nil]
    exact ih fun t ht => hwords t (.tail _ ht)
  | case6 opens start stop rest name next hlacks ih =>
    rw [spotsOf_word, delimitersFrom_word (hwords _ (.head _) name next rfl)]
    exact ih fun t ht => hwords t (.tail _ ht)
  | case7 opens start stop rest name next hlacks ih =>
    rw [spotsOf_word, delimitersFrom_word (hwords _ (.head _) name next rfl)]
    exact ih fun t ht => hwords t (.tail _ ht)
  | case8 opens start stop rest c k hk ih =>
    obtain rfl := opened?_eq_some hk
    rw [ih fun t ht => hwords t (.tail _ ht)]
    exact delimitersFrom_opener.symm
  | case9 opens start stop rest c hopened hclosed ih =>
    rw [ih fun t ht => hwords t (.tail _ ht)]
    exact (delimitersFrom_ignored fun k => ⟨ne_opener hopened k, ne_closer hclosed k⟩).symm
  | case10 opens start stop rest c hopened k hk hempty ih =>
    obtain rfl := closed?_eq_some hk
    refine Eq.trans ?_ delimitersFrom_closer.symm
    rw [if_pos hempty, hempty, List.tail_nil, Opens.set_eq_self opens hempty]
    exact congrArg (_ :: ·) (ih fun t ht => hwords t (.tail _ ht))
  | case11 opens start stop rest c hopened k hk pos outer houter ih =>
    obtain rfl := closed?_eq_some hk
    refine Eq.trans ?_ delimitersFrom_closer.symm
    rw [ih fun t ht => hwords t (.tail _ ht), houter]
    rfl

theorem filter_reads {code : String} (hcode : code ∈ Code.critical) (message : String)
    (fs : List Finding) :
    fs.filter (Finding.reads code message) =
      (fs.filter isCritical).filter (Finding.reads code message) := by
  rw [List.filter_filter]
  refine List.filter_congr fun f _ => ?_
  cases hreads : f.reads code message with
  | false => rfl
  | true =>
    have hf : f.code = code := by
      simp only [Finding.reads, Bool.and_eq_true, decide_eq_true_eq] at hreads
      exact hreads.1
    simpa [isCritical, hf] using hcode

/-- The findings about literals are those noted, if one that ends with the text comes last. -/
theorem filter_unterminated (opens : Opens) (ts : List Token)
    (hlast : ts.Pairwise fun t _ => t.lexeme ≠ .quoted .endOfText) :
    (structureFrom opens ts).filter (·.code = Code.unterminatedString) =
      (brokenOf ts).map fun l => unterminatedString l.1 l.2 := by
  fun_induction structureFrom opens ts with
  | case1 opens =>
    refine List.filter_eq_nil_iff.2 fun f hf => ?_
    obtain ⟨k, -, hk⟩ := List.mem_filterMap.1 hf
    obtain ⟨pos, -, rfl⟩ := Option.map_eq_some_iff.1 hk
    exact of_decide_eq_false rfl
  | case2 opens start stop rest ih => exact ih hlast.of_cons
  | case3 opens start stop rest ih => exact ih hlast.of_cons
  | case4 opens start stop rest ih => exact congrArg (_ :: ·) (ih hlast.of_cons)
  | case5 opens start stop rest ih =>
    have hrest : rest = [] :=
      List.eq_nil_iff_forall_not_mem.2 fun t ht => (List.pairwise_cons.1 hlast).1 t ht rfl
    subst hrest
    rw [List.filter_append, ih hlast.of_cons]
    rfl
  | case6 opens start stop rest name next hlacks ih =>
    rw [brokenOf_word]
    exact ih hlast.of_cons
  | case7 opens start stop rest name next hlacks ih =>
    rw [brokenOf_word]
    exact ih hlast.of_cons
  | case8 opens start stop rest c k hk ih => exact ih hlast.of_cons
  | case9 opens start stop rest c hopened hclosed ih => exact ih hlast.of_cons
  | case10 opens start stop rest c hopened k hk hempty ih => exact ih hlast.of_cons
  | case11 opens start stop rest c hopened k hk pos outer houter ih => exact ih hlast.of_cons

end Check

/-! ### One kind in a text -/

namespace Delimiter
open Lexeme

/-- Nothing of a kind is left over iff the code is balanced. -/
theorem balanced_iff (k : Delimiter) (cs : List Char) :
    k.Balanced (code cs) ↔ k.strays [] (spots cs) = [] ∧ k.unmatched [] (spots cs) = [] := by
  rw [← balancedFrom_zero, ← spots_map_fst]
  exact k.balancedFrom_iff [] (spots cs)

/-- The openers left over stand in the text in the opposite of their order. -/
theorem unmatched_spots (k : Delimiter) (cs : List Char) :
    ((k.unmatched [] (spots cs)).reverse.map (k.opener, ·)).Sublist cs.zipIdx :=
  (k.unmatched_sublist [] (spots cs)).trans (spots_sublist cs)

/-- The last opener left over is the innermost one. -/
theorem unmatched_max? (k : Delimiter) (cs : List Char) :
    (k.unmatched [] (spots cs)).max? = (k.unmatched [] (spots cs)).head? := by
  have hsub := (k.unmatched_spots cs).map Prod.snd
  have hsnd : Prod.snd ∘ (k.opener, ·) = (id : Nat → Nat) := rfl
  rw [List.zipIdx_map_snd, List.map_map, hsnd, List.map_id] at hsub
  have hdesc := List.pairwise_reverse.1 (List.Pairwise.sublist hsub List.pairwise_lt_range')
  exact List.max?_eq_head? (hdesc.imp fun h => Nat.max_eq_left h.le)

end Delimiter

/-! ### The syntax stage -/

namespace Document
open Check Delimiter Lexeme

/-- An error of the syntax stage between two offsets. -/
def errorAt (d : Document) (start stop : Nat) (message code : String) : Diagnostic :=
  { severity := .error, range := d.rangeOf start stop, message, source := .syntactic,
    code := some code }

theorem filter_checkStructure (d : Document) {p : Diagnostic → Bool}
    {q : Finding → Bool} (h : ∀ f : Finding, p (f.report d .error .syntactic) = q f) :
    d.checkStructure.filter p =
      ((structureFindings d.chars).filter q).map (Finding.report d .error .syntactic) := by
  rw [checkStructure, List.filter_map]
  exact congrArg _ (List.filter_congr fun f _ => h f)

theorem reads_report (d : Document) (code message : String) (f : Finding) :
    (f.report d .error .syntactic).reads code message = f.reads code message :=
  congrArg (· && _) (decide_eq_decide.2 Option.some_inj)

theorem isIdentChar_of_word (d : Document) : ∀ t ∈ tokens d.chars, ∀ name next,
    t.lexeme = .word name next → ∀ c ∈ name, Text.isIdentChar c = true :=
  fun _ ht _ _ hword => isIdentChar_of_mem_word ht hword

/-- What is said of delimiters comes from the characters of code one by one. -/
theorem filter_critical (d : Document) {code : String} (hcode : code ∈ Code.critical)
    (message : String) :
    d.checkStructure.filter (Diagnostic.reads code message) =
      ((delimitersFrom (fun _ => []) (spots d.chars)).filter (Finding.reads code message)).map
        (Finding.report d .error .syntactic) := by
  rw [d.filter_checkStructure (reads_report d code message), filter_reads hcode,
    structureFindings, filter_structureFrom _ _ d.isIdentChar_of_word, ← spots_eq]

/-- What is said of delimiters is said of some kind. -/
theorem reads_of_mem (d : Document) {x : Diagnostic} (hx : x ∈ d.checkStructure) :
    (x.code = some Code.unexpectedClosingDelimiter → ∃ k, x.message = Delimiter.unexpected k) ∧
    (x.code = some Code.unclosedDelimiter → ∃ k, x.message = Delimiter.unclosed k) := by
  obtain ⟨f, hf, rfl⟩ := List.mem_map.1 hx
  have hkind : isCritical f = true →
      ∃ k pos, f = unexpectedCloser k pos ∨ f = unclosedOpener k pos := by
    intro hcritical
    have hmem : f ∈ (structureFrom (fun _ => []) (tokens d.chars)).filter isCritical :=
      List.mem_filter.2 ⟨hf, hcritical⟩
    rw [filter_structureFrom _ _ d.isIdentChar_of_word] at hmem
    exact mem_delimitersFrom hmem
  constructor
  · intro hcode
    have hcode : f.code = Code.unexpectedClosingDelimiter := Option.some_inj.1 hcode
    obtain ⟨k, pos, rfl | rfl⟩ := hkind (by rw [isCritical, hcode]; decide)
    · exact ⟨k, rfl⟩
    · exact absurd hcode (show Code.unclosedDelimiter ≠ _ by decide)
  · intro hcode
    have hcode : f.code = Code.unclosedDelimiter := Option.some_inj.1 hcode
    obtain ⟨k, pos, rfl | rfl⟩ := hkind (by rw [isCritical, hcode]; decide)
    · exact absurd hcode (show Code.unexpectedClosingDelimiter ≠ _ by decide)
    · exact ⟨k, rfl⟩

/-- The syntax stage reports exactly the unmatched delimiters and the unterminated literals. Of each
kind it reports every closer that meets an empty stack, in text order, and the last opener on the
stack, if one is left; of the literals every one without its quote, up to the newline or the end of
the text. Each report covers what it is about. -/
theorem checkStructure_matching (d : Document) :
    (∀ k : Delimiter,
      ((k.strays [] (spots d.chars)).map (k.closer, ·)).Sublist d.chars.zipIdx ∧
      d.checkStructure.filter (Diagnostic.reads Code.unexpectedClosingDelimiter k.unexpected) =
        ((k.strays [] (spots d.chars)).map fun pos =>
          d.errorAt pos (pos + 1) k.unexpected Code.unexpectedClosingDelimiter) ∧
      ∀ pos ∈ k.strays [] (spots d.chars),
        d.Covers (d.errorAt pos (pos + 1) k.unexpected Code.unexpectedClosingDelimiter).range
          [k.closer] pos) ∧
    (∀ k : Delimiter,
      ((k.unmatched [] (spots d.chars)).reverse.map (k.opener, ·)).Sublist d.chars.zipIdx ∧
      d.checkStructure.filter (Diagnostic.reads Code.unclosedDelimiter k.unclosed) =
        ((k.unmatched [] (spots d.chars)).max?.map fun pos =>
          d.errorAt pos (pos + 1) k.unclosed Code.unclosedDelimiter).toList ∧
      ∀ pos ∈ k.unmatched [] (spots d.chars),
        d.Covers (d.errorAt pos (pos + 1) k.unclosed Code.unclosedDelimiter).range
          [k.opener] pos) ∧
    (∀ x ∈ d.checkStructure,
      (x.code = some Code.unexpectedClosingDelimiter → ∃ k, x.message = Delimiter.unexpected k) ∧
      (x.code = some Code.unclosedDelimiter → ∃ k, x.message = Delimiter.unclosed k)) ∧
    d.checkStructure.filter (·.code = some Code.unterminatedString) =
      ((brokenLiterals d.chars).map fun l =>
        d.errorAt l.1 l.2 "Unterminated string literal" Code.unterminatedString) ∧
    ∀ l ∈ brokenLiterals d.chars,
      d.Covers (d.errorAt l.1 l.2 "Unterminated string literal" Code.unterminatedString).range
        (Text.slice d.chars l.1 l.2) l.1 := by
  have hstrays := fun k : Delimiter =>
    (k.strays_sublist [] (spots d.chars)).trans (spots_sublist d.chars)
  refine ⟨fun k => ⟨hstrays k, ?_, fun pos hpos => ?_⟩,
    fun k => ⟨k.unmatched_spots d.chars, ?_, fun pos hpos => ?_⟩,
    fun x hx => d.reads_of_mem hx, ?_, fun l hl => ?_⟩
  · rw [d.filter_critical (by decide), filter_unexpected, List.map_map]
    rfl
  · have hmem := (hstrays k).subset (List.mem_map_of_mem hpos)
    exact covers_char (List.mem_zipIdx_iff_getElem?.1 hmem)
  · rw [d.filter_critical (by decide), filter_unclosed, k.unmatched_max?]
    cases (k.unmatched [] (spots d.chars)).head? <;> rfl
  · have hmem := (k.unmatched_spots d.chars).subset
      (List.mem_map_of_mem (List.mem_reverse.2 hpos))
    exact covers_char (List.mem_zipIdx_iff_getElem?.1 hmem)
  · have hlast : (tokens d.chars).Pairwise fun t _ => t.lexeme ≠ .quoted .endOfText :=
      tokensFrom_last 0 d.chars
    rw [d.filter_checkStructure fun f => decide_eq_decide.2 Option.some_inj,
      structureFindings, filter_unterminated _ _ hlast, ← brokenLiterals_eq, List.map_map]
    rfl
  · obtain ⟨hle, hstop⟩ := span_of_mem_brokenLiterals hl
    exact covers_slice hle hstop

example : parenthesis.strays [] (spots ") ')' ( // )\n\" (".toList) = [0] ∧
    parenthesis.unmatched [] (spots ") ')' ( // )\n\" (".toList) = [6] ∧
    brokenLiterals ") ')' ( // )\n\" (".toList = [(13, 16)] := by
  decide +kernel

end Document

end BurnLens
