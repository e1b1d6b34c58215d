import BurnLens.Proofs.Check.Declaration
import BurnLens.Proofs.Check.Matching
import BurnLens.Proofs.Lexeme.Resume
import BurnLens.Proofs.Text.Overlap

/-!
# Where a block ends

Two scans look for the brace that closes a block. `endFrom` starts behind the opening brace, goes
from character to character and counts how deep it is. The syntax stage starts at the head of the
text, goes from lexeme to lexeme and keeps the open delimiters of each kind on a stack. The first
becomes a count over lexemes (`endFrom_code`), and that count is how many openers are above the one
of the block on the stack of the braces (`popper?_eq_closingBrace?`). So a class ends at the brace
that takes its own opener off that stack (`classDefinition_matching`).
-/

namespace BurnLens

namespace Symbol
open Lexeme
variable {depth pos stop : Nat} {cs : List Char}

/-! ### From character to character -/

/-- The offset of the brace that closes a block, `depth` blocks being open inside it. -/
def closingBrace? (depth : Nat) : List Token → Option Nat
  | [] => none
  | t :: rest =>
    if t.lexeme = .mark '{' then closingBrace? (depth + 1) rest
    else if t.lexeme = .mark '}' then
      match depth with
      | 0 => some t.start
      | depth + 1 => closingBrace? depth rest
    else closingBrace? depth rest

theorem closingBrace?_cons_of_ne {t : Token} {ts : List Token} (hopen : t.lexeme ≠ .mark '{')
    (hclose : t.lexeme ≠ .mark '}') : closingBrace? depth (t :: ts) = closingBrace? depth ts := by
  cases depth <;> simp [closingBrace?, hopen, hclose]

/-- A comment is passed up to the end of its line. -/
theorem endFrom_comment {body rest : List Char} (hbody : '\n' ∉ body)
    (hrest : rest.head?.all (· == '\n') = true) (depth pos : Nat) :
    endFrom .comment depth pos (body ++ rest) = endFrom .code depth (pos + body.length) rest := by
  induction body generalizing pos with
  | nil =>
    cases rest with
    | nil => rfl
    | cons d rest =>
      obtain rfl : d = '\n' := by simpa using hrest
      rfl
  | cons c body ih =>
    have hc : (c == '\n') = false := beq_false_of_ne fun h => hbody (h ▸ List.mem_cons_self)
    have hbehind := ih (fun h => hbody (List.mem_cons_of_mem c h)) (pos + 1)
    rw [List.cons_append, endFrom, hc, List.length_cons, Nat.add_comm body.length, ← Nat.add_assoc]
    exact hbehind

/-- A literal is passed up to where it ends; the text may end first. -/
theorem endFrom_literal (quote : Char) (depth pos : Nat) (cs : List Char) :
    endFrom (.literal quote) depth pos cs =
      endFrom .code depth (pos + (quotedTail quote cs).1) (cs.drop (quotedTail quote cs).1) := by
  fun_induction quotedTail quote cs generalizing pos with
  | case1 => rfl
  | case2 c h => simp [endFrom, h]
  | case3 c h d rest ih => simp [endFrom, h, ih, Nat.add_assoc, Nat.add_comm 2]
  | case4 c cs hb hq => simp [endFrom_literal_cons hb, hq]
  | case5 c cs hb hq hn =>
    obtain rfl : c = '\n' := by simpa using hn
    simp [endFrom_literal_cons hb, endFrom]
  | case6 c cs hb hq hn ih =>
    simp [endFrom_literal_cons hb, hq, hn, ih, Nat.add_assoc, Nat.add_comm 1]

/-- A word is passed. -/
theorem endFrom_word {w : List Char} (hw : ∀ c ∈ w, Text.isIdentChar c = true) (depth pos : Nat)
    (rest : List Char) :
    endFrom .code depth pos (w ++ rest) = endFrom .code depth (pos + w.length) rest := by
  induction w generalizing pos with
  | nil => rfl
  | cons c w ih =>
    have hc := hw c List.mem_cons_self
    have hplain : c ≠ '"' ∧ c ≠ '\'' ∧ c ≠ '/' ∧ c ≠ '{' ∧ c ≠ '}' := by
      refine ⟨?_, ?_, ?_, ?_, ?_⟩ <;> rintro rfl <;> exact absurd hc (by decide)
    have hbehind := ih (fun d hd => hw d (List.mem_cons_of_mem c hd)) (pos + 1)
    simp [endFrom, hplain, hbehind, Nat.add_assoc, Nat.add_comm 1]

/-- The scan over characters counts braces as one over lexemes would. -/
theorem endFrom_code (depth pos : Nat) (cs : List Char) :
    endFrom .code depth pos cs = closingBrace? depth (tokensFrom pos 0 cs) := by
  induction cs using read_induction generalizing depth pos with
  | nil => rfl
  | cons c cs ih =>
    rw [tokensFrom_cons]
    cases read_case c cs with
    | comment body rest hcs hbody hrest heq =>
      rw [heq] at ih ⊢
      rw [closingBrace?_cons_of_ne (by simp) (by simp), ← ih, hcs, List.drop_left' rfl]
      have hslash : '\n' ∉ '/' :: body := by simp [hbody]
      have hcomment := endFrom_comment hslash hrest depth (pos + 1)
      simpa [endFrom, Nat.add_assoc, Nat.add_comm 1] using hcomment
    | quoted hquote heq =>
      rw [heq] at ih ⊢
      rw [closingBrace?_cons_of_ne (by simp) (by simp), ← ih, List.drop_succ_cons]
      have hliteral := endFrom_literal c depth (pos + 1) cs
      simpa [endFrom, hquote, Nat.add_assoc, Nat.add_comm 1] using hliteral
    | word name rest hcs hname _ heq =>
      rw [heq] at ih ⊢
      rw [closingBrace?_cons_of_ne (by simp) (by simp), ← ih, hcs, List.drop_left' rfl]
      exact endFrom_word hname depth pos rest
    | mark hcomment hquote _ heq =>
      rw [heq] at ih ⊢
      simp only [List.drop_succ_cons, List.drop_zero] at ih ⊢
      by_cases hopen : c = '{'
      · simp [endFrom, closingBrace?, hopen, ih]
      by_cases hclose : c = '}'
      · cases depth with
        | zero => simp [endFrom, closingBrace?, hclose]
        | succ depth => simp [endFrom, closingBrace?, hclose, ih]
      · rw [closingBrace?_cons_of_ne (by simpa using hopen) (by simpa using hclose), ← ih]
        simp [endFrom, hcomment, hquote, hopen, hclose]

theorem blockEnd_eq (cs : List Char) (start : Nat) :
    blockEnd cs start = (closingBrace? 0 (tokensFrom start 0 (cs.drop start))).getD cs.length := by
  rw [blockEnd, endFrom_code]

theorem exists_of_closingBrace? {ts : List Token} (h : closingBrace? depth ts = some stop) :
    ∃ t ∈ ts, t.start = stop ∧ t.lexeme = .mark '}' := by
  fun_induction closingBrace? depth ts with
  | case1 => cases h
  | case2 depth t rest hopen ih =>
    obtain ⟨u, hu, hstop⟩ := ih h
    exact ⟨u, .tail t hu, hstop⟩
  | case3 t rest hopen hclose => exact ⟨t, .head rest, Option.some.inj h, hclose⟩
  | case4 t rest hopen hclose depth ih =>
    obtain ⟨u, hu, hstop⟩ := ih h
    exact ⟨u, .tail t hu, hstop⟩
  | case5 depth t rest hopen hclose ih =>
    obtain ⟨u, hu, hstop⟩ := ih h
    exact ⟨u, .tail t hu, hstop⟩

end Symbol

/-! ### The stacks behind the lexemes -/

/-- The stacks behind a lexeme: an opener goes on its stack, a closer takes the top of its stack
off, if there is one. -/
def Delimiter.Opens.step (opens : Opens) (t : Token) : Opens :=
  match t.lexeme with
  | .mark c =>
    match opened? c with
    | some k => opens.set k (t.start :: opens k)
    | none =>
      match closed? c with
      | some k => opens.set k (opens k).tail
      | none => opens
  | _ => opens

namespace Check
open Delimiter Lexeme
variable {opens : Opens} {t : Token} {ts us : List Token} {p : Nat}

/-- The stacks are those with which the syntax stage goes on behind the lexemes; what it has
reported until then stays in front. -/
theorem structureFrom_append (opens : Opens) (us : List Token)
    (h : ∀ t ∈ ts, t.lexeme ≠ .quoted .endOfText) :
    ∃ found, structureFrom opens (ts ++ us) =
      found ++ structureFrom (ts.foldl Opens.step opens) us := by
  induction ts generalizing opens with
  | nil => exact ⟨[], rfl⟩
  | cons t ts ih =>
    have hbehind : ∀ opens, ∃ found, structureFrom opens (ts ++ us) =
        found ++ structureFrom (ts.foldl Opens.step opens) us :=
      fun opens => ih opens fun u hu => h u (.tail t hu)
    -- At most one finding comes in front.
    suffices hstep : ∃ first, structureFrom opens (t :: (ts ++ us)) =
        first ++ structureFrom (opens.step t) (ts ++ us) by
      obtain ⟨first, hfirst⟩ := hstep
      obtain ⟨found, hfound⟩ := hbehind (opens.step t)
      exact ⟨first ++ found, by rw [List.cons_append, hfirst, hfound, List.append_assoc]; rfl⟩
    obtain ⟨start, stop, lexeme⟩ := t
    cases lexeme with
    | comment => exact ⟨[], rfl⟩
    | quoted ending =>
      cases ending with
      | closed => exact ⟨[], rfl⟩
      | newline => exact ⟨[unterminatedString start stop], rfl⟩
      | endOfText => exact absurd rfl (h _ (.head ts))
    | word name next =>
      rw [structureFrom]
      split
      · exact ⟨[missingName start stop name], rfl⟩
      · exact ⟨[], rfl⟩
    | mark c =>
      simp only [structureFrom, Opens.step]
      cases opened? c with
      | some k => exact ⟨[], rfl⟩
      | none =>
        cases closed? c with
        | none => exact ⟨[], rfl⟩
        | some k =>
          cases hk : opens k with
          | nil => exact ⟨[unexpectedCloser k start], by simp [hk, Opens.set_eq_self opens hk]⟩
          | cons pos outer => exact ⟨[], by simp [hk]⟩

theorem step_open (h : t.lexeme = .mark '{') :
    opens.step t .brace = t.start :: opens .brace := by
  rw [Opens.step, h]
  exact Opens.set_self opens .brace _

theorem step_close (h : t.lexeme = .mark '}') : opens.step t .brace = (opens .brace).tail := by
  rw [Opens.step, h]
  exact Opens.set_self opens .brace _

theorem step_other (hopen : t.lexeme ≠ .mark '{') (hclose : t.lexeme ≠ .mark '}') :
    opens.step t .brace = opens .brace := by
  obtain ⟨start, stop, lexeme⟩ := t
  cases lexeme with
  | mark c =>
    simp only [Opens.step]
    cases hopened : opened? c with
    | some k =>
      obtain rfl := opened?_eq_some hopened
      have hk : k ≠ .brace := fun h => hopen (congrArg (Lexeme.mark ∘ opener) h)
      exact Opens.set_of_ne opens hk _
    | none =>
      cases hclosed : closed? c with
      | some k =>
        obtain rfl := closed?_eq_some hclosed
        have hk : k ≠ .brace := fun h => hclose (congrArg (Lexeme.mark ∘ closer) h)
        exact Opens.set_of_ne opens hk _
      | none => rfl
  | _ => rfl

/-! ### The closer of an opener -/

/-- The offset of the lexeme that takes the opener at `p` off the stack of the braces. -/
def popper? (p : Nat) (opens : Opens) : List Token → Option Nat
  | [] => none
  | t :: ts =>
    if p ∈ opens .brace ∧ p ∉ opens.step t .brace then some t.start
    else popper? p (opens.step t) ts

/-- The opener is not on the stack before it is read. -/
theorem popper?_before (opens : Opens) (hopens : p ∉ opens .brace) (hts : ∀ t ∈ ts, t.start ≠ p) :
    p ∉ ts.foldl Opens.step opens .brace ∧
      popper? p opens (ts ++ us) = popper? p (ts.foldl Opens.step opens) us := by
  induction ts generalizing opens with
  | nil => exact ⟨hopens, rfl⟩
  | cons t ts ih =>
    have hstep : p ∉ opens.step t .brace := by
      by_cases hopen : t.lexeme = .mark '{'
      · rw [step_open hopen]
        exact List.not_mem_cons_of_ne_of_not_mem (hts t (.head ts)).symm hopens
      by_cases hclose : t.lexeme = .mark '}'
      · rw [step_close hclose]
        exact fun hmem => hopens (List.mem_of_mem_tail hmem)
      · rwa [step_other hopen hclose]
    rw [List.cons_append, popper?, if_neg fun h => hopens h.1]
    exact ih (opens.step t) hstep fun u hu => hts u (.tail t hu)

/-- Once the opener is read, the depth inside its block is how many openers are above it. -/
theorem popper?_eq_closingBrace? (above : List Nat) {below : List Nat}
    (hopens : opens .brace = above ++ p :: below) (hbelow : p ∉ below)
    (hts : ∀ t ∈ ts, t.start ≠ p) :
    popper? p opens ts = Symbol.closingBrace? above.length ts := by
  induction ts generalizing opens above with
  | nil => cases above <;> rfl
  | cons t ts ih =>
    have hts' : ∀ u ∈ ts, u.start ≠ p := fun u hu => hts u (.tail t hu)
    have hstays : ∀ above', opens.step t .brace = above' ++ p :: below →
        popper? p opens (t :: ts) = Symbol.closingBrace? above'.length ts := by
      intro above' hstep
      rw [popper?, if_neg (by simp [hstep])]
      exact ih above' hstep hts'
    by_cases hopen : t.lexeme = .mark '{'
    · rw [hstays (t.start :: above) (by rw [step_open hopen, hopens]; rfl)]
      simp [Symbol.closingBrace?, hopen]
    by_cases hclose : t.lexeme = .mark '}'
    · cases above with
      | nil =>
        have hstep : opens.step t .brace = below := by rw [step_close hclose, hopens]; rfl
        rw [popper?, if_pos (by simp [hstep, hopens, hbelow])]
        simp [Symbol.closingBrace?, hclose]
      | cons q above =>
        rw [hstays above (by rw [step_close hclose, hopens]; rfl)]
        simp [Symbol.closingBrace?, hclose]
    · rw [hstays above (by rw [step_other hopen hclose, hopens]),
        Symbol.closingBrace?_cons_of_ne hopen hclose]

/-- The brace that takes an opener off the stack is the one where the scan ends that starts behind
the opener. -/
theorem popper?_eq_endFrom {a rest : List Char}
    (hcode : ⟨a.length, a.length + 1, .mark '{'⟩ ∈ tokens (a ++ '{' :: rest)) :
    popper? a.length (fun _ => []) (tokens (a ++ '{' :: rest)) =
      Symbol.endFrom .code 0 (a.length + 1) rest := by
  obtain ⟨ts, hts, htokens⟩ :=
    tokensFrom_front (e := '{') rfl 0 ⟨_, hcode, (Nat.zero_add a.length).symm⟩
  have hsplit : tokens (a ++ '{' :: rest) =
      ts ++ ⟨a.length, a.length + 1, .mark '{'⟩ :: tokensFrom (a.length + 1) 0 rest := by
    rw [tokens, htokens, tokensFrom_cons, Nat.zero_add]
    rfl
  have hbefore : ∀ t ∈ ts, t.start ≠ a.length := by
    intro t ht
    have := hts t ht
    omega
  have hbehind : ∀ t ∈ tokensFrom (a.length + 1) 0 rest, t.start ≠ a.length := by
    intro t ht
    have := le_start_of_mem_tokensFrom ht
    omega
  obtain ⟨hbelow, hpopper⟩ := popper?_before (fun _ => []) List.not_mem_nil hbefore
  have hopen : (ts.foldl Opens.step fun _ => []).step ⟨a.length, a.length + 1, .mark '{'⟩ .brace =
      a.length :: ts.foldl Opens.step (fun _ => []) .brace := step_open rfl
  rw [hsplit, hpopper, popper?, if_neg (by simp [hopen]), Symbol.endFrom_code]
  exact popper?_eq_closingBrace? [] hopen hbelow hbehind

/-- What takes an opener off the stack is a closing brace behind it. -/
theorem popper?_brace {a rest : List Char} {closer : Nat}
    (hcode : ⟨a.length, a.length + 1, .mark '{'⟩ ∈ tokens (a ++ '{' :: rest))
    (h : closer ∈ popper? a.length (fun _ => []) (tokens (a ++ '{' :: rest))) :
    a.length + 1 ≤ closer ∧ (a ++ '{' :: rest)[closer]? = some '}' := by
  rw [popper?_eq_endFrom hcode, Symbol.endFrom_code] at h
  obtain ⟨t, ht, rfl, hmark⟩ := Symbol.exists_of_closingBrace? h
  have hle := le_start_of_mem_tokensFrom ht
  have hbehind : (a ++ '{' :: rest).drop (a.length + 1) = rest := by simp
  have hget := getElem?_of_mark ht hmark
  rw [← hbehind, List.getElem?_drop, Nat.add_sub_cancel' hle] at hget
  exact ⟨hle, hget⟩

end Check

namespace Symbol
open Check Delimiter Lexeme Text

/-- The header of a block ends with the brace that opens it. -/
theorem exists_of_mem_blockHeads {keyword : String} {cs : List Char} {h : Hit (List Char)}
    (hhead : h ∈ hits (anywhere (Pattern.blockHead keyword)) cs) :
    ∃ a rest, cs = a ++ '{' :: rest ∧ h.stop = a.length + 1 := by
  obtain ⟨front, u, rest, hcs, -, hread, -, hstop⟩ :=
    isMatch_of_mem_hits (Source.blockHead_reads keyword) hhead
  obtain ⟨gap, b, name, -, -, -, -, heq⟩ := Source.exists_of_blockHead hread
  refine ⟨front ++ (keyword.toList ++ (gap ++ (name.chars ++ b))), rest, by simp [hcs, heq], ?_⟩
  have := congrArg List.length heq
  simp only [List.length_append, List.length_cons] at this ⊢
  omega

/-- A class whose opening brace is code ends at the brace that takes it off the stack of the syntax
stage, or with the text if there is none, and its range covers it up to there. -/
theorem classDefinition_matching (d : Document) {h : Hit (List Char)}
    (hhead : h ∈ hits (anywhere (Pattern.blockHead "class")) d.chars)
    (hcode : ⟨h.stop - 1, h.stop, .mark '{'⟩ ∈ tokens d.chars) :
    let closer? := popper? (h.stop - 1) (fun _ => []) (tokens d.chars)
    let stop := closer?.getD d.chars.length
    let behind := closer?.elim d.chars.length (· + 1)
    (∀ ts us, tokens d.chars = ts ++ us → us ≠ [] → ∃ found, structureFindings d.chars =
      found ++ structureFrom (ts.foldl Opens.step fun _ => []) us) ∧
    (∀ closer ∈ closer?, d.chars[closer]? = some '}') ∧
    blockEnd d.chars h.stop = stop ∧
    classDefinition d h =
      { name := String.ofList h.value
        methods := byName Signature.name ((functionHits (slice d.chars h.stop stop)).map
          (signature d h.stop (some (String.ofList h.value))))
        range := d.rangeOf h.start behind
        uri := d.uri } ∧
    d.Covers (classDefinition d h).range (slice d.chars h.start behind) h.start := by
  have hmatch := isMatch_of_mem_hits (Source.blockHead_reads "class") hhead
  obtain ⟨a, rest, hchars, hlength⟩ := exists_of_mem_blockHeads hhead
  have hspan : h.start < a.length + 1 ∧ a.length + 1 ≤ d.chars.length :=
    hlength ▸ ⟨hmatch.lt, hmatch.le⟩
  rw [hlength, Nat.add_sub_cancel] at hcode ⊢
  rw [hchars] at hcode
  generalize hpop : popper? a.length (fun _ => []) (tokens d.chars) = closer?
  have hend : blockEnd d.chars (a.length + 1) = closer?.getD d.chars.length := by
    have hbehind : (a ++ '{' :: rest).drop (a.length + 1) = rest := by simp
    rw [← hpop, hchars, popper?_eq_endFrom hcode, blockEnd, hbehind]
  have hbrace : ∀ closer ∈ closer?, a.length + 1 ≤ closer ∧ d.chars[closer]? = some '}' := by
    rw [← hpop, hchars]
    exact fun _ hmem => popper?_brace hcode hmem
  have hrange : min (closer?.getD d.chars.length + 1) d.chars.length =
      closer?.elim d.chars.length (· + 1) := by
    cases closer? with
    | none => exact Nat.min_eq_right (Nat.le_succ _)
    | some closer =>
      obtain ⟨hlt, -⟩ := List.getElem?_eq_some_iff.1 (hbrace closer rfl).2
      exact Nat.min_eq_left hlt
  have hbehind : h.start ≤ closer?.elim d.chars.length (· + 1) := by
    cases closer? with
    | none => exact Nat.le_trans (Nat.le_of_lt hspan.1) hspan.2
    | some closer =>
      have hle := (hbrace closer rfl).1
      dsimp only [Option.elim_some]
      omega
  have hclass : classDefinition d h =
      { name := String.ofList h.value
        methods := byName Signature.name ((functionHits (slice d.chars (a.length + 1)
          (closer?.getD d.chars.length))).map
            (signature d (a.length + 1) (some (String.ofList h.value))))
        range := d.rangeOf h.start (closer?.elim d.chars.length (· + 1) : Nat)
        uri := d.uri } := by
    simp only [classDefinition, hlength, hend, hrange]
  refine ⟨fun ts us hsplit hus => ?_, fun closer hmem => (hbrace closer hmem).2, hend, hclass, ?_⟩
  · -- A literal that ends with the text is the last lexeme.
    have hlast : (tokens d.chars).Pairwise fun t _ => t.lexeme ≠ .quoted .endOfText :=
      tokensFrom_last 0 d.chars
    obtain ⟨u, us, rfl⟩ := List.exists_cons_of_ne_nil hus
    rw [hsplit] at hlast
    rw [structureFindings, hsplit]
    exact structureFrom_append _ _ fun t ht =>
      (List.pairwise_append.1 hlast).2.2 t ht u List.mem_cons_self
  · rw [hclass]
    exact Document.covers_slice hbehind (hrange ▸ Nat.min_le_right _ _)

/-- A block, a literal with an escaped quote, a comment, a literal that is cut off: the braces in
them are not the one that closes the class, nor is the one behind it. -/
theorem classDefinition_matching_nested :
    let text := "var s = '\x7b'\nclass C \x7b\nfun m() \x7b \"\\\"\x7d\" // \x7d\n" ++
      "\x7d '\n\x7d\n\x7d"
    let d : Document := ⟨"file:///ws/main.bn", 0, text⟩
    let h : Hit (List Char) := ⟨12, 21, ['C']⟩
    h ∈ hits (anywhere (Pattern.blockHead "class")) d.chars ∧
      ⟨20, 21, .mark '{'⟩ ∈ tokens d.chars ∧
      popper? 20 (fun _ => []) (tokens d.chars) = some 47 ∧
      blockEnd d.chars 21 = 47 ∧
      (classDefinition d h).methods.values.map (·.name) = ["m"] ∧
      (classDefinition d h).range = d.rangeOf 12 48 := by
  intro text d h
  have hhead : h ∈ hits (anywhere (Pattern.blockHead "class")) d.chars := by
    have hfound : ∃ m ∈ hits (anywhere (Pattern.blockHead "class")) d.chars,
        m.start = 12 ∧ m.stop = 21 ∧ m.value = ['C'] := by decide +kernel
    obtain ⟨⟨_, _, _⟩, hmem, rfl, rfl, rfl⟩ := hfound
    exact hmem
  have hcode : ⟨20, 21, .mark '{'⟩ ∈ tokens d.chars := by decide +kernel
  have hcloser : popper? 20 (fun _ => []) (tokens d.chars) = some 47 := by decide +kernel
  obtain ⟨-, -, hend, hclass, -⟩ := classDefinition_matching d hhead hcode
  rw [show popper? (h.stop - 1) (fun _ => []) (tokens d.chars) = some 47 from hcloser]
    at hend hclass
  refine ⟨hhead, hcode, hcloser, hend, ?_, ?_⟩
  · rw [hclass]
    decide +kernel
  · rw [hclass]
    rfl

end Symbol

end BurnLens
