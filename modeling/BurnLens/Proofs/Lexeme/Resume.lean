import BurnLens.Proofs.Lexeme.Code

/-!
# Where the cut resumes

A lexeme is not settled by its own characters. A run ends where the next character does not fit, a
word also looks for the first character behind it that is not white space, and a literal may take
anything along. So a text cannot simply be cut in two and each part be read for itself. It can where
a lexeme starts with a character that is not white space: nothing in front has looked past that
character, and the lexemes in front are the same whatever follows it (`tokensFrom_front`).
-/

namespace BurnLens

/-- The lexeme `n` characters further on. -/
def Token.shift (n : Nat) (t : Token) : Token :=
  ⟨n + t.start, n + t.stop, t.lexeme⟩

namespace Lexeme

variable {c e quote : Char} {x w : List Char}

/-- A run that does not go over `e` stops at the same place whatever is behind `e`. -/
theorem takeWhile_resume {p : Char → Bool} (h : ((x ++ e :: w).takeWhile p).length ≤ x.length) :
    ∃ u v, x = u ++ v ∧ ∀ w', (x ++ e :: w').takeWhile p = u ∧
      (x ++ e :: w').dropWhile p = v ++ e :: w' := by
  induction x with
  | nil =>
    have he : p e = false := by
      cases hp : p e with
      | false => rfl
      | true => simp [hp] at h
    exact ⟨[], [], rfl, fun w' => by simp [he]⟩
  | cons c x ih =>
    cases hp : p c with
    | false => exact ⟨[], c :: x, rfl, fun w' => by simp [hp]⟩
    | true =>
      simp only [List.cons_append, List.takeWhile_cons, hp, if_true, List.length_cons] at h
      obtain ⟨u, v, rfl, hrun⟩ := ih (Nat.le_of_succ_le_succ h)
      refine ⟨c :: u, v, rfl, fun w' => ?_⟩
      simpa [hp] using hrun w'

/-- A search that stops at `e` at the latest finds the same whatever is behind `e`. -/
theorem head?_dropWhile_resume {p : Char → Bool} (he : p e = false) (w w' : List Char) :
    ((x ++ e :: w).dropWhile p).head? = ((x ++ e :: w').dropWhile p).head? := by
  induction x with
  | nil => simp [he]
  | cons c x ih =>
    cases hp : p c with
    | false => simp [hp]
    | true => simpa [hp] using ih

theorem quotedTail_cons (hc : ¬ (c == '\\') = true) (cs : List Char) :
    quotedTail quote (c :: cs) =
      if c == quote then (1, .closed)
      else if c == '\n' then (0, .newline)
      else ((quotedTail quote cs).1 + 1, (quotedTail quote cs).2) := by
  cases cs <;> simp [quotedTail, hc]

/-- A literal that does not go over `e` ends in front of it whatever is behind `e`. -/
theorem quotedTail_resume (h : (quotedTail quote (x ++ e :: w)).1 ≤ x.length) (w' : List Char) :
    quotedTail quote (x ++ e :: w') = quotedTail quote (x ++ e :: w) := by
  fun_induction quotedTail quote x with
  | case1 =>
    by_cases he : (e == '\\') = true
    · cases w <;> simp [quotedTail, he] at h
    · simp only [List.nil_append, quotedTail_cons he] at h ⊢
      split at h
      · cases h
      split at h
      · simp [*]
      · cases h
  | case2 c hc => simp [quotedTail, hc] at h
  | case3 c hc d rest ih =>
    simp only [List.cons_append, quotedTail, hc, if_true] at h ⊢
    rw [ih (Nat.le_of_add_le_add_right h)]
  | case4 c cs hc hq => simp [quotedTail_cons hc, hq]
  | case5 c cs hc hq hn => simp [quotedTail_cons hc, hq, hn]
  | case6 c cs hc hq hn ih =>
    rw [List.cons_append, quotedTail_cons hc, if_neg hq, if_neg hn] at h ⊢
    rw [ih (Nat.le_of_add_le_add_right h), List.cons_append, quotedTail_cons hc, if_neg hq,
      if_neg hn]

/-- A lexeme that ends in front of `e` is the same whatever is behind `e`. -/
theorem read_resume (he : Text.isBlank e = false)
    (h : (read c (x ++ e :: w)).2 ≤ (c :: x).length) (w' : List Char) :
    read c (x ++ e :: w') = read c (x ++ e :: w) := by
  have hhead : (x ++ e :: w').head? = (x ++ e :: w).head? := by cases x <;> rfl
  unfold read at h ⊢
  rw [hhead]
  simp only [← List.cons_append] at h ⊢
  split at h
  next hcomment =>
    obtain ⟨u, v, -, hrun⟩ := takeWhile_resume h
    rw [if_pos hcomment, if_pos hcomment, (hrun w).1, (hrun w').1]
  next hcomment =>
    rw [if_neg hcomment, if_neg hcomment]
    split at h
    next hquote =>
      simp only [if_pos hquote, quotedTail_resume (Nat.le_of_succ_le_succ h) w']
    next hquote =>
      rw [if_neg hquote, if_neg hquote]
      split at h
      next hword =>
        obtain ⟨u, v, -, hrun⟩ := takeWhile_resume h
        rw [if_pos hword, if_pos hword]
        simp only [hrun, head?_dropWhile_resume he w w']
      next hword => rw [if_neg hword, if_neg hword]

/-- The lexemes in front of one that starts with `e` are the same whatever is behind `e`. -/
theorem tokensFrom_front {a : List Char} (he : Text.isBlank e = false) (pos : Nat)
    (h : ∃ t ∈ tokensFrom pos 0 (a ++ e :: w), t.start = pos + a.length) :
    ∃ front : List Token, (∀ t ∈ front, t.start < t.stop ∧ t.stop ≤ pos + a.length) ∧
      ∀ w', tokensFrom pos 0 (a ++ e :: w') =
        front ++ tokensFrom (pos + a.length) 0 (e :: w') := by
  induction hcs : a ++ e :: w using read_induction generalizing a pos with
  | nil => simp at hcs
  | cons c cs ih =>
    cases a with
    | nil => exact ⟨[], by simp, fun w' => rfl⟩
    | cons d x =>
      obtain ⟨rfl, rfl⟩ := List.cons.inj hcs
      obtain ⟨t, ht, hstart⟩ := h
      rw [List.cons_append, tokensFrom_cons, List.mem_cons] at ht
      rcases ht with rfl | ht
      · simp at hstart
      -- The first lexeme ends where the next one starts, so not behind `e`.
      have hle : (read d (x ++ e :: w)).2 ≤ (d :: x).length := by
        have hfirst := le_start_of_mem_tokensFrom ht
        omega
      have hdrop : ∀ w', (d :: x ++ e :: w').drop (read d (x ++ e :: w)).2 =
          (d :: x).drop (read d (x ++ e :: w)).2 ++ e :: w' :=
        fun w' => List.drop_append_of_le_length hle
      have hend : pos + (read d (x ++ e :: w)).2 + ((d :: x).drop (read d (x ++ e :: w)).2).length =
          pos + (d :: x).length := by
        rw [List.length_drop]
        omega
      rw [← List.cons_append, hdrop] at ht
      obtain ⟨front, hfront, heq⟩ := ih _ ⟨t, ht, hstart.trans hend.symm⟩ (hdrop w).symm
      rw [hend] at hfront heq
      refine ⟨⟨pos, pos + (read d (x ++ e :: w)).2, (read d (x ++ e :: w)).1⟩ :: front,
        List.forall_mem_cons.2 ⟨⟨?_, ?_⟩, hfront⟩, fun w' => ?_⟩
      · exact Nat.lt_add_of_pos_right (read_pos d _)
      · exact Nat.add_le_add_left hle pos
      · rw [List.cons_append, tokensFrom_cons, read_resume he hle w', ← List.cons_append, hdrop,
          heq, List.cons_append]

theorem tokensFrom_shift (n pos : Nat) (cs : List Char) :
    tokensFrom (n + pos) 0 cs = (tokensFrom pos 0 cs).map (Token.shift n) := by
  induction cs using read_induction generalizing pos with
  | nil => rfl
  | cons c cs ih =>
    rw [tokensFrom_cons, tokensFrom_cons, List.map_cons, ← ih, Token.shift]
    simp only [Nat.add_assoc]

/-- A lexeme is what is read where it starts. -/
theorem exists_of_mem_tokensFrom {pos : Nat} {cs : List Char} {t : Token}
    (h : t ∈ tokensFrom pos 0 cs) :
    ∃ c w, cs.drop (t.start - pos) = c :: w ∧
      t = ⟨t.start, t.start + (read c w).2, (read c w).1⟩ := by
  induction cs using read_induction generalizing pos with
  | nil => cases h
  | cons c cs ih =>
    rw [tokensFrom_cons] at h
    rcases List.mem_cons.1 h with rfl | h
    · exact ⟨c, cs, by simp, rfl⟩
    · obtain ⟨d, w, hdrop, heq⟩ := ih h
      have hle := le_start_of_mem_tokensFrom h
      rw [List.drop_drop] at hdrop
      refine ⟨d, w, ?_, heq⟩
      rw [← hdrop]
      congr 1
      omega

/-- A lexeme stands in the text. -/
theorem span_of_mem_tokensFrom {pos : Nat} {cs : List Char} {t : Token}
    (h : t ∈ tokensFrom pos 0 cs) : t.start ≤ t.stop ∧ t.stop ≤ pos + cs.length := by
  obtain ⟨c, w, hdrop, heq⟩ := exists_of_mem_tokensFrom h
  have hle := le_start_of_mem_tokensFrom h
  have hread := read_le c w
  have hlength := congrArg List.length hdrop
  rw [List.length_drop] at hlength
  have hstop : t.stop = t.start + (read c w).2 := congrArg Token.stop heq
  rw [← hlength] at hread
  have hpos := read_pos c w
  omega

/-- A mark is the character that stands there. -/
theorem getElem?_of_mark {pos : Nat} {cs : List Char} {t : Token} (h : t ∈ tokensFrom pos 0 cs)
    (hmark : t.lexeme = .mark c) : cs[t.start - pos]? = some c := by
  obtain ⟨d, w, hdrop, heq⟩ := exists_of_mem_tokensFrom h
  have hread : (read d w).1 = .mark c := by rw [← hmark, heq]
  have hd : d = c := by
    cases read_case d w with
    | comment _ _ _ _ _ heq => simp [heq] at hread
    | quoted _ heq => simp [heq] at hread
    | word _ _ _ _ _ heq => simp [heq] at hread
    | mark _ _ _ heq => simpa [heq] using hread
  rw [← List.head?_drop, hdrop, hd]
  rfl

/-- A comment, the newline behind it, and the lines that follow. -/
theorem tokensFrom_comment {body : List Char} (hbody : '\n' ∉ body) (pos : Nat) (b : List Char) :
    tokensFrom pos 0 ('/' :: '/' :: (body ++ '\n' :: b)) =
      ⟨pos, pos + (body.length + 2), .comment⟩ ::
      ⟨pos + (body.length + 2), pos + (body.length + 2) + 1, .mark '\n'⟩ ::
      tokensFrom (pos + (body.length + 2) + 1) 0 b := by
  have hinside : ∀ c ∈ body, (c != '\n') = true :=
    fun c hc => bne_iff_ne.2 fun heq => hbody (heq ▸ hc)
  have hline : (body ++ '\n' :: b).takeWhile (· != '\n') = body := by
    rw [List.takeWhile_append_of_pos hinside]
    simp
  have hread : read '/' ('/' :: (body ++ '\n' :: b)) = (.comment, body.length + 2) := by
    simp [read, hline]
  have hdrop : ('/' :: '/' :: (body ++ '\n' :: b)).drop (body.length + 2) = '\n' :: b := by
    simp
  have hnewline : read '\n' b = (.mark '\n', 1) := rfl
  rw [tokensFrom_cons, hread, hdrop, tokensFrom_cons, hnewline]
  rfl

theorem read_of_quote (hquote : c = '"' ∨ c = '\'') (cs : List Char) :
    read c cs = (.quoted (quotedTail c cs).2, (quotedTail c cs).1 + 1) := by
  rcases hquote with rfl | rfl <;> rfl

theorem quote_of_read {cs : List Char} {e : Ending} (h : (read c cs).1 = .quoted e) :
    c = '"' ∨ c = '\'' := by
  cases read_case c cs with
  | comment _ _ _ _ _ heq => simp [heq] at h
  | quoted hquote _ => exact hquote
  | word _ _ _ _ _ heq => simp [heq] at h
  | mark _ _ _ heq => simp [heq] at h

/-- A literal without quotes, backslashes and newlines inside. -/
theorem quotedTail_plain (hquote : quote ≠ '\\') {body : List Char}
    (hbody : ∀ c ∈ body, c ≠ quote ∧ c ≠ '\\' ∧ c ≠ '\n') (b : List Char) :
    quotedTail quote (body ++ quote :: b) = (body.length + 1, .closed) := by
  induction body with
  | nil =>
    have hc : ¬ (quote == '\\') = true := by simpa using hquote
    rw [List.nil_append, quotedTail_cons hc, if_pos (beq_self_eq_true quote)]
    rfl
  | cons c body ih =>
    obtain ⟨hq, hb, hn⟩ := hbody c List.mem_cons_self
    have hrest := ih fun d hd => hbody d (List.mem_cons_of_mem c hd)
    have hc : ¬ (c == '\\') = true := by simpa using hb
    rw [List.cons_append, quotedTail_cons hc, hrest]
    simp [hq, hn]

end Lexeme

end BurnLens
