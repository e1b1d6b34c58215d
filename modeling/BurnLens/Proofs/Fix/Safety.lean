import BurnLens.Proofs.Check.Undeclared
import BurnLens.Proofs.Fix.Moved

/-!
# What an underscore leaves undeclared

A use of the new text is the new name, or it stands in the old text as well, at the place that
belongs to its own and with or without a dot in front as there (`Site.exists_use`). What the new
text leaves undeclared the old one did too, or it is the renamed variable in front of its
declaration, where lint does not look. If the keyword and the name stand on different lines it may
also be a name from a string literal or a comment, since the joined line ends neither
(`underscore_safe`).
-/

namespace BurnLens

open Text Check Source

namespace Source

/-- What stands behind a keyword is no part of a use and tells nothing about it. -/
theorem plainUse_solid {before : Option Char} {w t : List Char} (hw : Solid w) (ht : Gapped t) :
    Pattern.plainUse before (w ++ t) =
      (Pattern.plainUse before w).map fun m => (m.1, m.2 ++ t) := by
  have hrest : ∀ r, r <:+ w → isWordAt (r ++ t).head? = isWordAt r.head? ∧
      (blanks (r ++ t)).head?.any Pattern.marksOther =
        (blanks r).head?.any Pattern.marksOther := by
    intro r hr
    cases r with
    | nil =>
      obtain ⟨c, hc, hblank⟩ := ht.blank
      obtain ⟨d, hd, hstart⟩ := ht.start
      rw [Option.mem_def] at hc hd
      have hmark : Pattern.marksOther d = false := by
        refine Bool.eq_false_iff.2 fun h => ?_
        simp only [Pattern.marksOther, List.contains_eq_mem, List.mem_cons, List.not_mem_nil,
          or_false, decide_eq_true_eq] at h
        rcases h with rfl | rfl | rfl | rfl | rfl <;> cases hstart
      rw [List.nil_append, hc, hd]
      exact ⟨isWordChar_of_isBlank hblank, hmark⟩
    | cons c r =>
      have hblanks : blanks (c :: r) ≠ [] := by
        rw [blanks, ne_eq, List.dropWhile_eq_nil_iff]
        obtain ⟨d, hd, hblank⟩ := (hw.suffix hr).exists_nonblank (List.cons_ne_nil c r)
        exact fun hall => by simp [hall d hd] at hblank
      rw [blanks_solid (hw.suffix hr) (List.cons_ne_nil c r), List.head?_append_of_ne_nil _ hblanks]
      exact ⟨rfl, rfl⟩
  rw [Pattern.plainUse, Pattern.plainUse, identifier_gapped ht]
  cases isWordAt before with
  | true => rfl
  | false =>
    cases hname : identifier w with
    | none => rfl
    | some m =>
      obtain ⟨n, r⟩ := m
      obtain ⟨name, -, heq, -⟩ := exists_of_identifier hname
      obtain ⟨hafter, hmarks⟩ := hrest r ⟨name.chars, heq.symm⟩
      simp only [Bool.false_eq_true, ↓reduceIte, Option.bind_eq_bind, Option.map_some,
        Option.bind_some, hafter, hmarks]
      split
      · rfl
      · split <;> rfl

end Source

namespace Check

/-- The search for a dot does not go past a character that is no white space. -/
theorem head?_dropWhile_take {c : Char} (hc : isBlank c = false) (l m m' : List Char) (k : Nat) :
    (((l ++ c :: m).take k).dropWhile isBlank).head? =
      (((l ++ c :: m').take k).dropWhile isBlank).head? := by
  induction l generalizing k with
  | nil =>
    cases k with
    | zero => rfl
    | succ k => simp [hc]
  | cons d l ih =>
    cases k with
    | zero => rfl
    | succ k =>
      by_cases hd : isBlank d = true
      · simpa [hd] using ih k
      · simp [hd]

/-- What stands in front of a name tells nothing about the text behind it. -/
theorem afterDot_behind (name : Identifier) (front front' piece cs cs' : List Char) :
    afterDot (front ++ name.chars ++ piece ++ cs) (front ++ name.chars ++ piece).length =
      afterDot (front' ++ name.chars ++ piece ++ cs') (front' ++ name.chars ++ piece).length := by
  have hlast : isBlank (name.chars.getLast name.ne_nil) = false :=
    isBlank_of_isIdentChar (name.ident _ (List.getLast_mem name.ne_nil))
  have hreverse : ∀ front : List Char, (front ++ name.chars ++ piece).reverse =
      piece.reverse ++ name.chars.getLast name.ne_nil ::
        (name.chars.dropLast.reverse ++ front.reverse) := by
    intro front
    conv_lhs => rw [← List.dropLast_append_getLast name.ne_nil]
    simp
  rw [afterDot_eq, afterDot_eq, hreverse, hreverse, head?_dropWhile_take hlast]

end Check

namespace Fix.Site
variable {cs : List Char} (s : Site cs)

/-! ### Uses -/

/-- A use that starts in the keyword is the keyword. -/
theorem eq_keyword {x w n rest : List Char} (hw : s.front ++ s.decl.keyword.toList = x ++ w)
    (hle : s.front.length ≤ x.length) (hread : Pattern.plainUse x.getLast? w = some (n, rest)) :
    n = s.decl.keyword.toList := by
  obtain ⟨-, hword⟩ := ident_of_mem_leads _ s.decl.keyword_mem
  obtain ⟨k, rfl, hkeyword⟩ : ∃ k, x = s.front ++ k ∧ s.decl.keyword.toList = k ++ w := by
    rcases List.append_eq_append_iff.1 hw with ⟨k, hx, hkeyword⟩ | ⟨k, hfront, hk⟩
    · exact ⟨k, hx, hkeyword⟩
    · rw [hfront, List.length_append] at hle
      obtain rfl : k = [] := List.length_eq_zero_iff.1 (by omega)
      exact ⟨[], by simp [hfront], by simpa using hk.symm⟩
  obtain ⟨name, rfl, rfl, hapart, hbefore, -⟩ := exists_of_plainUse hread
  have hk : k = [] := by
    by_contra hne
    have hhead := isWordAt_head s.front hne fun c hc =>
      hword c (hkeyword ▸ List.mem_append_left _ hc)
    rw [hbefore] at hhead
    cases hhead
  have hrest : rest = [] := by
    cases rest with
    | nil => rfl
    | cons c rest =>
      have hmark : isIdentChar c = false := hapart c rfl
      rw [hword c (by simp [hkeyword])] at hmark
      cases hmark
  rw [hkeyword, hk, hrest, List.nil_append, List.append_nil]

theorem use_front {x w n rest : List Char} (hw : s.front ++ s.decl.keyword.toList = x ++ w)
    (hread : Pattern.plainUse x.getLast? (w ++ s.decl.underscored.behind s.back) = some (n, rest)) :
    ∃ r, Pattern.plainUse x.getLast? w = some (n, r) ∧
      Pattern.plainUse x.getLast? (w ++ s.decl.behind s.back) =
        some (n, r ++ s.decl.behind s.back) := by
  have hsolid : Solid w := by
    have h := s.decl.solid s.front
    rw [hw] at h
    exact h.suffix (List.suffix_append x w)
  rw [plainUse_solid hsolid (s.decl.underscored.gapped s.back)] at hread
  obtain ⟨⟨n', r⟩, hr, heq⟩ := Option.map_eq_some_iff.1 hread
  obtain rfl : n' = n := (Prod.mk.inj heq).1
  refine ⟨r, hr, ?_⟩
  rw [plainUse_solid hsolid (s.decl.gapped s.back), hr]
  rfl

/-- Behind the declaration the name is not used. -/
theorem ne_name {x b y n rest : List Char} (hback : s.back = b ++ y)
    (hread : Pattern.plainUse (x ++ b).getLast? y = some (n, rest)) : n ≠ s.decl.name.chars := by
  rintro rfl
  obtain ⟨name, hname, rfl, -, hbefore, hafter, -⟩ := exists_of_plainUse hread
  have hhead : isWordAt b.getLast? = false := by
    by_cases hb : b = []
    · rw [hb]
      rfl
    · rwa [List.getLast?_append_of_ne_nil x hb] at hbefore
  refine wholeWord_hits_ne_nil s.decl.name.ne_nil hhead hafter ?_
  rw [hname, ← hback, ← hname]
  exact s.unseen

/-- A use behind the keyword is the new name, or it stands behind that. -/
theorem use_behind {w v y n rest : List Char} (hsplit : s.decl.underscored.behind s.back = v ++ y)
    (hread : Pattern.plainUse (w ++ v).getLast? y = some (n, rest)) :
    n = '_' :: s.decl.name.chars ∨
      ∃ b, v = ' ' :: '_' :: (s.decl.name.chars ++ b) ∧ s.back = b ++ y := by
  obtain ⟨name, rfl, hy, hapart, hbefore, -⟩ := exists_of_plainUse hread
  have hbehind : ' ' :: '_' :: (s.decl.name.chars ++ s.back) = v ++ y := hsplit
  cases v with
  | nil =>
    -- No name starts with the space.
    obtain ⟨c, chars, hname, hc, -⟩ := name.exists_cons
    have hspace : ' ' = c := by
      rw [hy, hname] at hbehind
      exact (List.cons.inj hbehind).1
    rw [← hspace] at hc
    cases hc
  | cons d v =>
    obtain ⟨rfl, hrest⟩ := List.cons.inj hbehind
    cases v with
    | nil =>
      have hnew := s.decl.name.underscored.identifier s.apart
      have hold : identifier ('_' :: (s.decl.name.chars ++ s.back)) = some (name.chars, rest) := by
        rw [show '_' :: (s.decl.name.chars ++ s.back) = name.chars ++ rest from hrest.trans hy]
        exact name.identifier hapart
      exact .inl (Prod.mk.inj (Option.some.inj (hold.symm.trans hnew))).1
    | cons d v =>
      obtain ⟨rfl, hname⟩ := List.cons.inj hrest
      rcases List.append_eq_append_iff.1 hname with ⟨b, hv, hback⟩ | ⟨u, hu, -⟩
      · exact .inr ⟨b, by rw [hv], hback⟩
      · -- The place would have the underscore or a character of the name in front of it.
        have hword : ∀ c ∈ '_' :: v, isIdentChar c = true := by
          refine List.forall_mem_cons.2 ⟨rfl, fun c hc => ?_⟩
          exact s.decl.name.ident c (hu ▸ List.mem_append_left _ hc)
        have hhead := isWordAt_head (w ++ [' ']) (List.cons_ne_nil '_' v) hword
        rw [List.append_assoc] at hhead
        exact absurd (hbefore.symm.trans hhead) Bool.false_ne_true

/-- A use of the new text stands in the old one, unless it is the new name. -/
theorem exists_use {x y n rest : List Char} (hsplit : s.after = x ++ y)
    (hread : Pattern.plainUse x.getLast? y = some (n, rest)) :
    n = '_' :: s.decl.name.chars ∨
      ∃ x₀ y₀ r, cs = x₀ ++ y₀ ∧ Pattern.plainUse x₀.getLast? y₀ = some (n, r) ∧
        s.Place x₀.length x.length ∧ afterDot cs x₀.length = afterDot s.after x.length ∧
        (n = s.decl.name.chars → x₀.length < s.front.length ∨ n = s.decl.keyword.toList) := by
  rcases List.append_eq_append_iff.1 (s.after_eq.symm.trans hsplit) with
    ⟨v, rfl, hbehind⟩ | ⟨w, hw, rfl⟩
  · rcases s.use_behind hbehind hread with heq | ⟨b, rfl, hback⟩
    · exact .inl heq
    · right
      have hold :
          cs = s.front ++ s.decl.keyword.toList ++ s.decl.gap ++ s.decl.name.chars ++ b ++ y :=
        s.old_eq.trans (by simp [Declarator.behind, hback])
      have hnew : s.front ++ s.decl.keyword.toList ++ ' ' :: '_' :: (s.decl.name.chars ++ b) =
          s.front ++ s.decl.keyword.toList ++ [' ', '_'] ++ s.decl.name.chars ++ b := by simp
      have hsame : ∀ front : List Char, (front ++ s.decl.name.chars ++ b).getLast? =
          (s.decl.name.chars ++ b).getLast? := by
        intro front
        rw [List.append_assoc]
        exact List.getLast?_append_of_ne_nil _ (by simp [s.decl.name.ne_nil])
      rw [hnew] at hsplit hread ⊢
      refine ⟨_, y, rest, hold, ?_, .inr ?_, ?_, fun heq => ?_⟩
      · rwa [hsame] at hread ⊢
      · simp only [keywordEnd, List.length_append, List.length_cons, List.length_nil]
        omega
      · refine (congrArg (afterDot · _) hold).trans ?_
        rw [hsplit]
        exact afterDot_behind s.decl.name _ _ b y y
      · exact absurd heq (s.ne_name hback hread)
  · obtain ⟨r, hr, hold⟩ := s.use_front hw hread
    have hcs : cs = x ++ (w ++ s.decl.behind s.back) := by
      rw [← List.append_assoc, ← hw]
      exact s.old_eq
    have hlength := congrArg List.length hw
    rw [List.length_append, List.length_append] at hlength
    refine .inr ⟨x, _, _, hcs, hold, .inl ⟨by rw [keywordEnd]; omega, rfl⟩, ?_, fun _ => ?_⟩
    · refine (congrArg (afterDot · _) hcs).trans ?_
      rw [hsplit, afterDot_eq, afterDot_eq]
    · by_cases hlt : x.length < s.front.length
      · exact .inl hlt
      · exact .inr (s.eq_keyword hw (by omega) hr)

/-! ### Undeclared names -/

theorem keyword_known (declared : List (List Char)) :
    isKnown declared s.decl.keyword.toList = true := by
  have hkeyword : s.decl.keyword ∈ keywords := by
    rw [Declarator.keyword]
    split <;> simp [keywords]
  simp [isKnown, String.ofList_toList, hkeyword]

/-- What the old text knows the new one knows, apart from the name. -/
theorem known_after {n : List Char} (h : isKnown (declaredNames cs) n = true) :
    isKnown (declaredNames s.after) n = true ∨ n = s.decl.name.chars := by
  simp only [isKnown, List.contains_eq_mem, Bool.or_eq_true, decide_eq_true_eq] at h ⊢
  rcases h with ((h | h) | h) | h
  · exact .inl (.inl (.inl (.inl h)))
  · exact (s.declared_after h).imp_left fun h => .inl (.inl (.inr h))
  · exact .inl (.inl (.inr h))
  · exact .inl (.inr h)

theorem undeclared_after {d d' : Document} (s : Site d.chars) (hafter : d'.chars = s.after)
    {n : String} (h : d'.Undeclared n) :
    d.Undeclared n ∨ ∃ u ∈ hits Pattern.plainUse d.chars,
      u.value = n.toList ∧ afterDot d.chars u.start = false ∧
        (n.toList = s.decl.name.chars ∧ u.start < s.front.length ∧
            (nonCode d.chars).any (·.contains u.start) = false ∨
          '\n' ∈ s.decl.gap ∧ (nonCode d.chars).any (·.contains u.start) = true) := by
  obtain ⟨u', hmem, hvalue⟩ := Document.undeclared_iff.1 h
  rw [undeclaredUses, hafter] at hmem
  obtain ⟨hu', hcounts⟩ := List.mem_filter.1 hmem
  simp only [Bool.and_eq_true, Bool.not_eq_true', hvalue] at hcounts
  obtain ⟨⟨hunknown, hcode'⟩, hdot'⟩ := hcounts
  obtain ⟨x, y, rest, hsplit, hx, hread⟩ := mem_plainUse_iff.1 ⟨u', hu', rfl, hvalue⟩
  rw [← hx] at hcode' hdot'
  rcases s.exists_use hsplit hread with heq | ⟨x₀, y₀, r, hcs, hold, hplace, hdot, hname⟩
  · have hdeclared := s.underscored_declared
    rw [← heq] at hdeclared
    simp [isKnown, hdeclared] at hunknown
  · obtain ⟨u, hu, hstart, huvalue⟩ := mem_plainUse_iff.2 ⟨x₀, y₀, r, hcs, rfl, hold⟩
    rw [← hstart] at hplace hdot hname
    rw [hdot'] at hdot
    by_cases hcode : (nonCode d.chars).any (·.contains u.start) = true
    · have hline : '\n' ∈ s.decl.gap := by
        by_contra hline
        rw [s.nonCode_after hline hplace hcode] at hcode'
        cases hcode'
      exact .inr ⟨u, hu, huvalue, hdot, .inr ⟨hline, hcode⟩⟩
    · rw [Bool.not_eq_true] at hcode
      by_cases hknown : isKnown (declaredNames d.chars) n.toList = true
      · rcases s.known_after hknown with hafter' | heq
        · rw [hafter'] at hunknown
          cases hunknown
        · rcases hname heq with hlt | hkeyword
          · exact .inr ⟨u, hu, huvalue, hdot, .inl ⟨heq, hlt, hcode⟩⟩
          · rw [hkeyword, s.keyword_known] at hunknown
            cases hunknown
      · refine .inl (Document.undeclared_iff.2 ⟨u, List.mem_filter.2 ⟨hu, ?_⟩, huvalue⟩)
        simp [huvalue, hknown, hcode, hdot]

theorem line_lt {d : Document} (s : Site d.chars) (h : '\n' ∈ s.decl.gap) :
    (d.positionAt s.front.length).line <
      (d.positionAt (s.front.length + s.decl.render.length : Nat)).line := by
  have hlength := s.length_eq
  have htake : d.chars.take (s.front.length + s.decl.render.length) = s.front ++ s.decl.render := by
    refine (congrArg (List.take _) s.split).trans ?_
    rw [← List.append_assoc, ← List.length_append, List.take_left]
  have hcount : 0 < s.decl.render.count '\n' := by
    refine List.count_pos_iff.2 ?_
    rw [Declarator.render]
    simp [Declarator.behind, h]
  rw [Document.positionAt_of_le (by omega), Document.positionAt_of_le (by omega), s.take_front,
    htake, List.count_append]
  simp only
  omega

end Fix.Site

namespace Fix

/-- Each hint about an unused variable comes with the fix. -/
theorem exists_offer {d : Document} {g : Diagnostic} (h : g ∈ d.lint)
    (hcode : g.code = some Code.unusedVariable) : ∃ f, offer? d g = some f := by
  obtain ⟨s, stop, rfl⟩ := exists_site h hcode
  exact ⟨_, s.offer?_unused stop⟩

/-- With the underscore in front of a name no other name becomes undeclared, unless the keyword and
the name stand on different lines and the name comes from a literal or a comment. -/
theorem underscore_safe {d : Document} {g : Diagnostic} (h : g ∈ d.lint)
    (hcode : g.code = some Code.unusedVariable) :
    ∃ (f : Fix) (x : String) (e : Edit), offer? d g = some f ∧
      f.title = "Add underscore to '" ++ x ++ "'" ∧ f.edits = [e] ∧
      g.message = unusedMessage x.toList ∧
      ∀ n, (e.apply d).Undeclared n → d.Undeclared n ∨
        ∃ u ∈ hits Pattern.plainUse d.chars,
          u.value = n.toList ∧ afterDot d.chars u.start = false ∧
            (n = x ∧ u.start < d.offsetAt g.range.start.line g.range.start.character ∧
                (nonCode d.chars).any (·.contains u.start) = false ∨
              g.range.start.line < g.range.stop.line ∧
                (nonCode d.chars).any (·.contains u.start) = true) := by
  obtain ⟨f, hoffer⟩ := exists_offer h hcode
  obtain ⟨s, e, htitle, hedits, hmessage, hrange, hresult⟩ := exists_of_underscore h hoffer
  have hlength := s.length_eq
  have hstart : d.offsetAt g.range.start.line g.range.start.character = s.front.length := by
    rw [hrange]
    exact Document.offsetAt_positionAt (by omega)
  refine ⟨f, String.ofList s.decl.name.chars, e, hoffer, htitle, hedits,
    by rwa [String.toList_ofList], fun n hn => ?_⟩
  rcases s.undeclared_after ((e.chars_apply d).trans hresult) hn with
    hold | ⟨u, hu, hvalue, hdot, ⟨hname, hlt, hcode⟩ | ⟨hline, hcode⟩⟩
  · exact .inl hold
  · exact .inr ⟨u, hu, hvalue, hdot, .inl ⟨by rw [← hname, String.ofList_toList],
      by rwa [hstart], hcode⟩⟩
  · refine .inr ⟨u, hu, hvalue, hdot, .inr ⟨?_, hcode⟩⟩
    rw [hrange]
    exact s.line_lt hline

/-- The variable is used above its declaration. -/
theorem underscore_safe_above :
    let d : Document := ⟨"file:///ws/main.bn", 1, "print(x)\nvar x = y\n"⟩
    let g : Diagnostic := ⟨.hint, .onLine 1 0 5, unusedMessage ['x'], .lint,
      some Code.unusedVariable⟩
    g ∈ d.lint ∧ ∃ e : Edit, offer? d g = some ⟨"Add underscore to 'x'", d.uri, [e], g⟩ ∧
      ∀ n, (e.apply d).Undeclared n → d.Undeclared n ∨ n = "x" := by
  intro d g
  have hmem : g ∈ d.lint := by decide +kernel
  have hoffer : offer? d g = some ⟨"Add underscore to 'x'", d.uri, [⟨g.range, "var _x"⟩], g⟩ := by
    decide +kernel
  refine ⟨hmem, _, hoffer, ?_⟩
  obtain ⟨f, x, e, hf, -, hedits, hmessage, hsafe⟩ := underscore_safe hmem rfl
  obtain rfl := Option.some.inj (hoffer.symm.trans hf)
  obtain rfl : ⟨g.range, "var _x"⟩ = e := (List.cons.inj hedits).1
  obtain rfl : "x" = x := String.toList_inj.1 (unusedMessage_inj.1 hmessage)
  intro n hn
  rcases hsafe n hn with hold | ⟨u, -, -, -, ⟨hname, -⟩ | ⟨hline, -⟩⟩
  · exact .inl hold
  · exact .inr hname
  · exact absurd hline (by decide)

/-- A use above the declaration, and a name from a literal that the joined line takes apart. -/
theorem underscore_undeclares :
    (let d : Document := ⟨"file:///ws/main.bn", 1, "print(x)\nvar x = 1\n"⟩
      ∃ f ∈ d.fixes d.lint, ∃ e ∈ f.edits,
        (e.apply d).Undeclared "x" ∧ ¬ d.Undeclared "x") ∧
    (let d : Document := ⟨"file:///ws/main.bn", 1, "' var\nx = 'a'\n"⟩
      ∃ f ∈ d.fixes d.lint, ∃ e ∈ f.edits,
        (e.apply d).Undeclared "a" ∧ ¬ d.Undeclared "a") := by
  decide +kernel

end Fix

end BurnLens
