import BurnLens.Proofs.Fix.Site

/-!
# A fix settles its diagnostic

The declaration that a fix inserts is found whatever stands in front of it: an earlier declaration
that takes its keyword for a name or a type would have to end at the keyword, but behind that the
name follows on the same line (`declare_resolves`). The declaration that gets an underscore was the
only one of its name that the search had found, since the first is fixed and a later one would be
the name come again (`Site.not_unused`).
-/

namespace BurnLens

open Text Check Source

namespace Fix

theorem declaredVariable_spaced (n : Identifier) (back : List Char) :
    Pattern.declaredVariable ((Declarator.spaced false n).render ++ (" = \n".toList ++ back)) =
      some ((Declarator.spaced false n).read, " = \n".toList ++ back) := by
  have hapart : Apart (" = \n".toList ++ back) := apart_cons.2 rfl
  have htyped : typed (" = \n".toList ++ back) = none := rfl
  rw [declaredVariable_eq, Declarator.declarator_render hapart, Option.bind_some, htyped]
  rfl

/-- The inserted declaration is found. -/
theorem declare_resolves (n : Identifier) (front back : List Char) :
    n.chars ∈
      declaredNames (front ++ ("var ".toList ++ (n.chars ++ (" = \n".toList ++ back)))) := by
  have hcs : "var ".toList ++ (n.chars ++ (" = \n".toList ++ back)) =
      (Declarator.spaced false n).render ++ (" = \n".toList ++ back) := by
    simp [Declarator.render_append, Declarator.keyword, Declarator.behind, Declarator.spaced]
  rw [hcs]
  rcases declaredVariable_found _ front (declaredVariable_spaced n back) with
    ⟨m, hm, -, hvalue⟩ | ⟨hends, -⟩
  · have hdeclared := variable_declared hm
    rw [hvalue] at hdeclared
    exact hdeclared
  · rw [Declarator.spaced_ends] at hends
    cases hends

/-- Behind the declaration the name is not declared again. -/
theorem Site.notMem_rest {cs : List Char} (s : Site cs) :
    s.decl.name.chars ∉ (hits (anywhere Pattern.declaredVariable) s.rest).map (·.value.name) := by
  intro hmem
  obtain ⟨m, hm, hname⟩ := List.mem_map.1 hmem
  obtain ⟨lead, hback⟩ : ∃ lead, s.back = lead ++ s.rest := by
    obtain ⟨e, tail, hcs, hread, -, -, hrest⟩ := exists_of_declaredVariable s.read
    have htail : s.back = tail := by
      have hlength : s.decl.render.length = e.render.length := congrArg (·.length) hread
      exact (List.append_inj hcs hlength).2
    rcases hrest with hrest | ⟨t, ht⟩
    · exact ⟨[], by rw [htail, hrest, List.nil_append]⟩
    · obtain ⟨b, b', n, -, -, htype, -⟩ := exists_of_typed ht
      exact ⟨b ++ ':' :: (b' ++ n.chars), by rw [htail, htype]; simp⟩
  have hword := wholeWord_of_declaredVariable hm lead
  rw [hname, ← hback] at hword
  exact hword s.unseen

theorem Site.not_unused {d d' : Document} (s : Site d.chars) (hafter : d'.chars = s.after) :
    ¬ d'.Unused (String.ofList s.decl.name.chars) ∧
      ¬ d'.Unused ("_" ++ String.ofList s.decl.name.chars) := by
  have hname : ∀ n : String, d'.Unused n → n.toList.head? ≠ some '_' ∧
      n.toList ∈ (hits (anywhere Pattern.declaredVariable) s.after).map (·.value.name) := by
    rintro n ⟨g, hg, hmessage⟩
    obtain ⟨before, m, after, hhits, rfl, -, hplain, -⟩ :=
      Document.exists_of_mem_lint hg (Document.code_of_mem_lint hg hmessage)
    have heq : m.value.name = n.toList := unusedMessage_inj.1 hmessage
    rw [heq] at hplain
    rw [← hafter, hhits]
    exact ⟨hplain, List.mem_map.2 ⟨m, by simp, heq⟩⟩
  constructor
  · intro hunused
    have hmem := (hname _ hunused).2
    rw [String.toList_ofList, s.names_after] at hmem
    rcases List.mem_append.1 hmem with hmem | hmem
    · obtain ⟨m, hm, heq⟩ := List.mem_map.1 hmem
      exact s.first m hm heq
    · rcases List.mem_cons.1 hmem with heq | hmem
      · exact s.plain (by rw [heq]; rfl)
      · exact s.notMem_rest hmem
  · intro hunused
    exact (hname _ hunused).1 (by simp [String.toList_append])

/-- Each fix is one edit, and with that made the check that asked for it no longer reports the
name. -/
theorem offer_resolves {d : Document} {g : Diagnostic} {f : Fix} (hoffer : offer? d g = some f) :
    (g ∈ d.checkUsage → ∃ (n : String) (e : Edit),
      f.title = "Declare variable '" ++ n ++ "'" ∧ f.edits = [e] ∧
      g.message = undeclaredMessage n.toList ∧ ¬ (e.apply d).Undeclared n) ∧
    (g ∈ d.lint → ∃ (n : String) (e : Edit),
      f.title = "Add underscore to '" ++ n ++ "'" ∧ f.edits = [e] ∧
      g.message = unusedMessage n.toList ∧
      ¬ (e.apply d).Unused n ∧ ¬ (e.apply d).Unused ("_" ++ n)) := by
  constructor
  · intro h
    obtain ⟨n, e, front, back, htitle, hedits, hmessage, -, hresult⟩ := exists_of_declare h hoffer
    refine ⟨String.ofList n.chars, e, htitle, hedits, by rwa [String.toList_ofList], ?_⟩
    refine Document.not_undeclared ?_
    rw [String.toList_ofList, Edit.chars_apply, hresult]
    exact declare_resolves n front back
  · intro h
    obtain ⟨s, e, htitle, hedits, hmessage, -, hresult⟩ := exists_of_underscore h hoffer
    have hresolved := s.not_unused ((e.chars_apply d).trans hresult)
    exact ⟨String.ofList s.decl.name.chars, e, htitle, hedits, by rwa [String.toList_ofList],
      hresolved.1, hresolved.2⟩

/-- Both kinds of fix in one text, the keyword and the name of the second on different lines. -/
theorem offer_resolves_lines :
    let d : Document := ⟨"file:///ws/main.bn", 1, "print(y) const\nx = 1"⟩
    let g : Diagnostic := ⟨.warning, .onLine 0 6 7, undeclaredMessage ['y'], .semantics,
      some Code.undeclaredVariable⟩
    let e : Edit := ⟨.onLine 0 0 0, "var y = \n"⟩
    let g' : Diagnostic := ⟨.hint, ⟨⟨0, 9⟩, ⟨1, 1⟩⟩, unusedMessage ['x'], .lint,
      some Code.unusedVariable⟩
    let e' : Edit := ⟨g'.range, "const _x"⟩
    (offer? d g = some ⟨"Declare variable 'y'", d.uri, [e], g⟩ ∧ g ∈ d.checkUsage ∧
      ¬ (e.apply d).Undeclared "y") ∧
    (offer? d g' = some ⟨"Add underscore to 'x'", d.uri, [e'], g'⟩ ∧ g' ∈ d.lint ∧
      ¬ (e'.apply d).Unused "x" ∧ ¬ (e'.apply d).Unused "_x") := by
  intro d g e g' e'
  have hoffer : offer? d g = some ⟨"Declare variable 'y'", d.uri, [e], g⟩ := by decide +kernel
  have hoffer' : offer? d g' = some ⟨"Add underscore to 'x'", d.uri, [e'], g'⟩ := by
    decide +kernel
  have hmem : g ∈ d.checkUsage := by decide +kernel
  have hmem' : g' ∈ d.lint := by decide +kernel
  refine ⟨⟨hoffer, hmem, ?_⟩, hoffer', hmem', ?_⟩
  · obtain ⟨n, e₀, -, hedits, hmessage, hgone⟩ := (offer_resolves hoffer).1 hmem
    obtain rfl : e = e₀ := (List.cons.inj hedits).1
    obtain rfl : n = "y" := String.toList_inj.1 (undeclaredMessage_inj.1 hmessage).symm
    exact hgone
  · obtain ⟨n, e₀, -, hedits, hmessage, hgone⟩ := (offer_resolves hoffer').2 hmem'
    obtain rfl : e' = e₀ := (List.cons.inj hedits).1
    obtain rfl : n = "x" := String.toList_inj.1 (unusedMessage_inj.1 hmessage).symm
    exact hgone

end Fix

end BurnLens
