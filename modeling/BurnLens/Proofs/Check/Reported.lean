import BurnLens.Check.Lint
import BurnLens.Proofs.Check.NonCode

/-!
# Names that are reported

The usage stage and the lint stage report a name once and put it into the message. The name of an
undeclared variable is that of a use that counts (`undeclared_iff`); the name of an unused one is
that of a declaration, the first of its name, behind which it does not come again
(`exists_of_mem_lint`).
-/

namespace BurnLens

namespace Check

open Text

def undeclaredMessage (n : List Char) : String :=
  "Variable '" ++ String.ofList n ++ "' is used but not declared"

def unusedMessage (n : List Char) : String :=
  "Variable '" ++ String.ofList n ++ "' is declared but never used"

theorem toList_undeclaredMessage (n : List Char) : (undeclaredMessage n).toList =
    "Variable '".toList ++ (n ++ "' is used but not declared".toList) := by
  simp [undeclaredMessage, String.toList_append]

theorem toList_unusedMessage (n : List Char) : (unusedMessage n).toList =
    "Variable '".toList ++ (n ++ "' is declared but never used".toList) := by
  simp [unusedMessage, String.toList_append]

theorem undeclaredMessage_inj {n m : List Char} :
    undeclaredMessage n = undeclaredMessage m ↔ n = m := by
  rw [← String.toList_inj, toList_undeclaredMessage, toList_undeclaredMessage,
    List.append_cancel_left_eq, List.append_cancel_right_eq]

theorem unusedMessage_inj {n m : List Char} : unusedMessage n = unusedMessage m ↔ n = m := by
  rw [← String.toList_inj, toList_unusedMessage, toList_unusedMessage,
    List.append_cancel_left_eq, List.append_cancel_right_eq]

/-- The first use of each name is kept. -/
theorem exists_mem_firstUses {seen : List (List Char)} {uses : List (Hit (List Char))}
    {n : List Char} :
    (∃ h ∈ firstUses seen uses, h.value = n) ↔ n ∉ seen ∧ ∃ h ∈ uses, h.value = n := by
  fun_induction firstUses seen uses with
  | case1 => simp
  | case2 seen use rest hseen ih =>
    have hmem : use.value ∈ seen := by simpa using hseen
    rw [ih]
    constructor
    · rintro ⟨hn, h, hh, heq⟩
      exact ⟨hn, h, List.mem_cons_of_mem _ hh, heq⟩
    · rintro ⟨hn, h, hh, heq⟩
      rcases List.mem_cons.1 hh with rfl | hh
      · exact absurd (heq ▸ hmem) hn
      · exact ⟨hn, h, hh, heq⟩
  | case3 seen use rest hseen ih =>
    have hmem : use.value ∉ seen := by simpa using hseen
    simp only [List.mem_cons, or_and_right, exists_or, exists_eq_left, ih, not_or]
    constructor
    · rintro (rfl | ⟨⟨-, hn⟩, hrest⟩)
      · exact ⟨hmem, .inl rfl⟩
      · exact ⟨hn, .inr hrest⟩
    · rintro ⟨hn, rfl | hrest⟩
      · exact .inl rfl
      · by_cases heq : use.value = n
        · exact .inl heq
        · exact .inr ⟨⟨Ne.symm heq, hn⟩, hrest⟩

theorem mem_of_mem_firstDeclarations {seen : List (List Char)} {hs : List (Hit Pattern.Declarator)}
    {h : Hit Pattern.Declarator} (hmem : h ∈ firstDeclarations seen hs) :
    ∃ before after, hs = before ++ h :: after ∧ h.value.name ∉ seen ∧
      ∀ m ∈ before, m.value.name ≠ h.value.name := by
  fun_induction firstDeclarations seen hs with
  | case1 => cases hmem
  | case2 seen m rest hseen ih =>
    obtain ⟨before, after, rfl, hn, hbefore⟩ := ih hmem
    have hm : m.value.name ∈ seen := by simpa using hseen
    refine ⟨m :: before, after, rfl, hn, List.forall_mem_cons.2 ⟨?_, hbefore⟩⟩
    exact fun heq => hn (heq ▸ hm)
  | case3 seen m rest hseen ih =>
    rcases List.mem_cons.1 hmem with rfl | hmem
    · exact ⟨[], rest, rfl, by simpa using hseen, by simp⟩
    · obtain ⟨before, after, rfl, hn, hbefore⟩ := ih hmem
      rw [List.mem_cons, not_or] at hn
      exact ⟨m :: before, after, rfl, hn.2, List.forall_mem_cons.2 ⟨Ne.symm hn.1, hbefore⟩⟩

end Check

namespace Document

open Check Text

/-- The usage stage reports the name. -/
def Undeclared (d : Document) (n : String) : Prop :=
  ∃ g ∈ d.checkUsage, g.message = undeclaredMessage n.toList

/-- The lint stage reports the name. -/
def Unused (d : Document) (n : String) : Prop :=
  ∃ g ∈ d.lint, g.message = unusedMessage n.toList

instance (d : Document) (n : String) : Decidable (d.Undeclared n) :=
  inferInstanceAs (Decidable (∃ g ∈ d.checkUsage, _))

instance (d : Document) (n : String) : Decidable (d.Unused n) :=
  inferInstanceAs (Decidable (∃ g ∈ d.lint, _))

theorem exists_of_mem_checkUsage {d : Document} {g : Diagnostic} (h : g ∈ d.checkUsage) :
    ∃ u ∈ undeclaredUses d.chars, g = (undeclaredName u).report d .warning .semantics := by
  obtain ⟨f, hf, rfl⟩ := List.mem_map.1 h
  obtain ⟨u, hu, rfl⟩ := List.mem_map.1 hf
  exact ⟨u, mem_of_mem_firstUses hu, rfl⟩

/-- A name is reported iff one of its uses counts. -/
theorem undeclared_iff {d : Document} {n : String} :
    d.Undeclared n ↔ ∃ u ∈ undeclaredUses d.chars, u.value = n.toList := by
  have hfirst : (∃ u ∈ firstUses [] (undeclaredUses d.chars), u.value = n.toList) ↔
      ∃ u ∈ undeclaredUses d.chars, u.value = n.toList := by
    rw [exists_mem_firstUses, and_iff_right List.not_mem_nil]
  rw [← hfirst]
  constructor
  · rintro ⟨g, hg, hmessage⟩
    obtain ⟨f, hf, rfl⟩ := List.mem_map.1 hg
    obtain ⟨u, hu, rfl⟩ := List.mem_map.1 hf
    exact ⟨u, hu, undeclaredMessage_inj.1 hmessage⟩
  · rintro ⟨u, hu, heq⟩
    exact ⟨_, List.mem_map_of_mem (List.mem_map_of_mem hu), undeclaredMessage_inj.2 heq⟩

theorem not_undeclared {d : Document} {n : String} (h : n.toList ∈ declaredNames d.chars) :
    ¬ d.Undeclared n := by
  rw [undeclared_iff]
  rintro ⟨u, hu, heq⟩
  have hcounts := (List.mem_filter.1 hu).2
  simp [isKnown, heq, h] at hcounts

theorem mem_lint {d : Document} {g : Diagnostic} (h : g ∈ d.lint) :
    (∃ f ∈ unusedFindings d.chars, g = f.report d .hint .lint) ∨
      ∃ pos, g = (tightBrace pos).report d .hint .lint := by
  rcases List.mem_append.1 h with h | h
  · obtain ⟨f, hf, rfl⟩ := List.mem_map.1 h
    exact .inl ⟨f, hf, rfl⟩
  · obtain ⟨f, hf, rfl⟩ := List.mem_map.1 h
    obtain ⟨b, -, hb⟩ := List.mem_filterMap.1 hf
    simp only at hb
    split at hb
    next =>
      cases hb
      exact .inr ⟨_, rfl⟩
    next => cases hb

/-- What lint says about a name, it says about a declaration of it: the first one, behind which the
name does not come again. -/
theorem exists_of_mem_lint {d : Document} {g : Diagnostic} (h : g ∈ d.lint)
    (hcode : g.code = some Code.unusedVariable) :
    ∃ before m after, hits (anywhere Pattern.declaredVariable) d.chars = before ++ m :: after ∧
      g = (unusedVariable m).report d .hint .lint ∧
      (∀ k ∈ before, k.value.name ≠ m.value.name) ∧ m.value.name.head? ≠ some '_' ∧
      reappears d.chars m = false := by
  rcases mem_lint h with ⟨f, hf, rfl⟩ | ⟨pos, rfl⟩
  · obtain ⟨m, hm, rfl⟩ := List.mem_map.1 hf
    obtain ⟨hm, hkeep⟩ := List.mem_filter.1 hm
    obtain ⟨before, after, heq, -, hbefore⟩ := mem_of_mem_firstDeclarations hm
    simp only [Bool.and_eq_true, bne_iff_ne, Bool.not_eq_true'] at hkeep
    exact ⟨before, m, after, heq, rfl, hbefore, hkeep.1, hkeep.2⟩
  · have hne : Code.braceSpacing ≠ Code.unusedVariable := by decide
    exact absurd (Option.some.inj hcode) hne

/-- A message about a name carries the code of such messages. -/
theorem code_of_mem_lint {d : Document} {g : Diagnostic} {n : List Char} (h : g ∈ d.lint)
    (hmessage : g.message = unusedMessage n) : g.code = some Code.unusedVariable := by
  rcases mem_lint h with ⟨f, hf, rfl⟩ | ⟨pos, rfl⟩
  · obtain ⟨m, -, rfl⟩ := List.mem_map.1 hf
    rfl
  · have hhead := congrArg (fun s => s.toList.head?) hmessage
    have hne : (tightBrace 0).message.toList.head? ≠ some 'V' := by decide
    rw [toList_unusedMessage] at hhead
    exact absurd hhead hne

end Document

end BurnLens
