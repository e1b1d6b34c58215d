import Mathlib.Data.List.Infix
import BurnLens.Proofs.Findings
import BurnLens.Proofs.Lexeme.Code

/-!
# The critical gate

A pass ends after its first stage exactly if some kind of delimiter is not `Balanced` in the code of
the document. The stage keeps a stack of offsets for each kind, of which only the heights matter
here: `structureFrom_quiet_iff` follows the heights along the lexemes, from any stacks. Nothing else
that the first stage reports is critical, neither its other findings nor those of indexing, so the
gate says no more and no less than balance: `run_gate`.
-/

namespace BurnLens

namespace Delimiter
variable {k j : Delimiter} {n : Nat} {c : Char} {cs : List Char}

/-- No beginning of the text has more closers than openers, and the whole has as many of both. -/
def Balanced (k : Delimiter) (cs : List Char) : Prop :=
  (∀ p, p <+: cs → p.count k.closer ≤ p.count k.opener) ∧ cs.count k.closer = cs.count k.opener

instance (k : Delimiter) (cs : List Char) : Decidable (k.Balanced cs) :=
  decidable_of_iff ((∀ p ∈ cs.inits, p.count k.closer ≤ p.count k.opener) ∧
    cs.count k.closer = cs.count k.opener) (by simp [Balanced, List.mem_inits])

/-- The text is balanced behind `n` openers that are still open. -/
def BalancedFrom (k : Delimiter) (n : Nat) (cs : List Char) : Prop :=
  (∀ p, p <+: cs → p.count k.closer ≤ n + p.count k.opener) ∧
    cs.count k.closer = n + cs.count k.opener

theorem balancedFrom_zero : BalancedFrom k 0 cs ↔ Balanced k cs := by
  simp only [BalancedFrom, Balanced, Nat.zero_add]

theorem opener_ne_closer (k j : Delimiter) : k.opener ≠ j.closer := by
  cases k <;> cases j <;> decide

theorem opener_inj : k.opener = j.opener ↔ k = j := by
  cases k <;> cases j <;> decide

theorem closer_inj : k.closer = j.closer ↔ k = j := by
  cases k <;> cases j <;> decide

theorem opened?_eq_some (h : opened? c = some k) : k.opener = c := by
  simpa using List.find?_some h

theorem closed?_eq_some (h : closed? c = some k) : k.closer = c := by
  simpa using List.find?_some h

theorem ne_opener (h : opened? c = none) (k : Delimiter) : c ≠ k.opener := by
  rintro rfl
  cases k <;> cases h

theorem ne_closer (h : closed? c = none) (k : Delimiter) : c ≠ k.closer := by
  rintro rfl
  cases k <;> cases h

/-! ### One character after another -/

theorem balancedFrom_nil : BalancedFrom k n [] ↔ n = 0 := by
  simp [BalancedFrom, eq_comm]

theorem balancedFrom_cons : BalancedFrom k n (c :: cs) ↔
    (∀ p, p <+: cs → (c :: p).count k.closer ≤ n + (c :: p).count k.opener) ∧
      (c :: cs).count k.closer = n + (c :: cs).count k.opener := by
  refine and_congr_left fun _ => ⟨fun h p hp => h _ (List.cons_prefix_cons.2 ⟨rfl, hp⟩), ?_⟩
  intro h p hp
  rcases List.prefix_cons_iff.1 hp with rfl | ⟨t, rfl, ht⟩
  · exact Nat.zero_le _
  · exact h t ht

theorem balancedFrom_opener : BalancedFrom k n (k.opener :: cs) ↔ BalancedFrom k (n + 1) cs := by
  rw [balancedFrom_cons]
  simp only [List.count_cons_self, List.count_cons_of_ne (opener_ne_closer k k), BalancedFrom]
  refine and_congr (forall₂_congr fun p _ => ?_) ?_ <;> omega

theorem balancedFrom_closer :
    BalancedFrom k n (k.closer :: cs) ↔ 0 < n ∧ BalancedFrom k (n - 1) cs := by
  rw [balancedFrom_cons]
  simp only [List.count_cons_self, List.count_cons_of_ne (opener_ne_closer k k).symm, BalancedFrom]
  cases n with
  | zero =>
    refine iff_of_false (fun h => ?_) (fun h => absurd h.1 (Nat.lt_irrefl 0))
    have hnil := h.1 [] List.nil_prefix
    simp at hnil
  | succ n =>
    simp only [Nat.succ_pos, true_and, Nat.add_sub_cancel]
    refine and_congr (forall₂_congr fun p _ => ?_) ?_ <;> omega

theorem balancedFrom_other (hopener : c ≠ k.opener) (hcloser : c ≠ k.closer) :
    BalancedFrom k n (c :: cs) ↔ BalancedFrom k n cs := by
  rw [balancedFrom_cons]
  simp only [List.count_cons_of_ne hopener, List.count_cons_of_ne hcloser, BalancedFrom]

theorem balancedFrom_word {w : List Char} (hw : ∀ c ∈ w, Text.isIdentChar c = true) :
    BalancedFrom k n (w ++ cs) ↔ BalancedFrom k n cs := by
  induction w with
  | nil => rfl
  | cons c w ih =>
    have hc := hw c List.mem_cons_self
    have hopener : c ≠ k.opener := by rintro rfl; cases k <;> exact absurd hc (by decide)
    have hcloser : c ≠ k.closer := by rintro rfl; cases k <;> exact absurd hc (by decide)
    rw [List.cons_append, balancedFrom_other hopener hcloser]
    exact ih fun d hd => hw d (List.mem_cons_of_mem c hd)

/-- A character of one kind moves the height of its own stack only. -/
theorem balancedFrom_set {opens : Opens} {l : List Nat} (hc : c = k.opener ∨ c = k.closer)
    (hself : BalancedFrom k l.length cs ↔ BalancedFrom k (opens k).length (c :: cs)) :
    (∀ j, BalancedFrom j ((opens.set k l) j).length cs) ↔
      ∀ j, BalancedFrom j (opens j).length (c :: cs) := by
  refine forall_congr' fun j => ?_
  by_cases hj : j = k
  · subst hj
    simpa [Opens.set] using hself
  · rw [Opens.set, if_neg hj]
    refine (balancedFrom_other ?_ ?_).symm
    · rcases hc with rfl | rfl
      · exact fun h => hj (opener_inj.1 h).symm
      · exact (opener_ne_closer j k).symm
    · rcases hc with rfl | rfl
      · exact opener_ne_closer k j
      · exact fun h => hj (closer_inj.1 h).symm

end Delimiter

namespace Check
open Delimiter

/-- No finding of a list is critical. -/
def Quiet (fs : List Finding) : Prop :=
  ∀ f ∈ fs, f.code ∉ Code.critical

theorem quiet_cons {f : Finding} {fs : List Finding} :
    Quiet (f :: fs) ↔ f.code ∉ Code.critical ∧ Quiet fs :=
  List.forall_mem_cons

theorem quiet_append {fs fs' : List Finding} : Quiet (fs ++ fs') ↔ Quiet fs ∧ Quiet fs' :=
  List.forall_mem_append

theorem unexpectedCloser_critical (k : Delimiter) (pos : Nat) :
    (unexpectedCloser k pos).code ∈ Code.critical :=
  show Code.unexpectedClosingDelimiter ∈ Code.critical by decide

theorem unclosedOpener_critical (k : Delimiter) (pos : Nat) :
    (unclosedOpener k pos).code ∈ Code.critical :=
  show Code.unclosedDelimiter ∈ Code.critical by decide

theorem unterminatedString_quiet (start stop : Nat) :
    (unterminatedString start stop).code ∉ Code.critical :=
  show Code.unterminatedString ∉ Code.critical by decide

theorem missingName_quiet (start stop : Nat) (keyword : List Char) :
    (missingName start stop keyword).code ∉ Code.critical :=
  show Code.expectedIdentifier ∉ Code.critical by decide

theorem quiet_unclosed {opens : Opens} : Quiet (unclosed opens) ↔ ∀ k, (opens k).length = 0 := by
  constructor
  · intro h k
    cases hopens : opens k with
    | nil => rfl
    | cons pos outer =>
      have hmem : unclosedOpener k pos ∈ unclosed opens := by
        refine List.mem_filterMap.2 ⟨k, ?_, by rw [hopens]; rfl⟩
        cases k <;> decide
      exact absurd (unclosedOpener_critical k pos) (h _ hmem)
  · intro h f hf
    obtain ⟨k, -, hk⟩ := List.mem_filterMap.1 hf
    rw [List.length_eq_zero_iff.1 (h k)] at hk
    cases hk

/-- The lexemes that remain bring no critical finding exactly if what they spell is balanced behind
the delimiters that are open. -/
theorem structureFrom_quiet_iff (opens : Opens) (ts : List Token)
    (hwords : ∀ t ∈ ts, ∀ name next, t.lexeme = .word name next →
      ∀ c ∈ name, Text.isIdentChar c = true) :
    Quiet (structureFrom opens ts) ↔
      ∀ k, BalancedFrom k (opens k).length (ts.flatMap (·.lexeme.spelled)) := by
  fun_induction structureFrom opens ts with
  | case1 opens => simp only [quiet_unclosed, List.flatMap_nil, balancedFrom_nil]
  | case2 opens start stop rest ih => exact ih fun t ht => hwords t (.tail _ ht)
  | case3 opens start stop rest ih => exact ih fun t ht => hwords t (.tail _ ht)
  | case4 opens start stop rest ih =>
    rw [quiet_cons, and_iff_right (unterminatedString_quiet start stop)]
    exact ih fun t ht => hwords t (.tail _ ht)
  | case5 opens start stop rest ih =>
    have hlast : Quiet [unterminatedString start stop] := by
      rintro f hf
      rw [List.mem_singleton.1 hf]
      exact unterminatedString_quiet start stop
    rw [quiet_append, and_iff_left hlast]
    exact ih fun t ht => hwords t (.tail _ ht)
  | case6 opens start stop rest name next hlacks ih =>
    rw [quiet_cons, and_iff_right (missingName_quiet start stop name),
      ih fun t ht => hwords t (.tail _ ht)]
    have hname := hwords _ (.head _) name next rfl
    exact forall_congr' fun k => (balancedFrom_word hname).symm
  | case7 opens start stop rest name next hlacks ih =>
    rw [ih fun t ht => hwords t (.tail _ ht)]
    have hname := hwords _ (.head _) name next rfl
    exact forall_congr' fun k => (balancedFrom_word hname).symm
  | case8 opens start stop rest c k hk ih =>
    obtain rfl := opened?_eq_some hk
    rw [ih fun t ht => hwords t (.tail _ ht)]
    exact balancedFrom_set (.inl rfl) balancedFrom_opener.symm
  | case9 opens start stop rest c hopened hclosed ih =>
    rw [ih fun t ht => hwords t (.tail _ ht)]
    exact forall_congr' fun k =>
      (balancedFrom_other (ne_opener hopened k) (ne_closer hclosed k)).symm
  | case10 opens start stop rest c hopened k hk hempty ih =>
    obtain rfl := closed?_eq_some hk
    rw [quiet_cons]
    refine iff_of_false (fun h => h.1 (unexpectedCloser_critical k start)) fun h => ?_
    have hopen := (balancedFrom_closer.1 (h k)).1
    simp [hempty] at hopen
  | case11 opens start stop rest c hopened k hk pos outer houter ih =>
    obtain rfl := closed?_eq_some hk
    rw [ih fun t ht => hwords t (.tail _ ht)]
    refine balancedFrom_set (.inr rfl) ?_
    simp [balancedFrom_closer, houter]

end Check

/-! ### What the first stage reports -/

namespace Document
variable {d : Document}

theorem hasCritical_report (fs : List Finding) :
    hasCritical (fs.map (Finding.report d .error .syntactic)) = false ↔ Check.Quiet fs := by
  simp [hasCritical, Check.Quiet, Diagnostic.isCritical, Finding.report]

theorem quiet_malformedEntries {code : String} (hcode : code ∉ Code.critical) (message : String)
    (offset : Nat) (cs : List Char) :
    Check.Quiet (Symbol.malformedEntries message code offset cs) := by
  intro f hf
  obtain ⟨entry, -, hentry⟩ := List.mem_filterMap.1 hf
  cases entry with
  | pair name type => cases hentry
  | malformed start stop =>
    cases hentry
    exact hcode

/-- Malformed entries of field and parameter lists are not critical. -/
theorem hasCritical_extract (text uri : String) (lookup : FunctionLookup) :
    hasCritical (extract text uri lookup).diagnostics = false := by
  refine (hasCritical_report _).2 (Check.quiet_append.2 ⟨?_, ?_⟩)
  · intro f hf
    obtain ⟨h, -, hf⟩ := List.mem_flatMap.1 hf
    exact quiet_malformedEntries (by decide) _ _ _ f hf
  · intro f hf
    obtain ⟨h, -, hf⟩ := List.mem_flatMap.1 hf
    exact quiet_malformedEntries (by decide) _ _ _ f hf

/-- The delimiters of a document are balanced, each kind for itself, in what lies outside string
literals and comments. -/
def Balanced (d : Document) : Prop :=
  ∀ k : Delimiter, k.Balanced (Lexeme.code d.chars)

instance (d : Document) : Decidable d.Balanced :=
  decidable_of_iff (∀ k ∈ Delimiter.all, k.Balanced (Lexeme.code d.chars))
    ⟨fun h k => h k (by cases k <;> decide), fun h k _ => h k⟩

/-- What the first stage of a pass reports. -/
def firstFindings (d : Document) : List Diagnostic :=
  (extract d.text d.uri fun _ => none).diagnostics ++ d.checkStructure

theorem hasCritical_firstFindings : hasCritical d.firstFindings = false ↔ d.Balanced := by
  have hquiet : hasCritical d.firstFindings = hasCritical d.checkStructure := by
    rw [firstFindings, hasCritical, List.any_append]
    exact Bool.or_eq_right_iff_imp.2 fun h =>
      absurd (hasCritical_extract d.text d.uri _) (by simpa [hasCritical] using h)
  have hwords : ∀ t ∈ Lexeme.tokens d.chars, ∀ name next, t.lexeme = .word name next →
      ∀ c ∈ name, Text.isIdentChar c = true :=
    fun t ht _ _ hword => Lexeme.isIdentChar_of_mem_word ht hword
  rw [hquiet, checkStructure, hasCritical_report, Check.structureFindings,
    Check.structureFrom_quiet_iff _ _ hwords, Balanced, Lexeme.code_eq_flatMap 0]
  exact forall_congr' fun k => Delimiter.balancedFrom_zero

theorem report_of_balanced (h : d.Balanced) :
    d.report = ⟨d.version, false,
      [(.structural, d.firstFindings), (.usage, d.checkUsage), (.style, d.lint)]⟩ := by
  have hquiet : hasCritical d.firstFindings = false := hasCritical_firstFindings.2 h
  rw [report, localStages, ← firstFindings, hquiet]
  rfl

theorem report_of_unbalanced (h : ¬ d.Balanced) :
    d.report = ⟨d.version, true, [(.structural, d.firstFindings)]⟩ := by
  have hcritical : hasCritical d.firstFindings = true :=
    (Bool.not_eq_false _).mp fun hquiet => h (hasCritical_firstFindings.1 hquiet)
  rw [report, localStages, ← firstFindings, hcritical]
  rfl

end Document

namespace Pipeline
variable {p p' : Pipeline} {h : Host} {d : Document} {r : PassResult}

/-- A pass that returns has gone on behind its first stage exactly if the delimiters of the document
are balanced. It then ran the usage and the style stage, and asked the checker where there is one.
Otherwise it ended with the first stage as a critical failure, and nobody was asked. -/
theorem run_gate (hrun : p.run h d = (p', .ok r)) :
    (d.Balanced →
      r.critical = false ∧
      (p.checker = none → r.stages =
        [(.structural, d.firstFindings), (.usage, d.checkUsage), (.style, d.lint)]) ∧
      ∀ checker, p.checker = some checker → ∃ ds,
        (p.indexed h d).consult h checker d = (p', .ok ds) ∧ r.stages =
          [(.structural, d.firstFindings), (.usage, d.checkUsage), (.style, d.lint),
            (.compiler, ds)]) ∧
    (¬ d.Balanced →
      r.critical = true ∧ r.stages = [(.structural, d.firstFindings)] ∧
      p'.standIn.calls = p.standIn.calls ∧ p'.runs = p.runs) := by
  rcases p.localPass_case h d with ⟨fault, -, hlocal⟩ | ⟨extraction, -, hlocal⟩
  · rw [run, hlocal] at hrun
    cases hrun
  have hpending : (p.indexed h d).pending d.report =
      if d.report.critical then none else p.checker := rfl
  simp only [run, hlocal, hpending] at hrun
  constructor
  · intro hbalanced
    rw [Document.report_of_balanced hbalanced] at hrun
    cases hchecker : p.checker with
    | none =>
      rw [hchecker] at hrun
      cases hrun
      exact ⟨rfl, fun _ => rfl, nofun⟩
    | some checker =>
      rcases hconsult : (p.indexed h d).consult h checker d with ⟨p₁, fault | ds⟩
      · simp [hchecker, hconsult] at hrun
      · simp only [hchecker, hconsult, Bool.false_eq_true, ↓reduceIte] at hrun
        cases hrun
        refine ⟨rfl, nofun, fun checker' hchecker' => ?_⟩
        cases hchecker'
        exact ⟨ds, hconsult, rfl⟩
  · intro hunbalanced
    rw [Document.report_of_unbalanced hunbalanced] at hrun
    cases hrun
    exact ⟨rfl, rfl, rfl, rfl⟩

/-- Delimiters of three kinds that cross, a parameter without a type, a keyword without a name and a
literal without an end: the gate is open and the checker is asked. As many braces of both kinds in
the wrong order close it. -/
theorem run_gate_crossed :
    let p : Pipeline := { index := {}, cache := { capacity := 1 }, checker := some .standIn }
    let h : Host := { fs := {}, searchFolders := [], salt := "" }
    let crossed : Document := ⟨"file:///a.bn", 1, "fun f(x) \x7b [ ( \x7d ] ) var '("⟩
    let swapped : Document := ⟨"file:///b.bn", 1, "fun f() \x7d \x7b"⟩
    (∃ p' r, p.run h crossed = (p', .ok r) ∧ crossed.Balanced ∧
      crossed.firstFindings.map (·.code) = [some Code.invalidParameter,
        some Code.expectedIdentifier, some Code.unterminatedString] ∧
      r.critical = false ∧
      r.stages.map (·.1) = [.structural, .usage, .style, .compiler] ∧ p'.standIn.calls = 1) ∧
    ∃ p' r, p.run h swapped = (p', .ok r) ∧ ¬ swapped.Balanced ∧ r.critical = true ∧
      r.stages.map (·.1) = [.structural] ∧ p'.standIn.calls = 0 := by
  intro p h crossed swapped
  have hreturns : ∀ d : Document, (p.run h d).2.isOk = true →
      ∃ p' r, p.run h d = (p', .ok r) := by
    intro d hok
    rcases hrun : p.run h d with ⟨p', fault | r⟩
    · rw [hrun] at hok
      cases hok
    · exact ⟨p', r, rfl⟩
  constructor
  · obtain ⟨p', r, hrun⟩ := hreturns crossed (by decide +kernel)
    have hbalanced : crossed.Balanced := by decide +kernel
    obtain ⟨hcritical, -, hasked⟩ := (run_gate hrun).1 hbalanced
    obtain ⟨ds, hconsult, hstages⟩ := hasked .standIn rfl
    have hcalls : p'.standIn.calls = 1 := by
      rw [consult] at hconsult
      cases hconsult
      rfl
    exact ⟨p', r, hrun, hbalanced, by decide +kernel, hcritical, by rw [hstages]; rfl, hcalls⟩
  · obtain ⟨p', r, hrun⟩ := hreturns swapped (by decide +kernel)
    have hunbalanced : ¬ swapped.Balanced := by decide +kernel
    obtain ⟨hcritical, hstages, hcalls, -⟩ := (run_gate hrun).2 hunbalanced
    exact ⟨p', r, hrun, hunbalanced, hcritical, by rw [hstages]; rfl, hcalls⟩

end Pipeline

end BurnLens
