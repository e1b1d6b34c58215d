import Mathlib.Data.List.TakeWhile
import BurnLens.Compiler.Check
import BurnLens.Proofs.Report.Readable
import BurnLens.Proofs.Text.Occurs

/-!
# When a check gives an answer

A compiler that cannot be run, does not end, is killed or ends without a word has nothing to say
about a document, and the check passes over it. What it does say is read as a report, and that is
where a check fails: numbers come from another process and may be of any size, but only
`Report.Readable` reports are read. Nothing else fails (`validate_returns_iff`), as long as no name
holds the character that ends texts for the host.
-/

namespace BurnLens

open Text

/-! ### What a run says -/

namespace RunResult
variable {r : RunResult}

/-- The run gives no news: it went well, was killed, or only white space was written. -/
def Silent (r : RunResult) : Prop :=
  r.exitCode = 0 ∨ r.exitCode < 0 ∨ ∀ c ∈ (r.stderr ++ r.stdout).toList, isBlank c = true

instance : DecidablePred Silent := fun _ => inferInstanceAs (Decidable (_ ∨ _))

theorem output_cases (r : RunResult) :
    r.output.toList = r.stderr.toList ++ '\n' :: r.stdout.toList ∨
      (r.stderr = "" ∧ r.output = r.stdout) ∨ (r.stdout = "" ∧ r.output = r.stderr) := by
  unfold output
  by_cases herr : r.stderr = ""
  · refine .inr (.inl ⟨herr, ?_⟩)
    by_cases hout : r.stdout = ""
    · simp [herr, hout]
    · simp [herr, hout]
  · by_cases hout : r.stdout = ""
    · refine .inr (.inr ⟨hout, ?_⟩)
      simp [herr, hout]
    · left
      have hboth : "\n".intercalate [r.stderr, r.stdout] = r.stderr ++ "\n" ++ r.stdout := rfl
      simp [herr, hout, hboth]

/-- An output that is empty leaves no trace among the news. -/
theorem newsLines_output (r : RunResult) :
    Report.newsLines r.output.toList = Report.newsLines (r.stderr ++ "\n" ++ r.stdout).toList := by
  have htext : (r.stderr ++ "\n" ++ r.stdout).toList =
      r.stderr.toList ++ '\n' :: r.stdout.toList := by
    simp
  rw [htext]
  rcases r.output_cases with h | ⟨herr, h⟩ | ⟨hout, h⟩
  · rw [h]
  · rw [h, herr]
    exact (Report.newsLines_newline _).symm
  · rw [h, hout]
    exact (Report.newsLines_concat_newline _).symm

end RunResult

/-! ### Names without the character that ends texts -/

namespace Host

theorem hasNull_append (s t : String) : hasNull (s ++ t) = (hasNull s || hasNull t) := by
  unfold hasNull
  rw [String.toList_append, List.contains_append]

theorem hexDigit_ne_null (n : Nat) (h : n < 16) : hexDigit n ≠ Char.ofNat 0 := by
  decide +revert

theorem notMem_hexPadded (width n : Nat) : Char.ofNat 0 ∉ hexPadded width n := by
  induction width generalizing n with
  | zero => exact List.not_mem_nil
  | succ width ih =>
    rw [hexPadded, List.mem_append, List.mem_singleton, not_or]
    exact ⟨ih (n / 16), (hexDigit_ne_null (n % 16) (Nat.mod_lt n (by decide))).symm⟩

theorem hasNull_digest (uri text : String) : hasNull (Snapshot.digest uri text) = false := by
  unfold hasNull Snapshot.digest
  rw [String.toList_ofList, List.contains_eq_mem, decide_eq_false_iff_not]
  intro hmem
  obtain ⟨o, -, ho⟩ := List.mem_flatMap.1 (List.mem_of_mem_take hmem)
  exact notMem_hexPadded 2 o.toNat ho

theorem hasNull_of_which {h : Host} {command file : String} (hwhich : h.which command = some file) :
    hasNull file = false := by
  have hexecutable : h.isExecutable file = true := List.find?_some hwhich
  cases hnull : hasNull file with
  | false => rfl
  | true =>
    have hempty : file ≠ "" := by
      rintro rfl
      cases hnull
    have hmiss : h.fs.locate file = .error .embeddedNull := by
      rw [FileSystem.locate, if_neg hempty]
      exact if_pos hnull
    simp [isExecutable, hmiss] at hexecutable

theorem executable_ne_null (h : Host) (command : String) :
    h.executable command ≠ .error .embeddedNull := by
  intro heq
  unfold executable at heq
  dsimp only at heq
  generalize hfound : List.findSome? _ _ = found at heq
  cases found with
  | none => cases heq
  | some answer =>
    obtain ⟨file, -, hfile⟩ := List.exists_of_findSome?_eq_some hfound
    obtain rfl : answer = .error .embeddedNull := heq
    split at hfile <;> cases hfile

theorem run_ne_null {h : Host} {command : String} {arguments : List String}
    (hnull : (command :: arguments).any hasNull = false) :
    (h.run command arguments).result ≠ .error .embeddedNull := by
  unfold run
  rw [if_neg (by simp [hnull])]
  split
  next fault hfault =>
    intro heq
    cases heq
    exact h.executable_ne_null command hfault
  next p hp =>
    dsimp only
    split <;> nofun

end Host

namespace Compiler
variable {c : Compiler} {h : Host} {text uri : String}

theorem check_ne_null (hextension : Host.hasNull c.extension = false)
    (hsalt : Host.hasNull h.salt = false) :
    (c.check h text uri).result ≠ .error .embeddedNull := by
  unfold check
  split
  next fault hfault =>
    unfold Snapshot.take at hfault
    rw [if_neg (by simp [hextension])] at hfault
    split at hfault
    · cases hfault
    · cases hfault
      nofun
  next snapshot hsnapshot =>
    unfold Snapshot.take at hsnapshot
    rw [if_neg (by simp [hextension])] at hsnapshot
    split at hsnapshot
    · cases hsnapshot
      unfold run
      split
      · nofun
      next file hfile =>
        apply Host.run_ne_null
        have hflag : Host.hasNull "-c" = false := rfl
        have hstem : Host.hasNull "burn-" = false := rfl
        have hdash : Host.hasNull "-" = false := rfl
        simp [Host.hasNull_append, Host.hasNull_digest, Host.hasNull_of_which hfile, hflag, hstem,
          hdash, hsalt, hextension]
    · cases hsnapshot

theorem diagnosticsOf_eq (r : RunResult) (text : String) :
    diagnosticsOf r text =
      if r.Silent then .ok [] else Report.parse (r.stderr ++ "\n" ++ r.stdout) text := by
  have hblank : (trim r.output.toList).isEmpty = true ↔
      ∀ c ∈ (r.stderr ++ r.stdout).toList, isBlank c = true := by
    rw [isEmpty_trim]
    have hnewline : isBlank '\n' = true := rfl
    rcases r.output_cases with h | ⟨herr, h⟩ | ⟨hout, h⟩
    · simp [h, hnewline, or_imp, forall_and]
    · simp [h, herr]
    · simp [h, hout]
  have hsilent : (r.exitCode = 0 || r.killedBySignal || (trim r.output.toList).isEmpty) = true ↔
      r.Silent := by
    simp [RunResult.Silent, RunResult.killedBySignal, hblank, or_assoc]
  unfold diagnosticsOf
  by_cases hr : r.Silent
  · rw [if_pos (hsilent.2 hr), if_pos hr]
  · rw [if_neg fun h => hr (hsilent.1 h), if_neg hr]
    exact Report.parse_congr r.newsLines_output

theorem validate_of_fault {fault : CompilerFault}
    (hcheck : (c.check h text uri).result = .error fault) (hfault : fault ≠ .embeddedNull) :
    (c.validate h text uri).result = .ok [] := by
  unfold validate
  dsimp only
  rw [hcheck]
  cases fault with
  | embeddedNull => exact absurd rfl hfault
  | _ => rfl

theorem validate_of_run {r : RunResult} (hcheck : (c.check h text uri).result = .ok r) :
    (c.validate h text uri).result =
      if r.Silent then .ok []
      else (Report.parse (r.stderr ++ "\n" ++ r.stdout) text).mapError .report := by
  unfold validate
  dsimp only
  rw [hcheck]
  dsimp only
  rw [diagnosticsOf_eq]
  split <;> rfl

/-- A check gives an answer unless the report of the compiler asks for too large a number. -/
theorem validate_returns_iff (c : Compiler) (h : Host) (text uri : String)
    (hextension : Host.hasNull c.extension = false) (hsalt : Host.hasNull h.salt = false) :
    (∀ fault, (c.check h text uri).result = .error fault →
      (c.validate h text uri).result = .ok []) ∧
    (∀ r, (c.check h text uri).result = .ok r → r.Silent →
      (c.validate h text uri).result = .ok []) ∧
    (∀ r, (c.check h text uri).result = .ok r → ¬ r.Silent →
      (c.validate h text uri).result =
        (Report.parse (r.stderr ++ "\n" ++ r.stdout) text).mapError .report) ∧
    ((∃ ds, (c.validate h text uri).result = .ok ds) ↔
      ∀ r, (c.check h text uri).result = .ok r → ¬ r.Silent →
        Report.Readable (r.stderr ++ "\n" ++ r.stdout) text) := by
  have hfault : ∀ fault, (c.check h text uri).result = .error fault →
      (c.validate h text uri).result = .ok [] := by
    intro fault hcheck
    refine validate_of_fault hcheck ?_
    rintro rfl
    exact check_ne_null hextension hsalt hcheck
  have hsilent : ∀ r, (c.check h text uri).result = .ok r → r.Silent →
      (c.validate h text uri).result = .ok [] := by
    intro r hcheck hr
    rw [validate_of_run hcheck, if_pos hr]
  have hspoken : ∀ r, (c.check h text uri).result = .ok r → ¬ r.Silent →
      (c.validate h text uri).result =
        (Report.parse (r.stderr ++ "\n" ++ r.stdout) text).mapError .report := by
    intro r hcheck hr
    rw [validate_of_run hcheck, if_neg hr]
  refine ⟨hfault, hsilent, hspoken, ?_⟩
  constructor
  · rintro ⟨ds, hds⟩ r hcheck hr
    rw [hspoken r hcheck hr] at hds
    exact Report.parse_returns_iff.1 ⟨ds, mapError_eq_ok.1 hds⟩
  · intro hreadable
    cases hcheck : (c.check h text uri).result with
    | error fault => exact ⟨[], hfault fault hcheck⟩
    | ok r =>
      by_cases hr : r.Silent
      · exact ⟨[], hsilent r hcheck hr⟩
      · obtain ⟨ds, hds⟩ := Report.parse_returns_iff.2 (hreadable r hcheck hr)
        exact ⟨ds, by rw [hspoken r hcheck hr]; exact mapError_eq_ok.2 hds⟩

/-- A host with one program, which writes the report and fails. -/
def reporting (report : String) : Host where
  fs := { entries := [(["burn"], .program ⟨[], Utf8.encode report.toList, .exit 1⟩)] }
  searchFolders := []
  salt := "a1b2c3d4"

/-- A line behind the text, and a column that no machine word holds. -/
theorem validate_returns_iff_far :
    let c : Compiler := { path := "/burn" }
    let h := reporting "error: m at line 7\nwarning: n at line 1, column 99999999999999999999999"
    Host.hasNull c.extension = false ∧ Host.hasNull h.salt = false ∧
      ∃ ds, (c.validate h "x" "file:///ws/main.bn").result = .ok ds := by
  intro c h
  have hextension : Host.hasNull c.extension = false := by decide
  have hsalt : Host.hasNull h.salt = false := by decide
  have hcheck : (c.check h "x" "file:///ws/main.bn").result =
      .ok ⟨1, "", "error: m at line 7\nwarning: n at line 1, column 99999999999999999999999"⟩ := by
    decide +kernel
  refine ⟨hextension, hsalt,
    (validate_returns_iff c h "x" "file:///ws/main.bn" hextension hsalt).2.2.2.2 ?_⟩
  intro r hr _
  rw [hcheck] at hr
  cases hr
  decide +kernel

/-- A column at the limit is not read in a line that the text has. -/
theorem validate_fails :
    let c : Compiler := { path := "/burn" }
    let h := reporting
      "type mismatch: expected 'int', got 'string' at line 1, column 9223372036854775809"
    Host.hasNull c.extension = false ∧ Host.hasNull h.salt = false ∧
      (c.validate h "" "file:///ws/main.bn").result = .error (.report .columnTooLarge) := by
  decide +kernel

end Compiler

end BurnLens
