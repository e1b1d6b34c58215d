import Mathlib.Data.List.Nodup
import Mathlib.Data.List.Pairwise
import BurnLens.Proofs.Check.Matching
import BurnLens.Proofs.Symbol.Agreement
import BurnLens.Proofs.Symbol.Header
import BurnLens.Proofs.Symbol.Piece
import BurnLens.Proofs.Text.Occurs
import BurnLens.Proofs.Text.Position

/-!
# Methods and functions

The headers in the body of a class are searched for in the body alone, and their parameters are not
checked there; that is left to the search for functions, which goes over the whole text. It finds
them too, unless what stands in front of the class keeps it from doing so: a header that starts
there may have no closing parenthesis before that of the first method, and then ends where the
method's header ends (`Swallowed`). The method is then no function, and its malformed parameters are
not reported as its own. Nothing else can happen (`method_seen_iff`).
-/

namespace BurnLens

namespace Symbol

open Text

/-! ### Malformed entries one after another -/

theorem run1_reads (p : Char → Bool) : Reads (anywhere (run1 p)) := by
  intro _ cs w rest h
  obtain ⟨hw, -, hcs⟩ := run1_eq_some h
  exact ⟨w, hw, hcs⟩

/-- A piece of a list is the text that it covers. -/
theorem stop_of_mem_pieces {p : Char → Bool} {cs : List Char} {m : Hit (List Char)}
    (h : m ∈ hits (anywhere (run1 p)) cs) :
    m.stop = m.start + m.value.length ∧ m.stop ≤ cs.length := by
  have hmatch := isMatch_of_mem_hits (run1_reads p) h
  refine ⟨?_, hmatch.le⟩
  obtain ⟨front, u, rest, -, -, hread, hstart, hstop⟩ := hmatch
  obtain ⟨-, -, heq⟩ := run1_eq_some hread
  rw [List.append_cancel_right heq] at hstop
  rw [hstop, hstart]

/-- A malformed entry starts in its piece. -/
theorem start_of_malformed {m : Hit (List Char)} {start stop : Nat}
    (h : entryOf? m = some (.malformed start stop)) :
    m.start ≤ start ∧ start < m.start + m.value.length := by
  unfold entryOf? at h
  split at h
  next => cases h
  next hspoken =>
    split at h
    next => cases h
    next =>
      cases h
      have hne : trimLeft m.value ≠ [] := by
        intro hnil
        simp [trim, hnil, trimRight] at hspoken
      have hpos := List.length_pos_iff.2 hne
      have hle : (trimLeft m.value).length ≤ m.value.length :=
        (List.dropWhile_suffix isBlank).length_le
      omega

/-- The malformed entries of a list start in it, one behind the other. -/
theorem listEntries_ordered (cs : List Char) :
    (listEntries cs).Pairwise (fun a b => ∀ start stop start' stop', a = .malformed start stop →
      b = .malformed start' stop' → start < start') ∧
    ∀ start stop, .malformed start stop ∈ listEntries cs → start < cs.length := by
  constructor
  · refine List.pairwise_filterMap.2 ((hits_apart _ cs).imp_of_mem ?_)
    rintro m n hm - hapart a ha b hb start stop start' stop' rfl rfl
    have ha := start_of_malformed ha
    have hb := start_of_malformed hb
    have hstop := (stop_of_mem_pieces hm).1
    omega
  · intro start stop hmem
    obtain ⟨m, hm, hentry⟩ := List.mem_filterMap.1 hmem
    have hstart := start_of_malformed hentry
    have hstop := stop_of_mem_pieces hm
    omega

section
variable {message code : String} {offset : Nat} {cs : List Char} {f : Finding}

theorem mem_malformedEntries_iff : f ∈ malformedEntries message code offset cs ↔
    ∃ start stop, .malformed start stop ∈ listEntries cs ∧
      f = ⟨offset + start, offset + stop, message, code⟩ := by
  rw [malformedEntries, List.mem_filterMap]
  constructor
  · rintro ⟨entry, hmem, hf⟩
    cases entry with
    | pair name type => cases hf
    | malformed start stop => exact ⟨start, stop, hmem, (Option.some.inj hf).symm⟩
  · rintro ⟨start, stop, hmem, rfl⟩
    exact ⟨_, hmem, rfl⟩

theorem malformedEntries_ordered :
    (malformedEntries message code offset cs).Pairwise fun f g => f.start < g.start := by
  refine List.pairwise_filterMap.2 ((listEntries_ordered cs).1.imp ?_)
  intro a b hab f hf g hg
  cases a with
  | pair name type => cases hf
  | malformed start stop =>
    cases b with
    | pair name type => cases hg
    | malformed start' stop' =>
      cases hf
      cases hg
      exact Nat.add_lt_add_left (hab _ _ _ _ rfl rfl) offset

theorem start_of_mem_malformedEntries (h : f ∈ malformedEntries message code offset cs) :
    offset ≤ f.start ∧ f.start < offset + cs.length := by
  obtain ⟨start, stop, hmem, rfl⟩ := mem_malformedEntries_iff.1 h
  have hlt := (listEntries_ordered cs).2 start stop hmem
  exact ⟨Nat.le_add_right _ _, Nat.add_lt_add_left hlt offset⟩

end

/-- The parameter list stands in its header. -/
theorem parameters_of_mem_functionHits {cs : List Char} {h : Hit Pattern.Header}
    (hmem : h ∈ functionHits cs) :
    h.start + h.value.parameters.offset + h.value.parameters.text.length ≤ h.stop ∧
      h.stop ≤ cs.length := by
  have hmatch := isMatch_of_mem_hits Source.functionHeader_reads hmem
  refine ⟨?_, hmatch.le⟩
  obtain ⟨front, u, rest, -, -, hread, hstart, hstop⟩ := hmatch
  obtain ⟨e, params, tail, -, hcs, hend, heq⟩ := Source.exists_of_functionHeader hread
  obtain ⟨v, -, rfl, -⟩ := hend.exists_append
  have hlength := congrArg List.length hcs
  simp only [List.length_append, List.length_cons] at hlength
  rw [heq]
  simp only
  omega

theorem parameterFindings_ordered (cs : List Char) :
    (parameterFindings cs).Pairwise fun f g => f.start < g.start := by
  refine List.pairwise_flatMap.2 ⟨fun h _ => malformedEntries_ordered, ?_⟩
  refine (hits_apart _ cs).imp_of_mem ?_
  intro h k hh _ hapart f hf g hg
  have hf := start_of_mem_malformedEntries hf
  have hg := start_of_mem_malformedEntries hg
  have hin := parameters_of_mem_functionHits hh
  omega

theorem eq_of_mem_parameterFindings {cs : List Char} {f g : Finding} (hf : f ∈ parameterFindings cs)
    (hg : g ∈ parameterFindings cs) (heq : g.start = f.start) : g = f := by
  have hsymm : Std.Symm fun f g : Finding => f.start = g.start → f = g :=
    ⟨fun _ _ h heq => (h heq.symm).symm⟩
  have hpairs : (parameterFindings cs).Pairwise fun f g => f.start = g.start → f = g :=
    (parameterFindings_ordered cs).imp fun hlt heq => absurd heq (Nat.ne_of_lt hlt)
  exact hpairs.forall_of_forall (fun _ _ _ => rfl) hg hf heq

theorem start_of_mem_parameterFindings {cs : List Char} {f : Finding}
    (h : f ∈ parameterFindings cs) : f.start ≤ cs.length ∧ f.code = Code.invalidParameter := by
  obtain ⟨k, hk, hf⟩ := List.mem_flatMap.1 h
  have hstart := start_of_mem_malformedEntries hf
  have hin := parameters_of_mem_functionHits hk
  obtain ⟨start, stop, -, rfl⟩ := mem_malformedEntries_iff.1 hf
  exact ⟨by omega, rfl⟩

theorem code_of_mem_fieldFindings {cs : List Char} {f : Finding} (h : f ∈ fieldFindings cs) :
    f.code = Code.invalidField := by
  obtain ⟨k, -, hf⟩ := List.mem_flatMap.1 h
  obtain ⟨start, stop, -, rfl⟩ := mem_malformedEntries_iff.1 hf
  rfl

theorem nodup_parameterFindings (cs : List Char) : (parameterFindings cs).Nodup := by
  refine (parameterFindings_ordered cs).imp ?_
  rintro f _ hlt rfl
  exact Nat.lt_irrefl _ hlt

/-- No two of them have one range. -/
theorem rangeOf_parameterFindings {d : Document} {f g : Finding}
    (hf : f ∈ parameterFindings d.chars) (hg : g ∈ parameterFindings d.chars) :
    d.rangeOf g.start g.stop = d.rangeOf f.start f.stop ↔ g = f := by
  refine ⟨fun hrange => ?_, fun heq => heq ▸ rfl⟩
  have hstart := Document.eq_of_positionAt_eq (start_of_mem_parameterFindings hg).1
    (start_of_mem_parameterFindings hf).1 (congrArg Range.start hrange)
  exact eq_of_mem_parameterFindings hf hg hstart

/-- What is found wrong about parameters is reported once. -/
theorem filter_extract {text uri : String} {lookup : FunctionLookup} {f : Finding}
    (hf : f ∈ parameterFindings text.toList) :
    let d : Document := ⟨uri, 0, text⟩
    (extract text uri lookup).diagnostics.filter (fun x =>
      x.code = some Code.invalidParameter && x.range = d.rangeOf f.start f.stop) =
      [f.report d .error .syntactic] := by
  intro d
  let reported : Finding → Bool := fun g =>
    g.code = Code.invalidParameter && d.rangeOf g.start g.stop = d.rangeOf f.start f.stop
  have hfields : (fieldFindings text.toList).filter reported = [] := by
    refine List.filter_eq_nil_iff.2 fun g hg => ?_
    simp only [reported, code_of_mem_fieldFindings hg]
    simp [Code.invalidField, Code.invalidParameter]
  have hparameters : (parameterFindings text.toList).filter reported = [f] := by
    have hsame : ∀ g ∈ parameterFindings text.toList, reported g = (g == f) := by
      intro g hg
      have hrange := rangeOf_parameterFindings (d := d) hf hg
      simp only [reported, (start_of_mem_parameterFindings hg).2, hrange, decide_true,
        Bool.true_and]
      rfl
    rw [List.filter_congr hsame, List.filter_beq,
      List.count_eq_one_of_mem (nodup_parameterFindings _) hf]
    rfl
  have hreport : (extract text uri lookup).diagnostics =
      (fieldFindings text.toList ++ parameterFindings text.toList).map
        (Finding.report d .error .syntactic) := rfl
  have hcode : ∀ g : Finding, ((g.report d .error .syntactic).code = some Code.invalidParameter &&
      (g.report d .error .syntactic).range = d.rangeOf f.start f.stop) = reported g :=
    fun g => congrArg (· && _) (decide_eq_decide.2 Option.some_inj)
  rw [hreport, List.filter_map]
  calc _ = ((fieldFindings text.toList ++ parameterFindings text.toList).filter reported).map
          (Finding.report d .error .syntactic) := congrArg _ (List.filter_congr fun g _ => hcode g)
    _ = [f.report d .error .syntactic] := by
      rw [List.filter_append, hfields, hparameters]
      rfl

/-! ### Headers in the body of a class -/

/-- The text in which the methods of a class are searched. -/
def classBody (cs : List Char) (c : Hit (List Char)) : List Char :=
  slice cs c.stop (blockEnd cs c.stop)

/-- A header that is found in front of the body ends where this one in the body ends. -/
def Swallowed (cs : List Char) (c : Hit (List Char)) (m : Hit Pattern.Header) : Prop :=
  ∃ f ∈ functionHits cs, f.start < c.stop ∧ f.stop = c.stop + m.stop

theorem exists_append_classBody {cs : List Char} {c : Hit (List Char)} (h : c.stop ≤ cs.length) :
    ∃ front back, cs = front ++ (classBody cs c ++ back) ∧ front.length = c.stop := by
  refine ⟨cs.take c.stop, (cs.drop c.stop).drop (blockEnd cs c.stop - c.stop), ?_,
    List.length_take_of_le h⟩
  rw [classBody, slice, List.take_append_drop, List.take_append_drop]

/-- A header in the body of a class is one of the text iff none from in front of it ends with it,
which can only happen to the first. -/
theorem shift_mem_functionHits_iff {cs : List Char} {c : Hit (List Char)} {m : Hit Pattern.Header}
    (hc : c ∈ hits (anywhere (Pattern.blockHead "class")) cs)
    (hm : m ∈ functionHits (classBody cs c)) :
    (m.shift c.stop ∈ functionHits cs ↔ ¬ Swallowed cs c m) ∧
      (Swallowed cs c m → (functionHits (classBody cs c)).head? = some m) := by
  have hle : c.stop ≤ cs.length := (isMatch_of_mem_hits (Source.blockHead_reads "class") hc).le
  obtain ⟨front, back, hcs, hfront⟩ := exists_append_classBody hle
  generalize classBody cs c = body at hcs hm
  subst hcs
  simp only [Swallowed, ← hfront]
  constructor
  · refine (mem_hits_part_iff Source.functionHeader_reads Source.functionHeader_endTogether
      Source.functionHeader_local hm).trans ?_
    simp only [functionHits, not_exists, not_and]
  · rintro ⟨f, hf, hlt, hstop⟩
    exact head?_of_lost Source.functionHeader_reads Source.functionHeader_endTogether
      Source.functionHeader_local hm hf hlt hstop

/-- The signature of a header does not depend on the search that found it, the class apart. -/
theorem signature_shift (d : Document) (offset : Nat) (owner : Option String)
    (m : Hit Pattern.Header) :
    signature d 0 owner (m.shift offset) = signature d offset owner m := by
  simp only [signature, Hit.shift, Nat.zero_add]

/-- Every method that is recorded has a header in the body of a class. If no header from in front of
the body ends with that header, the search for functions finds it at the same place, with the same
parameters and result: the method's name is that of a function, and each malformed parameter is
reported once. Otherwise the search does not find it, and it is the first of its class. -/
theorem method_seen_iff (text uri : String) (lookup : FunctionLookup) :
    let d : Document := ⟨uri, 0, text⟩
    let x := extract text uri lookup
    ∀ name C, x.table.classes.get? name = some C → ∀ n s, C.methods.get? n = some s →
      ∃ c ∈ hits (anywhere (Pattern.blockHead "class")) d.chars,
      ∃ m ∈ functionHits (classBody d.chars c),
        C = classDefinition d c ∧ s = signature d c.stop (some C.name) m ∧
        (m.shift c.stop ∈ functionHits d.chars ↔ ¬ Swallowed d.chars c m) ∧
        (Swallowed d.chars c m → (functionHits (classBody d.chars c)).head? = some m) ∧
        (¬ Swallowed d.chars c m →
          signature d 0 none (m.shift c.stop) = { s with owner := none } ∧
          s.name ∈ x.table.functions.keys ∧
          ∀ start stop, .malformed start stop ∈ listEntries m.value.parameters.text →
            let offset := c.stop + m.start + m.value.parameters.offset
            let r := d.rangeOf (offset + start : Nat) (offset + stop : Nat)
            x.diagnostics.filter (fun e => e.code = some Code.invalidParameter && e.range = r) =
              [d.errorAt (offset + start : Nat) (offset + stop : Nat)
                ("Invalid parameter definition in function " ++ s.name)
                Code.invalidParameter]) := by
  intro d x name C hC n s hs
  obtain ⟨c, hc, rfl⟩ := List.mem_map.1 (mem_of_get?_byName hC)
  obtain ⟨m, hm, rfl⟩ := List.mem_map.1 (mem_of_get?_byName hs)
  obtain ⟨hseen, hlost⟩ := shift_mem_functionHits_iff hc hm
  refine ⟨c, hc, m, hm, rfl, rfl, hseen, hlost, fun hfree => ?_⟩
  have hmem := hseen.2 hfree
  refine ⟨?_, ?_, fun start stop hentry => ?_⟩
  · rw [signature_shift, signature_eq, signature_eq]
  · exact mem_keys_byName.2 ⟨_, List.mem_map_of_mem hmem, rfl⟩
  · have hfinding : _ ∈ parameterFindings text.toList := List.mem_flatMap.2
      ⟨m.shift c.stop, hmem, mem_malformedEntries_iff.2 ⟨start, stop, hentry, rfl⟩⟩
    exact filter_extract hfinding

/-- What looks like a header in a comment reaches into the class behind it: the method is no
function and what is wrong about its parameter is not reported. -/
theorem method_unseen :
    let text := "// fun all(\nclass C \x7b\n  fun m(a) \x7b\n  \x7d\n\x7d\n"
    let x := extract text "file:///main.bn" fun _ => none
    (x.table.classes.get? "C").map (·.methods.keys) = some ["m"] ∧
      x.table.functions.keys = ["all"] ∧
      x.diagnostics.filter (·.message = "Invalid parameter definition in function m") = [] := by
  decide +kernel

end Symbol

end BurnLens
