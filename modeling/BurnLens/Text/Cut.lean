import BurnLens.Text.Char

/-! # Cutting text

Trimming, splitting and substring search on lists of characters. `splitOn` never drops a piece:
joining the pieces with the separator gives the text back (`joinWith_splitOn`). -/

namespace BurnLens.Text

/-! ### Trimming -/

def trimLeft (cs : List Char) : List Char :=
  cs.dropWhile isBlank

def trimRight (cs : List Char) : List Char :=
  (cs.reverse.dropWhile isBlank).reverse

def trim (cs : List Char) : List Char :=
  trimRight (trimLeft cs)

/-! ### Splitting -/

/-- Puts `c` in front of the first piece. -/
def consFirst (c : Char) : List (List Char) → List (List Char)
  | [] => [[c]]
  | p :: ps => (c :: p) :: ps

/-- The pieces between the separators; one more than there are separators. -/
def splitOn (sep : Char) : List Char → List (List Char)
  | [] => [[]]
  | c :: cs => if c == sep then [] :: splitOn sep cs else consFirst c (splitOn sep cs)

/-- The pieces with `sep` between them. -/
def joinWith (sep : Char) : List (List Char) → List Char
  | [] => []
  | [p] => p
  | p :: q :: ps => p ++ sep :: joinWith sep (q :: ps)

/-- The lines of a report. A carriage return and the newline after it are one break, and a break at
the very end starts no further line. -/
def reportLines : List Char → List (List Char)
  | [] => []
  | '\r' :: '\n' :: cs => [] :: reportLines cs
  | c :: cs => if isLineBreak c then [] :: reportLines cs else consFirst c (reportLines cs)

/-- Writes every line end as a single newline. -/
def unifyNewlines : List Char → List Char
  | [] => []
  | '\r' :: '\n' :: cs => '\n' :: unifyNewlines cs
  | '\r' :: cs => '\n' :: unifyNewlines cs
  | c :: cs => c :: unifyNewlines cs

/-! ### Searching -/

/-- Whether `w` occurs somewhere in the text. -/
def occursIn (w : List Char) : List Char → Bool
  | [] => w.isEmpty
  | c :: cs => w.isPrefixOf (c :: cs) || occursIn w cs

/-- Whether the text ends with `w`. -/
def endsWith (cs w : List Char) : Bool :=
  w.isSuffixOf cs

/-! ### Laws -/

theorem splitOn_ne_nil (sep : Char) (cs : List Char) : splitOn sep cs ≠ [] := by
  cases cs with
  | nil => simp [splitOn]
  | cons c cs =>
    unfold splitOn
    split
    · simp
    · cases splitOn sep cs <;> simp [consFirst]

theorem joinWith_nil_cons (sep : Char) {ps : List (List Char)} (h : ps ≠ []) :
    joinWith sep ([] :: ps) = sep :: joinWith sep ps := by
  cases ps with
  | nil => exact absurd rfl h
  | cons p ps => rfl

theorem joinWith_consFirst (sep c : Char) (ps : List (List Char)) :
    joinWith sep (consFirst c ps) = c :: joinWith sep ps := by
  match ps with
  | [] => rfl
  | [_] => rfl
  | _ :: _ :: _ => rfl

/-- Joining the pieces with the separator gives the text back. -/
theorem joinWith_splitOn (sep : Char) (cs : List Char) : joinWith sep (splitOn sep cs) = cs := by
  induction cs with
  | nil => rfl
  | cons c cs ih =>
    unfold splitOn
    split
    next h => rw [joinWith_nil_cons sep (splitOn_ne_nil sep cs), ih, eq_of_beq h]
    next => rw [joinWith_consFirst, ih]

/-- No piece has the separator in it. -/
theorem not_mem_of_mem_splitOn {sep : Char} {cs p : List Char} (h : p ∈ splitOn sep cs) :
    sep ∉ p := by
  induction cs generalizing p with
  | nil =>
    rw [List.mem_singleton.1 h]
    exact List.not_mem_nil
  | cons c cs ih =>
    unfold splitOn at h
    split at h
    next =>
      rcases List.mem_cons.1 h with rfl | h
      · exact List.not_mem_nil
      · exact ih h
    next hc =>
      cases hps : splitOn sep cs with
      | nil => exact absurd hps (splitOn_ne_nil sep cs)
      | cons q qs =>
        rw [hps] at h ih
        rcases List.mem_cons.1 h with rfl | h
        · intro hmem
          rcases List.mem_cons.1 hmem with rfl | hmem
          · simp at hc
          · exact ih List.mem_cons_self hmem
        · exact ih (List.mem_cons_of_mem _ h)

theorem splitOn_append_cons {sep : Char} {p : List Char} (h : sep ∉ p) (cs : List Char) :
    splitOn sep (p ++ sep :: cs) = p :: splitOn sep cs := by
  induction p with
  | nil => simp [splitOn]
  | cons c p ih =>
    have hne : c ≠ sep := fun hc => h (hc ▸ List.mem_cons_self)
    have hp : sep ∉ p := fun hmem => h (List.mem_cons_of_mem _ hmem)
    simp [splitOn, ih hp, hne, consFirst]

theorem splitOn_of_not_mem {sep : Char} {p : List Char} (h : sep ∉ p) : splitOn sep p = [p] := by
  induction p with
  | nil => rfl
  | cons c p ih =>
    have hne : c ≠ sep := fun hc => h (hc ▸ List.mem_cons_self)
    have hp : sep ∉ p := fun hmem => h (List.mem_cons_of_mem _ hmem)
    simp [splitOn, ih hp, hne, consFirst]

/-- Pieces without the separator are found again in what they were joined to. -/
theorem splitOn_joinWith {sep : Char} {ps : List (List Char)} (hne : ps ≠ [])
    (h : ∀ p ∈ ps, sep ∉ p) : splitOn sep (joinWith sep ps) = ps := by
  induction ps with
  | nil => exact absurd rfl hne
  | cons p ps ih =>
    cases ps with
    | nil => exact splitOn_of_not_mem (h p List.mem_cons_self)
    | cons q ps =>
      have hrest := ih (by simp) fun r hr => h r (List.mem_cons_of_mem _ hr)
      rw [joinWith, splitOn_append_cons (h p List.mem_cons_self), hrest]

end BurnLens.Text
