import BurnLens.File.Uri

/-!
# A URI tells one file

A path that leads to a file leads, name by name, to the very place that its text names, as long as
no folder on the way is missing (`located`). The URI of a place can be read back: octets from their
escapes, characters from their octets and names from between the slashes. So two paths with one URI
lead to one file (`readText_eq`), and files can be counted by their URIs.
-/

namespace BurnLens

/-! ### Failing computations -/

theorem bind_eq_ok {ε α β : Type} {x : Except ε α} {f : α → Except ε β} {b : β} :
    (x >>= f) = .ok b ↔ ∃ a, x = .ok a ∧ f a = .ok b := by
  cases x with
  | error fault => simp [bind, Except.bind]
  | ok a => simp [bind, Except.bind]

theorem mapError_eq_ok {ε ε' α : Type} {x : Except ε α} {f : ε → ε'} {a : α} :
    x.mapError f = .ok a ↔ x = .ok a := by
  cases x with
  | error fault => exact ⟨nofun, nofun⟩
  | ok b => constructor <;> rintro ⟨⟩ <;> rfl

theorem bind_eq_error {ε α β : Type} {x : Except ε α} {f : α → Except ε β} {fault : ε} :
    (x >>= f) = .error fault ↔ x = .error fault ∨ ∃ a, x = .ok a ∧ f a = .error fault := by
  cases x with
  | error fault => simp [bind, Except.bind]
  | ok a => simp [bind, Except.bind]

theorem mapError_eq_error {ε ε' α : Type} {x : Except ε α} {f : ε → ε'} {fault : ε'} :
    x.mapError f = .error fault ↔ ∃ inner, x = .error inner ∧ f inner = fault := by
  cases x with
  | error inner =>
    constructor
    · rintro ⟨⟩
      exact ⟨inner, rfl, rfl⟩
    · rintro ⟨_, ⟨⟩, rfl⟩
      rfl
  | ok b => exact ⟨nofun, nofun⟩

/-! ### Reading back what was written -/

namespace Text.Utf8

theorem toNat_tailOctet (n : Nat) : (tailOctet n).toNat = 0x80 + n % 64 := by
  unfold tailOctet
  rw [UInt8.toNat_ofNat']
  omega

theorem toNat_octet {n : Nat} (h : n < 256) : (UInt8.ofNat n).toNat = n := by
  rw [UInt8.toNat_ofNat']
  omega

section
variable {n low high : Nat} (hlow : low ≤ 0x80 + n % 64) (hhigh : 0x80 + n % 64 ≤ high)
include hlow hhigh

theorem decodeFrom_last (bs : List UInt8) :
    decodeFrom (some ⟨n / 64, 1, low, high⟩) (tailOctet n :: bs) =
      some (Char.ofNat n) :: decodeFrom none bs := by
  have hcode : n / 64 * 64 + (0x80 + n) % 64 = n := by omega
  simp [decodeFrom, step, toNat_tailOctet, hlow, hhigh, hcode]

theorem decodeFrom_inner (owed : Nat) (bs : List UInt8) :
    decodeFrom (some ⟨n / 64, owed + 2, low, high⟩) (tailOctet n :: bs) =
      decodeFrom (some ⟨n, owed + 1, 0x80, 0xBF⟩) bs := by
  have hcode : n / 64 * 64 + (0x80 + n) % 64 = n := by omega
  simp [decodeFrom, step, toNat_tailOctet, hlow, hhigh, hcode]

end

theorem decodeFrom_lead {b : Nat} {p : Pending} (hb : b < 256) (hlead : lead b = .sequence p)
    (bs : List UInt8) : decodeFrom none (UInt8.ofNat b :: bs) = decodeFrom (some p) bs := by
  simp [decodeFrom, step, toNat_octet hb, hlead]

/-- The octets of a character are read as that character. -/
theorem decodeFrom_encodeCode (c : Char) (bs : List UInt8) :
    decodeFrom none (encodeCode c.toNat ++ bs) = some c :: decodeFrom none bs := by
  have hvalid : c.toNat < 0xD800 ∨ 0xDFFF < c.toNat ∧ c.toNat < 0x110000 := c.valid
  have hc : Char.ofNat c.toNat = c := Char.ofNat_toNat c
  generalize c.toNat = n at *
  unfold encodeCode
  split
  next h => simp [decodeFrom, step, lead, toNat_octet (by omega : n < 256), h, hc]
  next h =>
  split
  next h2 =>
    have hlead : lead (0xC0 + n / 64) = .sequence ⟨n / 64, 1, 0x80, 0xBF⟩ := by
      unfold lead
      rw [if_neg (by omega), if_pos (by omega), Nat.add_sub_cancel_left]
    rw [List.cons_append, decodeFrom_lead (by omega) hlead]
    rw [List.cons_append, decodeFrom_last (by omega) (by omega), hc]
    rfl
  next h2 =>
  split
  next h3 =>
    -- after some leads the second octet has a smaller range, which rules out surrogates and
    -- longer forms
    obtain ⟨low, high, hlead, hlow, hhigh⟩ : ∃ low high,
        lead (0xE0 + n / 4096) = .sequence ⟨n / 64 / 64, 2, low, high⟩ ∧
          low ≤ 0x80 + n / 64 % 64 ∧ 0x80 + n / 64 % 64 ≤ high := by
      unfold lead
      rw [if_neg (by omega), if_neg (by omega)]
      split
      · exact ⟨0xA0, 0xBF, by simp; omega, by omega, by omega⟩
      split
      · exact ⟨0x80, 0x9F, by simp; omega, by omega, by omega⟩
      rw [if_pos (by omega)]
      exact ⟨0x80, 0xBF, by simp; omega, by omega, by omega⟩
    rw [List.cons_append, decodeFrom_lead (by omega) hlead]
    rw [List.cons_append, decodeFrom_inner hlow hhigh 0]
    rw [List.cons_append, decodeFrom_last (by omega) (by omega), hc]
    rfl
  next h3 =>
    obtain ⟨low, high, hlead, hlow, hhigh⟩ : ∃ low high,
        lead (0xF0 + n / 262144) = .sequence ⟨n / 4096 / 64, 3, low, high⟩ ∧
          low ≤ 0x80 + n / 4096 % 64 ∧ 0x80 + n / 4096 % 64 ≤ high := by
      unfold lead
      rw [if_neg (by omega), if_neg (by omega), if_neg (by omega), if_neg (by omega),
        if_neg (by omega)]
      split
      · exact ⟨0x90, 0xBF, by simp; omega, by omega, by omega⟩
      split
      · exact ⟨0x80, 0xBF, by simp; omega, by omega, by omega⟩
      rw [if_pos (by omega)]
      exact ⟨0x80, 0x8F, by simp; omega, by omega, by omega⟩
    have hdiv : n / 4096 = n / 64 / 64 := by omega
    rw [List.cons_append, decodeFrom_lead (by omega) hlead]
    rw [List.cons_append, decodeFrom_inner hlow hhigh 1, hdiv]
    rw [List.cons_append, decodeFrom_inner (by omega) (by omega) 0]
    rw [List.cons_append, decodeFrom_last (by omega) (by omega), hc]
    rfl

theorem decode_encode (cs : List Char) : decode (encode cs) = cs.map some := by
  induction cs with
  | nil => rfl
  | cons c cs ih =>
    have hcons : encode (c :: cs) = encodeCode c.toNat ++ encode cs := rfl
    rw [decode, hcons, decodeFrom_encodeCode, List.map_cons]
    exact congrArg _ ih

theorem encode_inj {cs cs' : List Char} (h : encode cs = encode cs') : cs = cs' := by
  have hmap := congrArg decode h
  rw [decode_encode, decode_encode] at hmap
  exact (List.map_inj_right fun _ _ => Option.some.inj).1 hmap

end Text.Utf8

namespace Uri

theorem octetOf?_upperHex (b : UInt8) :
    octetOf? (upperHex (b.toNat / 16)) (upperHex (b.toNat % 16)) = some b := by
  have hall : ∀ n : Fin 256,
      octetOf? (upperHex (n.val / 16)) (upperHex (n.val % 16)) = some (UInt8.ofNat n.val) := by
    decide +kernel
  simpa using hall ⟨b.toNat, b.toNat_lt⟩

theorem encodeCode_plain {b : UInt8} (h : isPlain b = true) :
    Char.ofNat b.toNat ≠ '%' ∧ Text.Utf8.encodeCode (Char.ofNat b.toNat).toNat = [b] := by
  have hall : ∀ n : Fin 256, isPlain (UInt8.ofNat n.val) = true →
      Char.ofNat n.val ≠ '%' ∧
        Text.Utf8.encodeCode (Char.ofNat n.val).toNat = [UInt8.ofNat n.val] := by
    decide +kernel
  simpa [h] using hall ⟨b.toNat, b.toNat_lt⟩

theorem unescapeOctets_escapeOctet (b : UInt8) (cs : List Char) :
    unescapeOctets (escapeOctet b ++ cs) = b :: unescapeOctets cs := by
  unfold escapeOctet
  split
  next h =>
    obtain ⟨hne, hcode⟩ := encodeCode_plain h
    rw [List.singleton_append, unescapeOctets, hcode]
    · rfl
    · intro a b cs hc _
      exact hne hc
  next => simp [unescapeOctets, octetOf?_upperHex]

theorem unescapeOctets_escape (cs : List Char) :
    unescapeOctets (escape cs) = Text.Utf8.encode cs := by
  unfold escape
  induction Text.Utf8.encode cs with
  | nil => rfl
  | cons b bs ih => rw [List.flatMap_cons, unescapeOctets_escapeOctet, ih]

theorem escape_inj {cs cs' : List Char} (h : escape cs = escape cs') : cs = cs' := by
  apply Text.Utf8.encode_inj
  rw [← unescapeOctets_escape, h, unescapeOctets_escape]

end Uri

/-! ### Names -/

theorem intercalate_singleton (sep : Char) (ps : List (List Char)) :
    [sep].intercalate ps = Text.joinWith sep ps := by
  match ps with
  | [] => rfl
  | [p] => simp [List.intercalate, Text.joinWith]
  | p :: q :: ps =>
    have ih := intercalate_singleton sep (q :: ps)
    simp only [List.intercalate, List.intersperse_cons_cons, List.flatten_cons] at ih ⊢
    rw [ih]
    rfl

/-- Names that a place can have: not empty and without a slash. -/
def Place.Proper (place : Place) : Prop :=
  ∀ name ∈ place, name ≠ "" ∧ '/' ∉ name.toList

theorem Path.pieces_intercalate {place : Place} (hne : place ≠ []) (h : place.Proper) :
    Path.pieces ("/".intercalate place) = place := by
  have hjoin : ("/".intercalate place).toList = Text.joinWith '/' (place.map String.toList) := by
    rw [String.toList_intercalate]
    exact intercalate_singleton '/' _
  have hslash : ∀ p ∈ place.map String.toList, '/' ∉ p := by
    intro p hp
    obtain ⟨name, hname, rfl⟩ := List.mem_map.1 hp
    exact (h name hname).2
  rw [Path.pieces, hjoin, Text.splitOn_joinWith (by simpa using hne) hslash, List.map_map]
  have hid : String.ofList ∘ String.toList = id := funext fun s => String.ofList_toList
  rw [hid, List.map_id]

theorem Path.intercalate_inj {a b : Place} (ha : a.Proper) (hb : b.Proper)
    (h : "/".intercalate a = "/".intercalate b) : a = b := by
  have hnil : ∀ {c : Place}, c.Proper → "/".intercalate c = "" → c = [] := by
    intro c hc hempty
    cases c with
    | nil => rfl
    | cons name rest =>
      have hpieces := Path.pieces_intercalate (by simp) hc
      rw [hempty] at hpieces
      have hname : name = "" := (List.cons.inj hpieces).1.symm
      exact absurd hname (hc name List.mem_cons_self).1
  by_cases hea : a = []
  · subst hea
    exact (hnil hb h.symm).symm
  · by_cases heb : b = []
    · subst heb
      exact hnil ha h
    · rw [← Path.pieces_intercalate hea ha, h, Path.pieces_intercalate heb hb]

/-- No two places have one URI. -/
theorem Uri.ofPlace_inj {a b : Place} (ha : a.Proper) (hb : b.Proper)
    (h : Uri.ofPlace a = Uri.ofPlace b) : a = b := by
  have hescape : String.ofList (Uri.escape (Path.ofPlace a).toString.toList) =
      String.ofList (Uri.escape (Path.ofPlace b).toString.toList) :=
    (String.append_right_inj _).1 h
  have htext := Uri.escape_inj (String.ofList_injective hescape)
  have htext : (Path.ofPlace a).toString = (Path.ofPlace b).toString := String.toList_inj.1 htext
  exact Path.intercalate_inj ha hb ((String.append_right_inj _).1 htext)

/-! ### Looking up -/

namespace Path

/-- Every part is a name that a place can have. -/
def Proper (path : Path) : Prop :=
  Place.Proper path.parts

theorem pieces_slash {s name : String} (h : name ∈ pieces s) : '/' ∉ name.toList := by
  obtain ⟨p, hp, rfl⟩ := List.mem_map.1 h
  rw [String.toList_ofList]
  exact Text.not_mem_of_mem_splitOn hp

theorem proper_ofString (s : String) : (ofString s).Proper := by
  intro part hpart
  obtain ⟨hpiece, hne⟩ := List.mem_filter.1 hpart
  exact ⟨(of_decide_eq_true hne).1, pieces_slash hpiece⟩

theorem Proper.join {p q : Path} (hp : p.Proper) (hq : q.Proper) : (p.join q).Proper := by
  unfold Path.join
  split
  · intro part hpart
    rcases List.mem_append.1 hpart with hpart | hpart
    · exact hp part hpart
    · exact hq part hpart
  · exact hq

theorem Proper.parent {p : Path} (hp : p.Proper) : p.parent.Proper :=
  fun part hpart => hp part (List.dropLast_subset _ hpart)

/-- The text of a path without a root does not start with a slash. -/
def Clean (path : Path) : Prop :=
  path.root = .relative → ∀ part ∈ path.parts, ∃ c cs, part.toList = c :: cs ∧ c ≠ '/'

theorem Proper.clean {p : Path} (hp : p.Proper) : p.Clean := by
  intro _ part hpart
  obtain ⟨hne, hslash⟩ := hp part hpart
  cases hcs : part.toList with
  | nil => exact absurd (String.toList_inj.1 hcs) hne
  | cons c cs =>
    refine ⟨c, cs, rfl, ?_⟩
    rintro rfl
    exact hslash (by simp [hcs])

/-- Completing the last name of a path keeps its first letter. -/
theorem Clean.withName {p q : Path} {ending : String} (hp : p.Clean)
    (h : p.withName (p.name ++ ending) = .ok q) : q.Clean := by
  unfold Path.withName at h
  split at h
  · cases h
  next hname =>
    split at h
    · cases h
      intro hroot part hpart
      rcases List.mem_append.1 hpart with hpart | hpart
      · exact hp hroot part (List.dropLast_subset _ hpart)
      · cases hlast : p.parts.getLast? with
        | none => simp [name, hlast] at hname
        | some last =>
          obtain ⟨c, cs, hcs, hne⟩ := hp hroot last (List.mem_of_getLast? hlast)
          refine ⟨c, cs ++ ending.toList, ?_, hne⟩
          rw [List.mem_singleton.1 hpart, name, hlast]
          simp [hcs]
    · cases h

theorem head?_toString {path : Path} (h : path.Clean) :
    path.toString.toList.head? = some '/' ↔ path.root ≠ .relative := by
  unfold toString
  cases hroot : path.root with
  | relative =>
    cases hparts : path.parts with
    | nil => simp
    | cons part rest =>
      obtain ⟨c, cs, hcs, hne⟩ := h hroot part (by simp [hparts])
      have hhead : (['/'].intercalate (part.toList :: rest.map String.toList)).head? = some c := by
        cases rest <;> simp [List.intercalate, hcs]
      simp [PathRoot.text, hhead, hne]
  | single => simp [PathRoot.text]
  | double => simp [PathRoot.text]

end Path

namespace FileSystem
variable {fs : FileSystem} {path path' : Path} {place : Place} {e : Entry} {uri : String}

/-- One step of a walk: it starts in a folder that may be searched, unless nothing is looked up. -/
theorem walk_cons_ok {name : String} {rest : List String} {start : Place} {found : Place × Entry}
    (h : fs.walk start (name :: rest) = .ok found) :
    fs.get? start = some .folder ∧ (name = "" ∨ start ∉ fs.unsearchable) ∧
      fs.walk (follow start name) rest = .ok found := by
  rw [walk] at h
  split at h
  · cases h
  next hfolder =>
    refine ⟨hfolder, ?_⟩
    split at h
    next hempty => exact ⟨.inl hempty, by rwa [follow, if_pos (.inl hempty)]⟩
    next hempty =>
    split at h
    · cases h
    next hsearched =>
    refine ⟨.inr (by simpa using hsearched), ?_⟩
    split at h
    next hdot => rwa [follow, if_pos (.inr hdot)]
    next hdot =>
    rw [follow, if_neg (not_or.2 ⟨hempty, hdot⟩)]
    split at h
    next hup => rwa [if_pos hup]
    next hup =>
    split at h
    · cases h
    · rwa [if_neg hup]
  · cases h

theorem walk_ok {names : List String} {start : Place} (h : fs.walk start names = .ok (place, e)) :
    names.foldl follow start = place ∧ fs.get? place = some e := by
  induction names generalizing start with
  | nil =>
    unfold walk at h
    split at h
    · cases h
    · cases h
      exact ⟨rfl, ‹_›⟩
  | cons name rest ih => exact ih (walk_cons_ok h).2.2

theorem proper_foldl_follow {names : List String} {start : Place} (hstart : start.Proper)
    (h : ∀ name ∈ names, '/' ∉ name.toList) : Place.Proper (names.foldl follow start) := by
  induction names generalizing start with
  | nil => exact hstart
  | cons name rest ih =>
    refine ih ?_ fun n hn => h n (List.mem_cons_of_mem _ hn)
    unfold follow
    split
    · exact hstart
    · split
      · exact fun n hn => hstart n (List.dropLast_subset _ hn)
      · rename_i hstay _
        intro n hn
        rcases List.mem_append.1 hn with hn | hn
        · exact hstart n hn
        · rw [List.mem_singleton.1 hn]
          exact ⟨fun hempty => hstay (.inl hempty), h name List.mem_cons_self⟩

theorem proper_resolve (hhere : fs.here.Proper) (h : fs.resolve path = .ok place) :
    place.Proper := by
  simp only [resolve] at h
  split at h
  · cases h
  · cases h
    refine proper_foldl_follow ?_ fun name hname => Path.pieces_slash hname
    split
    · exact hhere
    · exact nofun

/-- A text that the system takes is looked up piece by piece. -/
theorem locate_eq_ok_iff {text : String} {found : Place × Entry} : fs.locate text = .ok found ↔
    text ≠ "" ∧ Char.ofNat 0 ∉ text.toList ∧
      (Text.Utf8.encode text.toList).length ≤ pathLimit ∧
      fs.walk (if text.toList.head? = some '/' then [] else fs.here) (Path.pieces text) =
        .ok found := by
  rw [← List.contains_iff_mem, ← Nat.not_lt, locate]
  by_cases hempty : text = ""
  · simp [hempty]
  by_cases hnull : text.toList.contains (Char.ofNat 0) = true
  · rw [if_neg hempty, if_pos hnull]
    exact ⟨nofun, fun h => absurd hnull h.2.1⟩
  by_cases hlong : pathLimit < (Text.Utf8.encode text.toList).length
  · rw [if_neg hempty, if_neg hnull, if_pos hlong]
    exact ⟨nofun, fun h => absurd hlong h.2.2.1⟩
  rw [if_neg hempty, if_neg hnull, if_neg hlong]
  exact ⟨fun h => ⟨hempty, hnull, hlong, h⟩, fun h => h.2.2.2⟩

/-- A path that leads somewhere leads to the place that its text names. -/
theorem resolve_of_locate (hclean : path.Clean) (h : fs.locate path.toString = .ok (place, e)) :
    fs.resolve path = .ok place ∧ fs.get? place = some e := by
  obtain ⟨-, hnull, -, hwalk⟩ := locate_eq_ok_iff.1 h
  obtain ⟨hfold, hentry⟩ := walk_ok hwalk
  -- one looks at the text of the path for its start, the other at its root
  have hstart : (if path.toString.toList.head? = some '/' then [] else fs.here) =
      if path.root = .relative then fs.here else [] := by
    by_cases hroot : path.root = .relative
    · rw [if_pos hroot, if_neg fun hhead => (Path.head?_toString hclean).1 hhead hroot]
    · rw [if_neg hroot, if_pos ((Path.head?_toString hclean).2 hroot)]
  refine ⟨?_, hentry⟩
  rw [resolve, if_neg (by simpa using hnull), ← hstart, hfold]

theorem locate_of_probe {found : Place × Entry} (h : fs.probe path = .ok (some found)) :
    fs.locate path.toString = .ok found := by
  unfold probe at h
  split at h
  next heq =>
    cases h
    exact heq
  all_goals cases h

theorem locate_of_isFile (h : fs.isFile path = .ok true) :
    ∃ place e, fs.locate path.toString = .ok (place, e) ∧ e.isFolder = false := by
  obtain ⟨found?, hprobe, hfound⟩ := bind_eq_ok.1 h
  obtain ⟨found, rfl, hfile⟩ := (Option.any_eq_true _ _).1 (Except.ok.inj hfound)
  exact ⟨found.1, found.2, locate_of_probe hprobe, by simpa using hfile⟩

theorem readText_of_isFile (h : fs.isFile path = .ok true) :
    ∃ text?, fs.readText path = .ok text? := by
  obtain ⟨place, e, hlocate, -⟩ := locate_of_isFile h
  unfold readText
  rw [hlocate]
  dsimp only
  split <;> exact ⟨_, rfl⟩

/-- A file stands at the place that its URI tells. -/
theorem located (hclean : path.Clean) (hfile : fs.isFile path = .ok true)
    (huri : fs.uriOf path = .ok uri) :
    ∃ place e, fs.locate path.toString = .ok (place, e) ∧ uri = Uri.ofPlace place ∧
      fs.entries.lookup place = some e ∧ (fs.here.Proper → place.Proper) := by
  obtain ⟨place, e, hlocate, hfolder⟩ := locate_of_isFile hfile
  obtain ⟨hresolve, hentry⟩ := resolve_of_locate hclean hlocate
  obtain ⟨place', hplace', huri⟩ := bind_eq_ok.1 huri
  cases hresolve.symm.trans hplace'
  cases huri
  refine ⟨place, e, hlocate, rfl, ?_, fun hhere => proper_resolve hhere hresolve⟩
  unfold get? at hentry
  split at hentry
  · cases hentry
    cases hfolder
  · exact hentry

/-- Files with one URI are one file. -/
theorem readText_eq (hhere : fs.here.Proper) (hclean : path.Clean) (hclean' : path'.Clean)
    (hfile : fs.isFile path = .ok true) (hfile' : fs.isFile path' = .ok true)
    (huri : fs.uriOf path = .ok uri) (huri' : fs.uriOf path' = .ok uri) :
    fs.readText path = fs.readText path' := by
  obtain ⟨place, e, hlocate, hplace, hentry, hproper⟩ := located hclean hfile huri
  obtain ⟨place', e', hlocate', hplace', hentry', hproper'⟩ := located hclean' hfile' huri'
  have hsame : place = place' :=
    Uri.ofPlace_inj (hproper hhere) (hproper' hhere) (hplace.symm.trans hplace')
  subst hsame
  cases hentry.symm.trans hentry'
  rw [readText, readText, hlocate, hlocate']

end FileSystem

end BurnLens
