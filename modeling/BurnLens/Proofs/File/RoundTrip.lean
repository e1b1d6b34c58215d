import BurnLens.Proofs.File.Place
import BurnLens.Proofs.Text.Occurs
import BurnLens.Proofs.Text.Run

/-!
# The URI of a file is read back

What is escaped is made of few characters, none of which divides a URI: so the whole of it is taken
for the path, and unescaped it is the text of the path again (`toPath?_ofPlace`). Every path that
can be resolved resolves to a place whose names need no further resolving, hence the URI of a path
names the place of the path and is the URI of that place (`uriOf_roundTrip`).
-/

namespace BurnLens

open Text

/-! ### Resolved places -/

/-- The character that no path may have. -/
def nullChar : Char := Char.ofNat 0

/-- The names are such as resolving leaves: none of them is a step, and all of them can be written
in a path. -/
def Place.Resolved (place : Place) : Prop :=
  ∀ name ∈ place, (name ≠ "" ∧ '/' ∉ name.toList) ∧ (name ≠ "." ∧ name ≠ "..") ∧
    nullChar ∉ name.toList

namespace Place.Resolved
variable {place : Place} {name : String}

theorem proper (h : place.Resolved) : place.Proper :=
  fun name hname => (h name hname).1

theorem follow (h : place.Resolved) (hslash : '/' ∉ name.toList) (hnull : nullChar ∉ name.toList) :
    (FileSystem.follow place name).Resolved := by
  unfold FileSystem.follow
  split
  next => exact h
  next hstay =>
    split
    next => exact fun n hn => h n (List.dropLast_subset _ hn)
    next hup =>
      intro n hn
      rcases List.mem_append.1 hn with hn | hn
      · exact h n hn
      · rw [List.mem_singleton.1 hn]
        exact ⟨⟨fun heq => hstay (.inl heq), hslash⟩, ⟨fun heq => hstay (.inr heq), hup⟩, hnull⟩

theorem foldl_follow {names : List String} (h : place.Resolved)
    (hnames : ∀ name ∈ names, '/' ∉ name.toList ∧ nullChar ∉ name.toList) :
    Place.Resolved (names.foldl FileSystem.follow place) := by
  induction names generalizing place with
  | nil => exact h
  | cons name rest ih =>
    obtain ⟨hslash, hnull⟩ := hnames name List.mem_cons_self
    exact ih (h.follow hslash hnull) fun n hn => hnames n (List.mem_cons_of_mem _ hn)

/-- A resolved place is followed name by name. -/
theorem foldl_follow_eq (h : place.Resolved) (start : Place) :
    place.foldl FileSystem.follow start = start ++ place := by
  induction place generalizing start with
  | nil => simp
  | cons name rest ih =>
    obtain ⟨⟨hempty, -⟩, ⟨hdot, hup⟩, -⟩ := h name List.mem_cons_self
    have hstep : FileSystem.follow start name = start ++ [name] := by
      simp [FileSystem.follow, hempty, hdot, hup]
    rw [List.foldl_cons, hstep, ih fun n hn => h n (List.mem_cons_of_mem _ hn), List.append_assoc]
    rfl

end Place.Resolved

/-! ### The text of a path -/

theorem toList_intercalate_slash (names : List String) :
    ("/".intercalate names).toList = joinWith '/' (names.map String.toList) := by
  rw [String.toList_intercalate]
  exact intercalate_singleton '/' _

namespace Path
variable {place : Place} {s : String} {c : Char}

theorem toString_ofPlace (place : Place) :
    (ofPlace place).toString.toList = '/' :: ("/".intercalate place).toList := by
  simp [toString, ofPlace, PathRoot.text]

theorem mem_of_mem_pieces {piece : String} (hpiece : piece ∈ pieces s) (h : c ∈ piece.toList) :
    c ∈ s.toList := by
  obtain ⟨p, hp, rfl⟩ := List.mem_map.1 hpiece
  rw [String.toList_ofList] at h
  exact mem_of_mem_splitOn hp h

/-- Reading a path and writing it again adds no character but slashes, and the dot that an empty
path is written with. -/
theorem mem_toString_ofString (h : c ∈ (ofString s).toString.toList) :
    c = '/' ∨ c = '.' ∨ c ∈ s.toList := by
  unfold toString at h
  split at h
  next => exact .inr (.inl (List.mem_singleton.1 h))
  next =>
    rw [String.toList_append] at h
    rcases List.mem_append.1 h with h | h
    · refine .inl ?_
      cases hroot : (ofString s).root <;> simp [hroot, PathRoot.text] at h <;> exact h
    · rw [toList_intercalate_slash] at h
      rcases mem_joinWith h with rfl | ⟨p, hp, hc⟩
      · exact .inl rfl
      · obtain ⟨part, hpart, rfl⟩ := List.mem_map.1 hp
        exact .inr (.inr (mem_of_mem_pieces (List.mem_of_mem_filter hpart) hc))

/-- The pieces of the text of a place are its names, behind the slash in front. -/
theorem pieces_ofPlace (h : place.Proper) :
    pieces (ofPlace place).toString = "" :: if place = [] then [""] else place := by
  have hpieces : pieces (ofPlace place).toString = "" :: pieces ("/".intercalate place) := by
    rw [pieces, toString_ofPlace]
    rfl
  rw [hpieces]
  split
  next hnil =>
    subst hnil
    rfl
  next hne => rw [pieces_intercalate hne h]

theorem foldl_pieces_ofPlace (h : place.Resolved) :
    (pieces (ofPlace place).toString).foldl FileSystem.follow [] = place := by
  have hstay : FileSystem.follow [] "" = [] := rfl
  rw [pieces_ofPlace h.proper, List.foldl_cons, hstay]
  split
  next hnil => rw [hnil, List.foldl_cons, hstay, List.foldl_nil]
  next => rw [h.foldl_follow_eq, List.nil_append]

theorem head?_intercalate (h : place.Proper) : ("/".intercalate place).toList.head? ≠ some '/' := by
  rw [toList_intercalate_slash]
  cases place with
  | nil => simp [joinWith]
  | cons name rest =>
    obtain ⟨hempty, hslash⟩ := h name List.mem_cons_self
    obtain ⟨c, cs, hname⟩ :=
      List.exists_cons_of_ne_nil fun hnil => hempty (String.toList_inj.1 hnil)
    have hc : c ≠ '/' := fun heq => hslash (by simp [hname, heq])
    cases rest <;> simp [joinWith, hname, hc]

/-- The text of a resolved place is read as the path that it was. -/
theorem ofString_toString_ofPlace (h : place.Resolved) :
    ofString (ofPlace place).toString = ofPlace place := by
  have hslashes : ((ofPlace place).toString.toList.takeWhile (· == '/')).length = 1 := by
    have hstop : ∀ c ∈ ("/".intercalate place).toList.head?, (c == '/') = false := by
      rintro c hc
      refine beq_eq_false_iff_ne.2 fun heq => ?_
      exact head?_intercalate h.proper (heq ▸ hc)
    have hrun := run_exact (p := (· == '/')) (w := ['/']) (by simp) hstop
    rw [toString_ofPlace]
    exact congrArg (fun r => r.1.length) hrun
  have hparts : (pieces (ofPlace place).toString).filter (fun p => p ≠ "" ∧ p ≠ ".") = place := by
    have hempty : ∀ names, ("" :: names).filter (fun p => p ≠ "" ∧ p ≠ ".") =
        names.filter fun p => p ≠ "" ∧ p ≠ "." := fun _ => rfl
    rw [pieces_ofPlace h.proper, hempty]
    split
    next hnil => rw [hnil, hempty, List.filter_nil]
    next =>
      refine List.filter_eq_self.2 fun name hname => ?_
      obtain ⟨⟨hempty, -⟩, ⟨hdot, -⟩, -⟩ := h name hname
      simp [hempty, hdot]
  simp only [ofString, hslashes, hparts]
  rfl

end Path

/-! ### Reading a URI -/

namespace Uri
variable {c : Char} {cs : List Char} {place : Place}

theorem unescape_escape (cs : List Char) : unescape (escape cs) = cs := by
  rw [unescape, unescapeOctets_escape, Utf8.decodeLossy, Utf8.decode_encode, List.map_map]
  exact List.map_id cs

/-- What escaped text is made of. -/
def isEscapedChar (c : Char) : Bool :=
  c.isAlphanum || "_.-~/%".toList.contains c

theorem isEscapedChar_of_mem_escape (h : c ∈ escape cs) : isEscapedChar c = true := by
  have hall : ∀ n : Fin 256, (escapeOctet (UInt8.ofNat n.val)).all isEscapedChar = true := by
    decide +kernel
  obtain ⟨b, -, hc⟩ := List.mem_flatMap.1 h
  exact List.all_eq_true.1 (hall ⟨b.toNat, b.toNat_lt⟩) c (by simpa using hc)

/-- None of these characters is left out of a URI or ends one of its parts. -/
theorem isEscapedChar_ne {d : Char} (h : isEscapedChar c = true)
    (hd : d ∈ "\t\r\n?#".toList := by decide) : c ≠ d := by
  have hall : ("\t\r\n?#".toList.all fun d => !isEscapedChar d) = true := by decide +kernel
  rintro rfl
  have hnot := List.all_eq_true.1 hall c hd
  rw [h] at hnot
  cases hnot

theorem toList_ofPlace (place : Place) :
    (ofPlace place).toList =
      "file".toList ++ ':' :: '/' :: '/' :: escape (Path.ofPlace place).toString.toList := by
  simp [ofPlace]

/-- Nothing is left out of the URI of a place. -/
theorem filter_ofPlace (place : Place) :
    ((ofPlace place).toList.dropWhile isLeader).filter
      (fun c => c != '\t' && c != '\r' && c != '\n') = (ofPlace place).toList := by
  have hfront : (ofPlace place).toList.dropWhile isLeader = (ofPlace place).toList := by
    rw [toList_ofPlace]
    rfl
  have hfile : "file".toList.all isEscapedChar = true := by decide
  rw [hfront]
  refine List.filter_eq_self.2 fun c hc => ?_
  have hwritten : isEscapedChar c = true ∨ c = ':' := by
    simp only [toList_ofPlace, List.mem_append, List.mem_cons] at hc
    rcases hc with hc | rfl | rfl | rfl | hc
    · exact .inl (List.all_eq_true.1 hfile c hc)
    · exact .inr rfl
    · exact .inl rfl
    · exact .inl rfl
    · exact .inl (isEscapedChar_of_mem_escape hc)
  rcases hwritten with hc | rfl
  · simp [isEscapedChar_ne hc (d := '\t'), isEscapedChar_ne hc (d := '\r'),
      isEscapedChar_ne hc (d := '\n')]
  · rfl

/-- The URI of a place names its path. -/
theorem toPath?_ofPlace (h : place.Resolved) :
    toPath? (ofPlace place) = .ok (some (Path.ofPlace place)) := by
  obtain ⟨rest, hescaped⟩ : ∃ rest, escape (Path.ofPlace place).toString.toList = '/' :: rest := by
    rw [Path.toString_ofPlace]
    exact ⟨_, rfl⟩
  have hmem : ∀ c ∈ '/' :: rest, isEscapedChar c = true := fun c hc =>
    isEscapedChar_of_mem_escape (hescaped ▸ hc)
  have htext : (ofPlace place).toList = "file".toList ++ ':' :: '/' :: '/' :: '/' :: rest := by
    rw [toList_ofPlace, hescaped]
  have hread := (filter_ofPlace place).trans htext
  have hscheme : scheme? ("file".toList ++ ':' :: '/' :: '/' :: '/' :: rest) =
      some ("file", '/' :: '/' :: '/' :: rest) := by
    have hcolon : ':' ∉ "file".toList := by decide
    have hrun := run_until hcolon ('/' :: '/' :: '/' :: rest)
    obtain ⟨htake, hdrop⟩ := Prod.mk.inj hrun
    rw [scheme?, htake, hdrop]
    rfl
  have hserver : server ('/' :: '/' :: '/' :: rest) = ([], '/' :: rest) := rfl
  have hcheck : checkServer [] = .ok () := rfl
  have hpath : ('/' :: rest).takeWhile (fun c => c != '?' && c != '#') = '/' :: rest := by
    refine List.takeWhile_eq_self_iff.2 fun c hc => ?_
    simp [isEscapedChar_ne (hmem c hc) (d := '?'), isEscapedChar_ne (hmem c hc) (d := '#')]
  have hback : unescape ('/' :: rest) = (Path.ofPlace place).toString.toList := by
    rw [← hescaped, unescape_escape]
  simp only [toPath?, hread, hscheme, Option.map_some, Option.getD_some, hserver, hcheck, hpath,
    hback, true_or, if_true, List.nil_append, String.ofList_toList,
    Path.ofString_toString_ofPlace h]
  rfl

end Uri

/-! ### There and back -/

namespace FileSystem
variable {fs : FileSystem} {path : Path} {place : Place} {s uri : String}

theorem resolve_of_notMem (h : nullChar ∉ path.toString.toList) :
    fs.resolve path = .ok ((Path.pieces path.toString).foldl follow
      (if path.root = .relative then fs.here else [])) := by
  have hnull : ¬ path.toString.toList.contains (Char.ofNat 0) = true :=
    fun hmem => h (List.contains_iff_mem.1 hmem)
  simp only [resolve]
  rw [if_neg hnull]

/-- Without the null character in its text a path resolves. -/
theorem exists_resolve (hhere : fs.here.Resolved) (h : nullChar ∉ path.toString.toList) :
    ∃ place, fs.resolve path = .ok place ∧ place.Resolved := by
  have hstart : Place.Resolved (if path.root = .relative then fs.here else []) := by
    split
    · exact hhere
    · exact nofun
  refine ⟨_, resolve_of_notMem h, hstart.foldl_follow fun name hname => ?_⟩
  exact ⟨Path.pieces_slash hname, fun hnull => h (Path.mem_of_mem_pieces hname hnull)⟩

theorem resolve_ofPlace (h : place.Resolved) : fs.resolve (Path.ofPlace place) = .ok place := by
  have hnull : nullChar ∉ (Path.ofPlace place).toString.toList := by
    rw [Path.toString_ofPlace, toList_intercalate_slash]
    intro hmem
    rcases List.mem_cons.1 hmem with heq | hmem
    · cases heq
    · rcases mem_joinWith hmem with heq | ⟨p, hp, hc⟩
      · cases heq
      · obtain ⟨name, hname, rfl⟩ := List.mem_map.1 hp
        exact (h name hname).2.2 hc
  rw [resolve_of_notMem hnull]
  exact congrArg Except.ok (Path.foldl_pieces_ofPlace h)

theorem uriOf_eq_ok : fs.uriOf path = .ok uri ↔
    ∃ place, fs.resolve path = .ok place ∧ Uri.ofPlace place = uri := by
  unfold uriOf
  rw [bind_eq_ok]
  simp [pure, Except.pure]

/-- Every path has a URI. It names the place that the path resolves to, it is the URI of that place,
and no path that resolves to another place has it. -/
theorem uriOf_roundTrip (hhere : fs.here.Resolved) (hs : nullChar ∉ s.toList) :
    ∃ place uri, fs.resolve (.ofString s) = .ok place ∧ place.Resolved ∧
      fs.uriOf (.ofString s) = .ok uri ∧
      Uri.toPath? uri = .ok (some (Path.ofPlace place)) ∧
      fs.uriOf (Path.ofPlace place) = .ok uri ∧
      ∀ t : String, nullChar ∉ t.toList →
        (fs.uriOf (.ofString t) = .ok uri ↔ fs.resolve (.ofString t) = .ok place) := by
  have hresolves : ∀ t : String, nullChar ∉ t.toList →
      ∃ place, fs.resolve (.ofString t) = .ok place ∧ place.Resolved := by
    intro t ht
    refine exists_resolve hhere fun hmem => ?_
    rcases Path.mem_toString_ofString hmem with heq | heq | hmem
    · cases heq
    · cases heq
    · exact ht hmem
  obtain ⟨place, hplace, hresolved⟩ := hresolves s hs
  refine ⟨place, Uri.ofPlace place, hplace, hresolved, uriOf_eq_ok.2 ⟨place, hplace, rfl⟩,
    Uri.toPath?_ofPlace hresolved, uriOf_eq_ok.2 ⟨place, resolve_ofPlace hresolved, rfl⟩, ?_⟩
  intro t ht
  constructor
  · intro huri
    obtain ⟨place', hplace', huri⟩ := uriOf_eq_ok.1 huri
    obtain ⟨place'', hplace'', hresolved'⟩ := hresolves t ht
    cases hplace'.symm.trans hplace''
    rw [hplace', Uri.ofPlace_inj hresolved'.proper hresolved.proper huri]
  · intro hplace'
    exact uriOf_eq_ok.2 ⟨place, hplace', rfl⟩

/-- Two slashes in front, steps, and characters that divide a URI or are no ASCII. -/
theorem uriOf_roundTrip_divided :
    let fs : FileSystem := { here := ["ws"] }
    let s := "//tmp/./a b//../ü?#;%41\n"
    fs.here.Resolved ∧ nullChar ∉ s.toList ∧
      fs.uriOf (.ofString s) = .ok "file:///tmp/%C3%BC%3F%23%3B%2541%0A" ∧
      Uri.toPath? "file:///tmp/%C3%BC%3F%23%3B%2541%0A" =
        .ok (some ⟨.single, ["tmp", "ü?#;%41\n"]⟩) := by
  intro fs s
  have hhere : fs.here.Resolved := by simp [fs, Place.Resolved, nullChar]
  have hs : nullChar ∉ s.toList := by decide +kernel
  have hresolve : fs.resolve (.ofString s) = .ok ["tmp", "ü?#;%41\n"] := by decide +kernel
  have hwritten : fs.uriOf (.ofString s) = .ok "file:///tmp/%C3%BC%3F%23%3B%2541%0A" := by
    decide +kernel
  obtain ⟨place, uri, hplace, -, huri, hback, -⟩ := uriOf_roundTrip hhere hs
  cases hplace.symm.trans hresolve
  cases huri.symm.trans hwritten
  exact ⟨hhere, hs, hwritten, hback⟩

end FileSystem

end BurnLens
