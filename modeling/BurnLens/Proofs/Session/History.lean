import Mathlib.Data.List.Induction
import BurnLens.Proofs.Session.Pass

/-!
# Histories of a session

An editor tells a session about its documents in events. A history is a list of events, oldest
first; `held uri history` is the document that is open under a URI after it: the one that came last,
unless it was closed since. Handled one after another, each to its end, the events of a history make
a sequential run (`Session.play`).
-/

namespace BurnLens

/-- What a session is told. A document that is opened and one that is changed come alike: as a new
version of a text, on the host as it is by then. -/
inductive Event where
  | update (h : Host) (d : Document)
  | close (uri : String)
  | reconfigure (h : Host) (path : Option String)
  | shutDown

namespace Event

def host? : Event → Option Host
  | .update h _ => some h
  | .reconfigure h _ => some h
  | _ => none

def document? : Event → Option Document
  | .update _ d => some d
  | _ => none

/-- The document open under a URI after an event, given the one before it. -/
def after (uri : String) (before : Option Document) : Event → Option Document
  | .update _ d => if d.uri = uri then some d else before
  | .close closed => if closed = uri then none else before
  | .reconfigure _ _ => before
  | .shutDown => none

def collect (uri : String) (docs : List Document) : Event → List Document
  | .update _ d => if d.uri = uri then docs ++ [d] else docs
  | .close closed => if closed = uri then [] else docs
  | .reconfigure _ _ => docs
  | .shutDown => []

def IsUpdate : Event → Prop
  | .update _ _ => True
  | _ => False

/-- The event is about one document: it comes in a new version or is closed. -/
def IsEdit : Event → Prop
  | .update _ _ | .close _ => True
  | _ => False

theorem IsUpdate.isEdit {e : Event} (he : e.IsUpdate) : e.IsEdit := by
  cases e with
  | update h d => trivial
  | _ => exact he.elim

end Event

/-- The document that is open under a URI after a history. -/
def held (uri : String) (events : List Event) : Option Document :=
  events.foldl (fun before e => e.after uri before) none

/-- The documents that came under a URI since it was closed last. -/
def since (uri : String) (events : List Event) : List Document :=
  events.foldl (fun docs e => e.collect uri docs) []

def received (events : List Event) : List Document :=
  events.filterMap Event.document?

/-- The hosts, one for each event that needs one. -/
def hosts (events : List Event) : List Host :=
  events.filterMap Event.host?

/-- While a document is open, each version of it is newer than the one before. -/
def VersionsIncrease (events : List Event) : Prop :=
  ∀ before h d after, events = before ++ .update h d :: after →
    ∀ d', held d.uri before = some d' → d'.version < d.version

theorem held_nil (uri : String) : held uri [] = none := rfl

theorem held_concat (uri : String) (events : List Event) (e : Event) :
    held uri (events ++ [e]) = e.after uri (held uri events) := by
  simp [held]

theorem since_concat (uri : String) (events : List Event) (e : Event) :
    since uri (events ++ [e]) = e.collect uri (since uri events) := by
  simp [since]

theorem received_concat (events : List Event) (e : Event) :
    received (events ++ [e]) = received events ++ e.document?.toList := by
  cases h : e.document? <;> simp [received, h]

theorem hosts_concat (events : List Event) (e : Event) :
    hosts (events ++ [e]) = hosts events ++ e.host?.toList := by
  cases h : e.host? <;> simp [hosts, h]

theorem VersionsIncrease.take {events later : List Event}
    (hv : VersionsIncrease (events ++ later)) : VersionsIncrease events := by
  intro before h d after heq
  exact hv before h d (after ++ later) (by simp [heq])

theorem VersionsIncrease.init {events : List Event} {e : Event}
    (hv : VersionsIncrease (events ++ [e])) : VersionsIncrease events :=
  hv.take

theorem VersionsIncrease.last {events : List Event} {h : Host} {d d' : Document}
    (hv : VersionsIncrease (events ++ [.update h d])) (hd : held d.uri events = some d') :
    d'.version < d.version :=
  hv events h d [] rfl d' hd

/-- The document that is open is the one that came last. -/
theorem held_eq_getLast? (u : String) (events : List Event) :
    held u events = (since u events).getLast? := by
  induction events using List.reverseRecOn with
  | nil => rfl
  | append_singleton events e ih =>
    rw [held_concat, since_concat, ih]
    cases e with
    | update h d =>
      simp only [Event.after, Event.collect]
      split <;> simp
    | close closed =>
      simp only [Event.after, Event.collect]
      split <;> rfl
    | reconfigure h path => rfl
    | shutDown => rfl

theorem mem_of_mem_since {u : String} {events : List Event} {p : Document}
    (hp : p ∈ since u events) : p.uri = u ∧ p ∈ received events := by
  induction events using List.reverseRecOn with
  | nil => cases hp
  | append_singleton events e ih =>
    rw [since_concat] at hp
    rw [received_concat]
    have hold : p ∈ since u events → p.uri = u ∧ p ∈ received events ++ e.document?.toList :=
      fun hp => ⟨(ih hp).1, List.mem_append_left _ (ih hp).2⟩
    cases e with
    | update h d =>
      simp only [Event.collect] at hp
      split at hp
      · rename_i hu
        rcases List.mem_append.1 hp with hp | hp
        · exact hold hp
        · have hpd : p = d := List.mem_singleton.1 hp
          exact ⟨hpd ▸ hu, by simp [hpd, Event.document?]⟩
      · exact hold hp
    | close closed =>
      simp only [Event.collect] at hp
      split at hp
      · cases hp
      · exact hold hp
    | reconfigure h path => exact hold hp
    | shutDown => cases hp

theorem held_mem {u : String} {events : List Event} {d : Document}
    (hd : held u events = some d) : d.uri = u ∧ d ∈ received events := by
  rw [held_eq_getLast?] at hd
  exact mem_of_mem_since (List.mem_of_getLast? hd)

/-- Since it was closed last, a document is open in the newest version that came. -/
theorem VersionsIncrease.since {u : String} {events : List Event} {p : Document}
    (hv : VersionsIncrease events) (hp : p ∈ since u events) :
    ∃ d, held u events = some d ∧ (p = d ∨ p.version < d.version) := by
  induction events using List.reverseRecOn with
  | nil => cases hp
  | append_singleton events e ih =>
    rw [since_concat] at hp
    rw [held_concat]
    cases e with
    | update h d =>
      simp only [Event.collect] at hp
      simp only [Event.after]
      split at hp
      · rename_i hu
        rw [if_pos hu]
        refine ⟨d, rfl, ?_⟩
        rcases List.mem_append.1 hp with hold | hnew
        · obtain ⟨d', hd', hle⟩ := ih hv.init hold
          have hlt : d'.version < d.version := hv.last (hu ▸ hd')
          rcases hle with rfl | hlt'
          · exact .inr hlt
          · exact .inr (Int.lt_trans hlt' hlt)
        · exact .inl (List.mem_singleton.1 hnew)
      · rename_i hu
        rw [if_neg hu]
        exact ih hv.init hp
    | close closed =>
      simp only [Event.collect] at hp
      simp only [Event.after]
      split at hp
      · cases hp
      · rename_i hu
        rw [if_neg hu]
        exact ih hv.init hp
    | reconfigure h path => exact ih hv.init hp
    | shutDown => cases hp

/-- Where nothing is closed, everything that came has come since. -/
theorem mem_since {events : List Event} {p : Document} (hup : ∀ e ∈ events, e.IsUpdate)
    (hp : p ∈ received events) : p ∈ since p.uri events := by
  induction events using List.reverseRecOn with
  | nil => cases hp
  | append_singleton events e ih =>
    have hlast := hup e (by simp)
    rw [received_concat] at hp
    rw [since_concat]
    replace ih := ih fun e' he' => hup e' (by simp [he'])
    cases e with
    | update h d =>
      simp only [Event.collect]
      rcases List.mem_append.1 hp with hold | hnew
      · split
        · exact List.mem_append_left _ (ih hold)
        · exact ih hold
      · have hpd : p = d := by simpa [Event.document?] using hnew
        simp [hpd]
    | _ => exact hlast.elim

theorem versionsIncrease_iff {events : List Event} :
    VersionsIncrease events ↔ ∀ i (hi : i < events.length), ∀ d ∈ events[i].document?,
      ∀ d' ∈ held d.uri (events.take i), d'.version < d.version := by
  constructor
  · intro hv i hi d hd d' hd'
    cases he : events[i] with
    | update h d₁ =>
      rw [he] at hd
      cases hd
      refine hv (events.take i) h d (events.drop (i + 1)) ?_ d' hd'
      rw [← he, List.getElem_cons_drop, List.take_append_drop]
    | _ => rw [he] at hd; cases hd
  · rintro hv before h d after rfl d' hd'
    refine hv before.length (by simp) d ?_ d' ?_
    · simp [Event.document?]
    · simpa using hd'

instance (events : List Event) : Decidable (VersionsIncrease events) :=
  decidable_of_iff _ versionsIncrease_iff.symm

namespace Session

/-! ### Sequential runs -/

/-- Switches the compiler where a path is given, and drops all cached findings. -/
def switched (s : Session) (path : Option String) : Session :=
  let checker := match path with
    | none => s.pipeline.checker
    | some path => some (.compiler (s.settings.compiler path))
  { s with pipeline := { s.pipeline with checker, cache := s.pipeline.cache.clear } }

theorem reconfigure_eq (s : Session) (h : Host) (path : Option String) :
    s.reconfigure h path = updateAll h s.documents.values (s.switched path) := rfl

theorem SameSetup.switched (s : Session) (path : Option String) :
    SameSetup s (s.switched path) := ⟨rfl, rfl, rfl, rfl⟩

/-- The checkers that are in charge at some time of a history. -/
def employed (s : Session) (events : List Event) : List Checker :=
  s.pipeline.checker.toList ++ events.filterMap fun
    | .reconfigure _ (some path) => some (.compiler (s.settings.compiler path))
    | _ => none

theorem employed_concat (s : Session) (events : List Event) (e : Event) :
    ∀ checker ∈ s.employed events, checker ∈ s.employed (events ++ [e]) := by
  intro checker hmem
  rw [employed, List.filterMap_append, ← List.append_assoc]
  exact List.mem_append_left _ hmem

/-- On the hosts of a history, every checker employed in it gives the answers of `g` whenever it
answers. -/
def ConsistentBy (s : Session) (events : List Event) (g : Checker → Answers) : Prop :=
  ∀ h ∈ hosts events, ∀ checker ∈ s.employed events, ∀ text uri ds,
    s.pipeline.reply h checker text uri = .ok ds → ds = g checker text uri

theorem ConsistentBy.init {s : Session} {events : List Event} {e : Event} {g : Checker → Answers}
    (hg : s.ConsistentBy (events ++ [e]) g) : s.ConsistentBy events g := by
  intro h hh checker hmem
  refine hg h ?_ checker (s.employed_concat events e checker hmem)
  rw [hosts_concat]
  exact List.mem_append_left _ hh

theorem ConsistentBy.repliesBy {s s' : Session} {events : List Event} {g : Checker → Answers}
    (hg : s.ConsistentBy events g) (hsame : SameSetup s s')
    (hmem : ∀ checker, s'.pipeline.checker = some checker → checker ∈ s.employed events) :
    s'.RepliesBy (hosts events) g := by
  intro h hh checker hchecker text uri ds hreply
  rw [Pipeline.reply_congr hsame.answer] at hreply
  exact hg h hh checker (hmem checker hchecker) text uri ds hreply

def handle (s : Session) : Event → Session × Except PassFault Unit
  | .update h d => ((s.update h d).1, (s.update h d).2.map fun _ => ())
  | .close uri => (s.closeDocument uri, .ok ())
  | .reconfigure h path => s.reconfigure h path
  | .shutDown => (s.shutDown, .ok ())

/-- Handles events one after another, up to the first that fails. -/
def play (s : Session) : List Event → Except PassFault Session
  | [] => .ok s
  | e :: rest =>
    match s.handle e with
    | (_, .error fault) => .error fault
    | (s, .ok ()) => s.play rest

theorem play_concat {s s' : Session} {events : List Event} {e : Event}
    (h : s.play (events ++ [e]) = .ok s') :
    ∃ s₁, s.play events = .ok s₁ ∧ s₁.handle e = (s', .ok ()) := by
  induction events generalizing s with
  | nil =>
    refine ⟨s, rfl, ?_⟩
    rw [List.nil_append, play] at h
    split at h
    · cases h
    · rename_i s₁ heq
      rw [heq]
      cases h
      rfl
  | cons first rest ih =>
    rw [List.cons_append, play] at h
    split at h
    · cases h
    · rename_i s₁ heq
      obtain ⟨s₂, hplay, hlast⟩ := ih h
      exact ⟨s₂, by rw [play, heq]; exact hplay, hlast⟩

/-! ### New sessions -/

/-- A session that has not been told anything. -/
structure Fresh (settings : Settings) (s : Session) : Prop where
  settings : s.settings = settings
  listener : s.hasListener = true
  documents : s.documents = .empty
  entries : s.pipeline.cache.entries = []
  usable : 0 ≤ s.pipeline.cache.capacity
  published : s.published = []

theorem create_fresh {h : Host} {settings : Settings} {root : Option Path}
    {standIn : Option StandIn} {s : Session} (hs : create h settings root standIn true = .ok s) :
    Fresh settings s := by
  unfold create at hs
  cases hix : Index.create h.fs root settings.layout with
  | error fault =>
    rw [hix] at hs
    cases hs
  | ok index =>
    rw [hix] at hs
    cases hs
    exact ⟨rfl, rfl, rfl, rfl, Int.natCast_nonneg _, rfl⟩

end Session

end BurnLens
