import BurnLens.Proofs.Session.History
import BurnLens.Proofs.Transparency

/-!
# Overlapping passes

A `Workbench` is a session together with the passes that wait for their checker. Its steps are the
events of the editor, which start passes, and the ends of waiting passes, which come in any order.
A pass that validates several documents one after another carries the rest with it.

In runs of edits the checker stays and every pass is about one document. `Sound` ties such a
workbench to its history, and `Moves` lists what a step can do to the waiting passes, the failures
and the log; `Sound.step` proves both of every step, and `run_sound` and `run_moves` carry them
through a run. All statements about overlapping edits go through these two.
-/

namespace BurnLens

/-- A pass that waits, and the documents that are validated after it. -/
structure Task where
  pass : Pass
  rest : List Document := []

/-- The task is the pass over one of `docs`, which has come to its checker. -/
structure Task.Over (docs : List Document) (p : Pipeline) (task : Task) : Prop where
  rest : task.rest = []
  document : task.pass.document ∈ docs
  found : task.pass.found = task.pass.document.report
  pending : p.pending task.pass.document.report = some task.pass.checker

/-- A session and its passes under way. -/
structure Workbench where
  session : Session
  /-- The task that waits longest comes first. -/
  waiting : List Task := []
  /-- The passes that failed, with what they were about. -/
  failed : List (Document × PassFault) := []

/-- A step of a workbench: an event comes, or the pass of the task at a place ends. -/
inductive Step where
  | tell (e : Event)
  | finish (h : Host) (place : Nat)

namespace Step

def event? : Step → Option Event
  | .tell e => some e
  | .finish _ _ => none

def host? : Step → Option Host
  | .tell e => e.host?
  | .finish h _ => some h

end Step

def told (steps : List Step) : List Event :=
  steps.filterMap Step.event?

def stepHosts (steps : List Step) : List Host :=
  steps.filterMap Step.host?

theorem told_append_cons (before after : List Step) (st : Step) :
    told (before ++ st :: after) = told before ++ st.event?.toList ++ told after := by
  cases h : st.event? <;> simp [told, h]

theorem told_concat (steps : List Step) (st : Step) :
    told (steps ++ [st]) = told steps ++ st.event?.toList := by
  rw [told_append_cons]
  exact List.append_nil _

namespace Workbench

/-- Validates documents one after another until one has to wait or fails. -/
def advance (w : Workbench) (h : Host) : List Document → Workbench
  | [] => w
  | d :: rest =>
    match w.session.start h d with
    | (session, .error fault) => { w with session, failed := w.failed ++ [(d, fault)] }
    | (session, .ok (.settled _)) => advance { w with session } h rest
    | (session, .ok (.waiting pass)) => { w with session, waiting := w.waiting ++ [⟨pass, rest⟩] }

def tell (w : Workbench) : Event → Workbench
  | .update h d => w.advance h [d]
  | .close uri => { w with session := w.session.closeDocument uri }
  | .reconfigure h path =>
    { w with session := w.session.switched path }.advance h w.session.documents.values
  | .shutDown => { w with session := w.session.shutDown }

/-- Ends the pass of a task and goes on with the rest of it. -/
def finish (w : Workbench) (h : Host) (place : Nat) : Workbench :=
  match w.waiting[place]? with
  | none => w
  | some task =>
    let waiting := w.waiting.eraseIdx place
    match w.session.finish h task.pass with
    | (session, .error fault) =>
      { session, waiting, failed := w.failed ++ [(task.pass.document, fault)] }
    | (session, .ok _) => { w with session, waiting }.advance h task.rest

def step (w : Workbench) : Step → Workbench
  | .tell e => w.tell e
  | .finish h place => w.finish h place

def run (w : Workbench) (steps : List Step) : Workbench :=
  steps.foldl step w

theorem run_concat (w : Workbench) (steps : List Step) (st : Step) :
    w.run (steps ++ [st]) = (w.run steps).step st := by
  simp [run]

/-- The cache answers for the version of `d` with what was found in `p`. -/
def Recalls (w : Workbench) (g : Checker → Answers) (d p : Document) : Prop :=
  ∃ e, w.session.pipeline.cache.find? d.uri = some e ∧ e.version = d.version ∧
    p.uri = d.uri ∧ p.version = d.version ∧
    e.diagnostics = p.findings (w.session.pipeline.answers g)

def Replies (w : Workbench) (h : Host) (pass : Pass) : Prop :=
  ∃ ds, w.session.pipeline.reply h pass.checker pass.document.text pass.document.uri = .ok ds

/-- The three parts of a workbench that a step extends or takes from. -/
structure Leaves (waiting : List Task) (failed : List (Document × PassFault))
    (published : List Publication) (w : Workbench) : Prop where
  waiting : w.waiting = waiting
  failed : w.failed = failed
  published : w.session.published = published

/-- Everything that a step can do to the passes and the log. -/
inductive Moves (notice : Document → Publication) (g : Checker → Answers) (events : List Event)
    (w w' : Workbench) : Step → Prop where
  | rejects (h : Host) (d : Document) (fault : PassFault) (hmiss : w.session.pipeline.Misses d)
      (hw : w'.Leaves w.waiting (w.failed ++ [(d, fault)]) w.session.published) :
      Moves notice g events w w' (.tell (.update h d))
  | waits (h : Host) (task : Task) (hmiss : w.session.pipeline.Misses task.pass.document)
      (hw : w'.Leaves (w.waiting ++ [task]) w.failed w.session.published) :
      Moves notice g events w w' (.tell (.update h task.pass.document))
  | settles (h : Host) (d : Document) (hmiss : w.session.pipeline.Misses d)
      (hw : w'.Leaves w.waiting w.failed (w.session.published ++ [notice d])) :
      Moves notice g events w w' (.tell (.update h d))
  | recalls (h : Host) (d p : Document) (hp : p ∈ received events) (hrecalls : w.Recalls g d p)
      (hw : w'.Leaves w.waiting w.failed (w.session.published ++ [notice p])) :
      Moves notice g events w w' (.tell (.update h d))
  | closes (uri : String)
      (hw : w'.Leaves w.waiting w.failed (w.session.published ++ [⟨uri, none, []⟩])) :
      Moves notice g events w w' (.tell (.close uri))
  | idles (h : Host) (place : Nat) (hnone : w.waiting[place]? = none)
      (hw : w'.Leaves w.waiting w.failed w.session.published) :
      Moves notice g events w w' (.finish h place)
  | fails (h : Host) (place : Nat) (task : Task) (fault : PassFault)
      (htask : w.waiting[place]? = some task) (hreply : ¬ w.Replies h task.pass)
      (hw : w'.Leaves (w.waiting.eraseIdx place) (w.failed ++ [(task.pass.document, fault)])
        w.session.published) :
      Moves notice g events w w' (.finish h place)
  | drops (h : Host) (place : Nat) (task : Task) (htask : w.waiting[place]? = some task)
      (hreply : w.Replies h task.pass)
      (hold : ∀ d, held task.pass.document.uri events = some d →
        d.version ≠ task.pass.document.version)
      (hw : w'.Leaves (w.waiting.eraseIdx place) w.failed w.session.published) :
      Moves notice g events w w' (.finish h place)
  | lands (h : Host) (place : Nat) (task : Task) (d : Document)
      (htask : w.waiting[place]? = some task) (hreply : w.Replies h task.pass)
      (hd : held task.pass.document.uri events = some d)
      (hversion : d.version = task.pass.document.version)
      (hw : w'.Leaves (w.waiting.eraseIdx place) w.failed
        (w.session.published ++ [notice task.pass.document])) :
      Moves notice g events w w' (.finish h place)

variable {s₀ : Session} {g : Checker → Answers} {events : List Event} {w w' : Workbench}

/-- A workbench whose checker was never switched, as its history leaves it: the documents are those
held, every pass that waits and every cached entry is about a document that came. -/
structure Sound (s₀ : Session) (g : Checker → Answers) (events : List Event) (w : Workbench) :
    Prop where
  same : Session.SameSetup s₀ w.session
  checker : w.session.pipeline.checker = s₀.pipeline.checker
  documents : ∀ u, w.session.documents.get? u = held u events
  waiting : ∀ task ∈ w.waiting, task.Over (received events) s₀.pipeline
  cached : w.session.pipeline.cache.Holds (received events) (s₀.pipeline.answers g)

namespace Sound
variable {h : Host} {d : Document}

theorem answers (hi : Sound s₀ g events w) :
    w.session.pipeline.answers g = s₀.pipeline.answers g :=
  Pipeline.answers_congr hi.checker g

theorem room (hi : Sound s₀ g events w) (hu : 0 ≤ s₀.pipeline.cache.capacity) :
    0 ≤ w.session.pipeline.cache.capacity :=
  hi.same.capacity ▸ hu

theorem published_announce {s : Session} (hi : Sound s₀ g events w) (hl : s₀.hasListener = true)
    (hs : Session.SameSetup w.session s) {p : Document} (huri : p.uri = d.uri)
    (hversion : p.version = d.version) :
    (s.announce d (p.findings (s₀.pipeline.answers g))).published =
      s.published ++ [s₀.notice g p] := by
  have hsame := hi.same.trans hs
  rw [Session.published_announce (hsame.listener.trans hl), Session.notice, huri, hversion,
    hsame.settings]

theorem takes {s : Session} {waiting : List Task} {failed : List (Document × PassFault)}
    (hi : Sound s₀ g events w) (hsame : Session.SameSetup w.session s)
    (hchecker : s.pipeline.checker = w.session.pipeline.checker)
    (hdocuments : s.documents = w.session.documents.put d.uri d)
    (hwaiting : ∀ task ∈ waiting, task ∈ w.waiting ∨ task.Over [d] s₀.pipeline)
    (hcached : s.pipeline.cache.Holds (received events ++ [d]) (s₀.pipeline.answers g)) :
    Sound s₀ g (events ++ [.update h d]) ⟨s, waiting, failed⟩ := by
  have hreceived : received (events ++ [.update h d]) = received events ++ [d] :=
    received_concat ..
  refine ⟨hi.same.trans hsame, hchecker.trans hi.checker, fun u => ?_, fun task htask => ?_, ?_⟩
  · rw [hdocuments, OrderedMap.get?_put, held_concat, hi.documents]
    rfl
  · rw [hreceived]
    rcases hwaiting task htask with hold | hnew
    · have hover := hi.waiting task hold
      exact { hover with document := List.mem_append_left _ hover.document }
    · exact { hnew with document := List.mem_append_right _ hnew.document }
  · rw [hreceived]
    exact hcached

theorem update (hi : Sound s₀ g events w) (hu : 0 ≤ s₀.pipeline.cache.capacity)
    (hl : s₀.hasListener = true) (h : Host) (d : Document) :
    Moves (s₀.notice g) g events w (w.tell (.update h d)) (.tell (.update h d)) ∧
      Sound s₀ g (events ++ [.update h d]) (w.tell (.update h d)) := by
  have hsame := Session.SameSetup.start (hi.room hu) h d
  have hholds : w.session.pipeline.cache.Holds (received events ++ [d])
      (s₀.pipeline.answers g) := hi.cached.mono fun p hp => List.mem_append_left _ hp
  cases Session.start_case (hi.room hu) h d with
  | hit e hentry hversion heq =>
    have he := Cache.find?_mem hentry
    obtain ⟨p, hp, huri, hver, hfound⟩ := hi.cached e he
    rw [Cache.find?_uri hentry] at huri
    have hver' := hver.trans hversion
    have htell : w.tell (.update h d) = { w with session := (w.session.start h d).1 } := by
      simp [tell, advance, heq]
    rw [htell]
    rw [heq] at hsame ⊢
    refine ⟨.recalls h d p hp ⟨e, hentry, hversion, huri, hver', ?_⟩ ⟨rfl, rfl, ?_⟩,
      hi.takes hsame (by simp) (by simp) (fun _ => .inl) ?_⟩
    · rw [hfound, hi.answers]
    · rw [hfound]
      exact hi.published_announce hl (.trans (.refl _) (by constructor <;> rfl)) huri hver'
    · simpa using hholds.touch he
  | fault fault hmiss _ heq =>
    have htell : w.tell (.update h d) = { w with
        session := (w.session.start h d).1, failed := w.failed ++ [(d, .index fault)] } := by
      simp [tell, advance, heq]
    rw [htell]
    rw [heq] at hsame ⊢
    exact ⟨.rejects h d (.index fault) hmiss ⟨rfl, rfl, by simp⟩,
      hi.takes hsame (by simp) (by simp) (fun _ => .inl) (by simpa using hholds)⟩
  | settled _ hmiss _ hpending heq =>
    have hfound := Pipeline.findings_of_settled g hpending
    rw [hi.answers] at hfound
    have htell : w.tell (.update h d) = { w with session := (w.session.start h d).1 } := by
      simp [tell, advance, heq]
    rw [htell]
    rw [heq, hfound] at hsame ⊢
    refine ⟨.settles h d hmiss ⟨rfl, rfl, ?_⟩,
      hi.takes hsame (by simp) (by simp) (fun _ => .inl) ?_⟩
    · exact hi.published_announce hl (by constructor <;> simp) rfl rfl
    · simpa using hholds.put (by simp)
  | waiting _ checker hmiss _ hpending heq =>
    have htell : w.tell (.update h d) = { w with
        session := (w.session.start h d).1
        waiting := w.waiting ++ [⟨⟨d, d.report, checker⟩, []⟩] } := by
      simp [tell, advance, heq]
    rw [htell]
    rw [heq] at hsame ⊢
    have hover : Task.Over [d] s₀.pipeline ⟨⟨d, d.report, checker⟩, []⟩ := by
      refine ⟨rfl, List.mem_singleton.2 rfl, by dsimp only, ?_⟩
      rw [← hpending, Pipeline.pending, Pipeline.pending, hi.checker]
    refine ⟨?_, hi.takes hsame (by simp) (by simp) (fun task htask => ?_) (by simpa using hholds)⟩
    · exact .waits h ⟨⟨d, d.report, checker⟩, []⟩ hmiss ⟨rfl, rfl, by simp⟩
    rcases List.mem_append.1 htask with hold | hnew
    · exact .inl hold
    · rw [List.mem_singleton.1 hnew]
      exact .inr hover

theorem close (hi : Sound s₀ g events w) (hl : s₀.hasListener = true) (uri : String) :
    Moves (s₀.notice g) g events w (w.tell (.close uri)) (.tell (.close uri)) ∧
      Sound s₀ g (events ++ [.close uri]) (w.tell (.close uri)) := by
  have hreceived : received (events ++ [.close uri]) = received events := by
    simp [received_concat, Event.document?]
  refine ⟨.closes uri ⟨rfl, rfl, ?_⟩, ?_⟩
  · exact Session.published_closeDocument (hi.same.listener.trans hl) uri
  · refine ⟨hi.same.trans (.closeDocument _ uri), ?_, fun u => ?_, ?_, ?_⟩
    · exact (Session.checker_closeDocument _ uri).trans hi.checker
    · rw [tell, Session.documents_closeDocument, OrderedMap.get?_erase, held_concat, hi.documents]
      rfl
    · rw [hreceived]
      exact hi.waiting
    · rw [hreceived, tell, Session.cache_closeDocument]
      exact hi.cached.invalidate uri

theorem ends {s : Session} {place : Nat} {failed : List (Document × PassFault)}
    (hi : Sound s₀ g events w) (hsame : Session.SameSetup w.session s)
    (hchecker : s.pipeline.checker = w.session.pipeline.checker)
    (hdocuments : s.documents = w.session.documents)
    (hcached : s.pipeline.cache.Holds (received events) (s₀.pipeline.answers g)) :
    Sound s₀ g events ⟨s, w.waiting.eraseIdx place, failed⟩ where
  same := hi.same.trans hsame
  checker := hchecker.trans hi.checker
  documents u := by rw [hdocuments]; exact hi.documents u
  waiting task htask := hi.waiting task (List.mem_of_mem_eraseIdx htask)
  cached := hcached

/-- A pass whose checker answers by `g` ends with the findings of its document. -/
theorem found {hosts : List Host} {task : Task} {ds : List Diagnostic} (hi : Sound s₀ g events w)
    (hg : s₀.RepliesBy hosts g) (hh : h ∈ hosts) (htask : task ∈ w.waiting)
    (hreply : w.session.pipeline.reply h task.pass.checker task.pass.document.text
      task.pass.document.uri = .ok ds) :
    (task.pass.found.withCompiler ds).diagnostics =
      task.pass.document.findings (s₀.pipeline.answers g) := by
  have hover := hi.waiting task htask
  rw [Pipeline.reply_congr hi.same.answer] at hreply
  rw [hg h hh _ (Pipeline.pending_eq_some hover.pending).2 _ _ ds hreply, hover.found]
  exact Pipeline.findings_of_waited hover.pending

theorem finish_of_ok {task : Task} {place : Nat} {ds : List Diagnostic}
    (hi : Sound s₀ g events w) (htask : w.waiting[place]? = some task)
    (hok : (w.session.finish h task.pass).2 = .ok ds) :
    w.finish h place =
      ⟨(w.session.finish h task.pass).1, w.waiting.eraseIdx place, w.failed⟩ := by
  simp only [Workbench.finish, htask]
  split <;> rename_i heq <;> rw [heq] at hok
  · cases hok
  · rw [heq, (hi.waiting task (List.mem_of_getElem? htask)).rest]
    rfl

theorem finish {hosts : List Host} (hi : Sound s₀ g events w)
    (hu : 0 ≤ s₀.pipeline.cache.capacity) (hl : s₀.hasListener = true)
    (hg : s₀.RepliesBy hosts g) (hh : h ∈ hosts) (place : Nat) :
    Moves (s₀.notice g) g events w (w.finish h place) (.finish h place) ∧
      Sound s₀ g events (w.finish h place) := by
  cases htask : w.waiting[place]? with
  | none =>
    have hfinish : w.finish h place = w := by simp [Workbench.finish, htask]
    rw [hfinish]
    exact ⟨.idles h place htask ⟨rfl, rfl, rfl⟩, hi⟩
  | some task =>
    have hmem : task ∈ w.waiting := List.mem_of_getElem? htask
    have hsame := Session.SameSetup.finish (hi.room hu) h task.pass
    have hput := hi.cached.put (hi.waiting task hmem).document
    cases Session.finish_case (hi.room hu) h task.pass with
    | fault fault hreply heq =>
      have hfinish : w.finish h place = ⟨(w.session.finish h task.pass).1,
          w.waiting.eraseIdx place, w.failed ++ [(task.pass.document, .check fault)]⟩ := by
        simp [Workbench.finish, htask, heq]
      rw [hfinish]
      rw [heq] at hsame ⊢
      refine ⟨.fails h place task (.check fault) htask ?_ ⟨rfl, rfl, by simp⟩,
        hi.ends hsame (by simp) (by simp) ?_⟩
      · rintro ⟨ds, hok⟩
        rw [hreply] at hok
        cases hok
      · simpa using hi.cached
    | closed ds hreply hdoc heq =>
      rw [hi.finish_of_ok htask (by rw [heq])]
      rw [heq, hi.found hg hh hmem hreply] at hsame ⊢
      rw [hi.documents] at hdoc
      refine ⟨.drops h place task htask ⟨ds, hreply⟩ (by simp [hdoc]) ⟨rfl, rfl, by simp⟩,
        hi.ends hsame (by simp) (by simp) ?_⟩
      simpa using hput.invalidate _
    | overtaken ds latest hreply hdoc hversion heq =>
      rw [hi.finish_of_ok htask (by rw [heq])]
      rw [heq, hi.found hg hh hmem hreply] at hsame ⊢
      rw [hi.documents] at hdoc
      refine ⟨.drops h place task htask ⟨ds, hreply⟩ (by simp [hdoc, hversion])
          ⟨rfl, rfl, by simp⟩, hi.ends hsame (by simp) (by simp) ?_⟩
      simpa using hput
    | current ds latest hreply hdoc hversion heq =>
      rw [hi.finish_of_ok htask (by rw [heq])]
      rw [heq, hi.found hg hh hmem hreply] at hsame ⊢
      rw [hi.documents] at hdoc
      refine ⟨.lands h place task latest htask ⟨ds, hreply⟩ hdoc hversion ⟨rfl, rfl, ?_⟩,
        hi.ends hsame (by simp) (by simp) ?_⟩
      · refine hi.published_announce hl ?_ rfl rfl
        constructor <;> simp
      · simpa using hput

theorem step {hosts : List Host} {st : Step} (hi : Sound s₀ g events w)
    (hu : 0 ≤ s₀.pipeline.cache.capacity) (hl : s₀.hasListener = true)
    (hg : s₀.RepliesBy hosts g) (hh : ∀ h, st.host? = some h → h ∈ hosts)
    (hedit : ∀ e, st.event? = some e → e.IsEdit) :
    Moves (s₀.notice g) g events w (w.step st) st ∧
      Sound s₀ g (events ++ st.event?.toList) (w.step st) := by
  cases st with
  | tell e =>
    have hedit := hedit e rfl
    cases e with
    | update h d => exact hi.update hu hl h d
    | close uri => exact hi.close hl uri
    | reconfigure h path => exact hedit.elim
    | shutDown => exact hedit.elim
  | finish h place =>
    have := hi.finish hu hl hg (hh h rfl) place
    simpa [Step.event?, Workbench.step] using this

end Sound

/-- A workbench on a new session. -/
def new (s₀ : Session) : Workbench := { session := s₀ }

/-- What holds at first and is kept by each step of a run holds after every part of it. -/
theorem run_induction {steps : List Step} {P : List Step → Prop} (hnil : P [])
    (hconcat : ∀ before st after, steps = before ++ st :: after → P before → P (before ++ [st])) :
    ∀ before after, steps = before ++ after → P before := by
  intro before
  induction before using List.reverseRecOn with
  | nil => exact fun _ _ => hnil
  | append_singleton before st ih =>
    intro after heq
    rw [List.append_assoc] at heq
    exact hconcat before st after heq (ih _ heq)

section
variable {settings : Settings} {steps : List Step}

theorem run_step (hf : Session.Fresh settings s₀) (hg : s₀.RepliesBy (stepHosts steps) g)
    (hedit : ∀ e ∈ told steps, e.IsEdit) {before after : List Step} {st : Step}
    (heq : steps = before ++ st :: after) (hi : Sound s₀ g (told before) ((new s₀).run before)) :
    Moves (s₀.notice g) g (told before) ((new s₀).run before) ((new s₀).run (before ++ [st])) st ∧
      Sound s₀ g (told (before ++ [st])) ((new s₀).run (before ++ [st])) := by
  have hmem : st ∈ steps := by simp [heq]
  rw [run_concat, told_concat]
  exact hi.step hf.usable hf.listener hg
    (fun h hh => List.mem_filterMap.2 ⟨st, hmem, hh⟩)
    (fun e he => hedit e (List.mem_filterMap.2 ⟨st, hmem, he⟩))

/-- In a run of edits the workbench is at every time as its history has it. -/
theorem run_sound (hf : Session.Fresh settings s₀) (hg : s₀.RepliesBy (stepHosts steps) g)
    (hedit : ∀ e ∈ told steps, e.IsEdit) :
    ∀ before after, steps = before ++ after →
      Sound s₀ g (told before) ((new s₀).run before) := by
  refine run_induction ?_ fun before st after heq hi => (run_step hf hg hedit heq hi).2
  refine ⟨.refl _, rfl, fun u => ?_, by simp [run, new], .of_nil hf.entries⟩
  simp [run, new, told, held_nil, hf.documents]

/-- In a run of edits every step moves by one of the cases. -/
theorem run_moves (hf : Session.Fresh settings s₀) (hg : s₀.RepliesBy (stepHosts steps) g)
    (hedit : ∀ e ∈ told steps, e.IsEdit) {before after : List Step} {st : Step}
    (heq : steps = before ++ st :: after) :
    Moves (s₀.notice g) g (told before) ((new s₀).run before) ((new s₀).run (before ++ [st])) st :=
  (run_step hf hg hedit heq (run_sound hf hg hedit before _ heq)).1

end

end Workbench

end BurnLens
