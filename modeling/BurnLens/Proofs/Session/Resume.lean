import BurnLens.Proofs.Session.Workbench

/-!
# Validating anew while documents change

A session that validates its documents anew lists them first and then takes them up one by one, each
after the pass over the one before has ended. In between, a document of the list may be closed or
come in a newer version, but it is taken up as it was listed: that opens it again, or takes the
newer version back.

`run_faithful_iff`: the documents of a session are at every time those of its history if and only if
no step resumes a document that is not the open one any more. If so, nothing is cached and nothing
is published with a version that is about a closed document. The condition can be decided for a run
(`Undisturbed`). `resumed_after_close` is a run in which it fails in both ways.
-/

namespace BurnLens

/-! ### Documents recorded one after another -/

/-- Records documents under their URIs, one after another. -/
def recordAll (m : OrderedMap Document) (docs : List Document) : OrderedMap Document :=
  docs.foldl (fun m d => m.put d.uri d) m

theorem recordAll_eq_self {m : OrderedMap Document} {docs : List Document}
    (h : ∀ d ∈ docs, m.get? d.uri = some d) : recordAll m docs = m := by
  induction docs with
  | nil => rfl
  | cons d rest ih =>
    have hput : m.put d.uri d = m := OrderedMap.put_eq_self_iff.2 (h d (by simp))
    rw [recordAll, List.foldl_cons, hput]
    exact ih fun d' hd' => h d' (by simp [hd'])

theorem get?_recordAll_of_not_mem {u : String} {docs : List Document} (m : OrderedMap Document)
    (h : u ∉ docs.map (·.uri)) : (recordAll m docs).get? u = m.get? u := by
  induction docs generalizing m with
  | nil => rfl
  | cons d rest ih =>
    rw [List.map_cons, List.mem_cons, not_or] at h
    rw [recordAll, List.foldl_cons]
    refine (ih _ h.2).trans ?_
    rw [OrderedMap.get?_put, if_neg (Ne.symm h.1)]

theorem get?_recordAll_of_mem {d : Document} {docs : List Document} (m : OrderedMap Document)
    (hnodup : (docs.map (·.uri)).Nodup) (hd : d ∈ docs) :
    (recordAll m docs).get? d.uri = some d := by
  induction docs generalizing m with
  | nil => cases hd
  | cons first rest ih =>
    rw [List.map_cons] at hnodup
    obtain ⟨hnotin, hnodup⟩ := List.nodup_cons.1 hnodup
    rw [recordAll, List.foldl_cons]
    rcases List.mem_cons.1 hd with rfl | hd
    · refine (get?_recordAll_of_not_mem _ hnotin).trans ?_
      rw [OrderedMap.get?_put, if_pos rfl]
    · exact ih _ hnodup hd

namespace Session
variable {s s' s'' : Session} {h : Host} {d : Document}

/-! ### Sessions that hold what they know -/

/-- Documents stand under their own URIs, and only documents that are held have cached findings. -/
structure Tidy (s : Session) : Prop where
  room : 0 ≤ s.pipeline.cache.capacity
  keyed : ∀ e ∈ s.documents.entries, e.2.uri = e.1
  nodup : s.documents.keys.Nodup
  cached : ∀ e ∈ s.pipeline.cache.entries, s.documents.get? e.uri ≠ none

/-- What is published with a version from `s` to `s'` is about documents that `s'` holds. -/
def Logs (s s' : Session) : Prop :=
  ∃ new, s'.published = s.published ++ new ∧
    ∀ q ∈ new, q.version ≠ none → s'.documents.get? q.uri ≠ none

/-- Passes start and end on the way from `s` to `s'`: no document is lost. -/
structure Proceeds (s s' : Session) : Prop where
  tidy : s.Tidy → s'.Tidy
  held : ∀ u, s.documents.get? u ≠ none → s'.documents.get? u ≠ none
  logs : Logs s s'

theorem Logs.refl (s : Session) : Logs s s := ⟨[], by simp, nofun⟩

theorem Logs.publish {q : Publication} (h : q.version ≠ none → s.documents.get? q.uri ≠ none) :
    Logs s (s.publish q) := by
  unfold Session.publish
  split
  · refine ⟨[q], rfl, fun p hp => ?_⟩
    rw [List.mem_singleton.1 hp]
    exact h
  · exact .refl s

theorem Proceeds.trans (h : Proceeds s s') (h' : Proceeds s' s'') : Proceeds s s'' where
  tidy ht := h'.tidy (h.tidy ht)
  held u hu := h'.held u (h.held u hu)
  logs := by
    obtain ⟨new, heq, hnew⟩ := h.logs
    obtain ⟨new', heq', hnew'⟩ := h'.logs
    refine ⟨new ++ new', by rw [heq', heq, List.append_assoc], fun q hq hversion => ?_⟩
    rcases List.mem_append.1 hq with hq | hq
    · exact h'.held _ (hnew q hq hversion)
    · exact hnew' q hq hversion

theorem documents_start (hu : 0 ≤ s.pipeline.cache.capacity) (h : Host) (d : Document) :
    (s.start h d).1.documents = s.documents.put d.uri d := by
  cases start_case hu h d <;> rename_i heq <;> rw [heq] <;> simp

theorem documents_finish (hu : 0 ≤ s.pipeline.cache.capacity) (h : Host) (pass : Pass) :
    (s.finish h pass).1.documents = s.documents := by
  cases finish_case hu h pass <;> rename_i heq <;> rw [heq] <;> simp

theorem cached_start {e : CacheEntry} (hu : 0 ≤ s.pipeline.cache.capacity)
    (he : e ∈ (s.start h d).1.pipeline.cache.entries) :
    e ∈ s.pipeline.cache.entries ∨ e.uri = d.uri := by
  cases start_case hu h d with
  | hit e' hentry _ heq =>
    rw [heq] at he
    exact .inl (Cache.mem_of_mem_touch (Cache.find?_mem hentry) (by simpa using he))
  | fault _ _ _ heq =>
    rw [heq] at he
    exact .inl he
  | settled _ _ _ _ heq =>
    rw [heq] at he
    have he : e ∈ (s.pipeline.cache.put d.uri d.version d.report.diagnostics).entries := by
      simpa using he
    exact (Cache.mem_put he).imp_right (congrArg CacheEntry.uri)
  | waiting _ _ _ _ _ heq =>
    rw [heq] at he
    exact .inl he

theorem cached_finish {e : CacheEntry} {pass : Pass} (hu : 0 ≤ s.pipeline.cache.capacity)
    (he : e ∈ (s.finish h pass).1.pipeline.cache.entries) :
    e ∈ s.pipeline.cache.entries ∨ s.documents.get? e.uri ≠ none := by
  have hput : ∀ {ds : List Diagnostic},
      e ∈ (s.pipeline.cache.put pass.document.uri pass.document.version ds).entries →
        e ∈ s.pipeline.cache.entries ∨ e.uri = pass.document.uri :=
    fun he => (Cache.mem_put he).imp_right (congrArg CacheEntry.uri)
  cases finish_case hu h pass with
  | fault _ _ heq =>
    rw [heq] at he
    exact .inl (by simpa using he)
  | closed _ _ _ heq =>
    rw [heq] at he
    -- the findings of this pass are dropped again
    obtain ⟨he, hne⟩ := Cache.mem_invalidate.1 he
    exact .inl ((hput (by simpa using he)).resolve_right hne)
  | overtaken _ latest _ hdoc _ heq =>
    rw [heq] at he
    exact (hput (by simpa using he)).imp_right fun huri => by simp [huri, hdoc]
  | current _ latest _ hdoc _ heq =>
    rw [heq] at he
    exact (hput (by simpa using he)).imp_right fun huri => by simp [huri, hdoc]

theorem Proceeds.start (hu : 0 ≤ s.pipeline.cache.capacity) (h : Host) (d : Document) :
    Proceeds s (s.start h d).1 := by
  have hdocs := documents_start hu h d
  have hheld : ∀ u, s.documents.get? u ≠ none ∨ u = d.uri →
      (s.start h d).1.documents.get? u ≠ none := by
    intro u hu
    rw [hdocs, OrderedMap.get?_put]
    split
    · simp
    · exact hu.resolve_right (Ne.symm ‹_›)
  refine ⟨fun ht => ⟨?_, fun e he => ?_, ?_, fun e he => ?_⟩, fun u hu => hheld u (.inl hu), ?_⟩
  · rw [(SameSetup.start hu h d).capacity]
    exact hu
  · rw [hdocs] at he
    rcases OrderedMap.mem_of_mem_put he with rfl | he
    · rfl
    · exact ht.keyed e he
  · rw [hdocs]
    exact OrderedMap.nodup_keys_put _ _ ht.nodup
  · exact hheld e.uri ((cached_start hu he).imp_left (ht.cached e))
  · have hself := hheld d.uri (.inr rfl)
    cases start_case hu h d with
    | hit _ _ _ heq =>
      rw [heq] at hself ⊢
      exact .publish fun _ => by simpa using hself
    | fault _ _ _ heq => rw [heq]; exact .refl _
    | settled _ _ _ _ heq =>
      rw [heq] at hself ⊢
      exact .publish fun _ => by simpa using hself
    | waiting _ _ _ _ _ heq => rw [heq]; exact .refl _

theorem Proceeds.finish (hu : 0 ≤ s.pipeline.cache.capacity) (h : Host) (pass : Pass) :
    Proceeds s (s.finish h pass).1 := by
  have hdocs := documents_finish hu h pass
  refine ⟨fun ht => ⟨?_, ?_, ?_, fun e he => ?_⟩, fun u hu => ?_, ?_⟩
  · rw [(SameSetup.finish hu h pass).capacity]
    exact hu
  · rw [hdocs]
    exact ht.keyed
  · rw [hdocs]
    exact ht.nodup
  · rw [hdocs]
    exact (cached_finish hu he).elim (ht.cached e) id
  · rw [hdocs]
    exact hu
  · cases finish_case hu h pass with
    | fault _ _ heq => rw [heq]; exact .refl _
    | closed _ _ _ heq => rw [heq]; exact .refl _
    | overtaken _ _ _ _ _ heq => rw [heq]; exact .refl _
    | current _ latest _ hdoc _ heq =>
      rw [heq]
      exact .publish fun _ => by simp [hdoc]

/-- The documents of a list that are taken up one after another, up to the first that has to wait or
fails. -/
def taken (s : Session) (h : Host) : List Document → List Document
  | [] => []
  | d :: rest =>
    match s.start h d with
    | (s, .ok (.settled _)) => d :: s.taken h rest
    | _ => [d]

theorem taken_sublist (s : Session) (h : Host) (docs : List Document) :
    (s.taken h docs).Sublist docs := by
  induction docs generalizing s with
  | nil => exact .slnil
  | cons d rest ih =>
    unfold taken
    split
    · exact (ih _).cons_cons d
    · exact (List.nil_sublist rest).cons_cons d

theorem Tidy.values (ht : s.Tidy) (hd : d ∈ s.documents.values) :
    s.documents.get? d.uri = some d := by
  obtain ⟨⟨u, d'⟩, hmem, rfl⟩ := List.mem_map.1 hd
  rw [ht.keyed _ hmem]
  exact OrderedMap.get?_of_mem ht.nodup hmem

theorem Tidy.nodup_values (ht : s.Tidy) : (s.documents.values.map (·.uri)).Nodup := by
  have hkeys : s.documents.values.map (·.uri) = s.documents.keys := by
    rw [OrderedMap.values, OrderedMap.keys, List.map_map]
    exact List.map_congr_left ht.keyed
  rw [hkeys]
  exact ht.nodup

theorem Tidy.closeDocument (ht : s.Tidy) (uri : String) : (s.closeDocument uri).Tidy where
  room := by simpa using ht.room
  keyed e he := by
    rw [documents_closeDocument] at he
    exact ht.keyed e (List.mem_filter.1 he).1
  nodup := by
    rw [documents_closeDocument]
    exact OrderedMap.nodup_keys_erase uri ht.nodup
  cached e he := by
    rw [cache_closeDocument] at he
    obtain ⟨he, hne⟩ := Cache.mem_invalidate.1 he
    rw [documents_closeDocument, OrderedMap.get?_erase, if_neg (Ne.symm hne)]
    exact ht.cached e he

theorem Tidy.of_empty (hroom : 0 ≤ s.pipeline.cache.capacity) (hdocs : s.documents = .empty)
    (hcache : s.pipeline.cache.entries = []) : s.Tidy := by
  refine ⟨hroom, ?_, ?_, ?_⟩ <;>
    simp [hdocs, hcache, OrderedMap.empty, OrderedMap.keys]

theorem Tidy.switched (ht : s.Tidy) (path : Option String) : (s.switched path).Tidy :=
  ⟨ht.room, ht.keyed, ht.nodup, nofun⟩

end Session

namespace Workbench
variable {w : Workbench} {h : Host} {docs : List Document}

/-! ### Steps -/

/-- What taking up documents one after another does to a workbench. -/
structure Advanced (h : Host) (docs : List Document) (w w' : Workbench) : Prop where
  session : Session.Proceeds w.session w'.session
  documents : w'.session.documents = recordAll w.session.documents (w.session.taken h docs)
  waiting : ∀ task ∈ w'.waiting, task ∈ w.waiting ∨ task.rest.Sublist docs

theorem advanced (hu : 0 ≤ w.session.pipeline.cache.capacity) (h : Host) (docs : List Document) :
    Advanced h docs w (w.advance h docs) := by
  induction docs generalizing w with
  | nil => exact ⟨⟨id, fun _ hu => hu, .refl _⟩, rfl, fun _ => .inl⟩
  | cons d rest ih =>
    have hstart := Session.Proceeds.start hu h d
    have hdocs := Session.documents_start hu h d
    have hroom := (Session.SameSetup.start hu h d).capacity ▸ hu
    unfold advance
    split <;> rename_i session _ heq <;> rw [heq] at hstart hdocs hroom
    · refine ⟨hstart, ?_, fun _ => .inl⟩
      simp only [Session.taken, heq]
      exact hdocs
    · have hrest := @ih { w with session } hroom
      refine ⟨hstart.trans hrest.session, ?_, fun task htask => ?_⟩
      · simp only [Session.taken, heq]
        rw [hrest.documents, hdocs]
        rfl
      · exact (hrest.waiting task htask).imp_right fun hsub => hsub.cons d
    · refine ⟨hstart, ?_, fun task htask => ?_⟩
      · simp only [Session.taken, heq]
        exact hdocs
      refine (List.mem_append.1 htask).imp_right fun hnew => ?_
      rw [List.mem_singleton.1 hnew]
      exact List.sublist_cons_self d rest

/-- The documents listed before that a step takes up. -/
def resumes (w : Workbench) : Step → List Document
  | .tell _ => []
  | .finish h place =>
    match w.waiting[place]? with
    | none => []
    | some task =>
      match w.session.finish h task.pass with
      | (_, .error _) => []
      | (session, .ok _) => session.taken h task.rest

/-- A tidy session, and no task that has a URI on its list twice. -/
structure Orderly (w : Workbench) : Prop where
  session : w.session.Tidy
  waiting : ∀ task ∈ w.waiting, (task.rest.map (·.uri)).Nodup

/-- What a step of an orderly workbench does. -/
structure Stepped (w : Workbench) (st : Step) (w' : Workbench) : Prop where
  orderly : w'.Orderly
  logs : Session.Logs w.session w'.session
  documents : ∀ u, w'.session.documents.get? u = match st with
    | .tell e => e.after u (w.session.documents.get? u)
    | .finish _ _ => (recordAll w.session.documents (w.resumes st)).get? u

namespace Orderly

theorem advanced {w' : Workbench} (ho : w.Orderly) (ha : Advanced h docs w w')
    (hnodup : (docs.map (·.uri)).Nodup) : w'.Orderly := by
  refine ⟨ha.session.tidy ho.session, fun task htask => ?_⟩
  rcases ha.waiting task htask with hold | hsub
  · exact ho.waiting task hold
  · exact hnodup.sublist (hsub.map _)

theorem nodup_resumes (ho : w.Orderly) (st : Step) : ((w.resumes st).map (·.uri)).Nodup := by
  cases st with
  | tell e => exact List.nodup_nil
  | finish h place =>
    rw [resumes]
    split
    · exact List.nodup_nil
    · rename_i task htask
      split
      · exact List.nodup_nil
      · exact (ho.waiting task (List.mem_of_getElem? htask)).sublist
          ((Session.taken_sublist ..).map _)

theorem tell (ho : w.Orderly) (e : Event) : Stepped w (.tell e) (w.tell e) := by
  cases e with
  | update h d =>
    have ha := Workbench.advanced ho.session.room h [d]
    have htaken : w.session.taken h [d] = [d] := by
      rw [Session.taken]
      split <;> rfl
    refine ⟨ho.advanced ha (by simp), ha.session.logs, fun u => ?_⟩
    rw [Workbench.tell, ha.documents, htaken]
    exact OrderedMap.get?_put ..
  | close uri =>
    refine ⟨⟨ho.session.closeDocument uri, ho.waiting⟩, .publish (absurd rfl), fun u => ?_⟩
    rw [Workbench.tell, Session.documents_closeDocument, OrderedMap.get?_erase]
    rfl
  | reconfigure h path =>
    have hswitched : Orderly { w with session := w.session.switched path } :=
      ⟨ho.session.switched path, ho.waiting⟩
    have ha := Workbench.advanced hswitched.session.room h w.session.documents.values
    refine ⟨hswitched.advanced ha ho.session.nodup_values, ha.session.logs, fun u => ?_⟩
    -- the list is fresh: each document on it is the one that is held
    have hsame : recordAll w.session.documents
        ((w.session.switched path).taken h w.session.documents.values) = w.session.documents :=
      recordAll_eq_self fun d hd => ho.session.values ((Session.taken_sublist ..).subset hd)
    rw [Workbench.tell, ha.documents]
    exact congrArg (·.get? u) hsame
  | shutDown =>
    exact ⟨⟨.of_empty ho.session.room rfl rfl, ho.waiting⟩, .refl _, fun u => rfl⟩

theorem finish (ho : w.Orderly) (h : Host) (place : Nat) :
    Stepped w (.finish h place) (w.finish h place) := by
  cases htask : w.waiting[place]? with
  | none =>
    have hfinish : w.finish h place = w := by simp [Workbench.finish, htask]
    have hresumes : w.resumes (.finish h place) = [] := by simp [resumes, htask]
    rw [hfinish]
    exact ⟨ho, .refl _, fun u => by rw [hresumes]; rfl⟩
  | some task =>
    have hends := Session.Proceeds.finish ho.session.room h task.pass
    have hdocs := Session.documents_finish ho.session.room h task.pass
    have herase : ∀ t ∈ w.waiting.eraseIdx place, (t.rest.map (·.uri)).Nodup :=
      fun t ht => ho.waiting t (List.mem_of_mem_eraseIdx ht)
    have hnodup := ho.waiting task (List.mem_of_getElem? htask)
    cases hresult : w.session.finish h task.pass with
    | mk session result =>
      rw [hresult] at hends hdocs
      cases result with
      | error fault =>
        have hresumes : w.resumes (.finish h place) = [] := by simp [resumes, htask, hresult]
        simp only [Workbench.finish, htask, hresult]
        refine ⟨⟨hends.tidy ho.session, herase⟩, hends.logs, fun u => ?_⟩
        rw [hresumes]
        exact congrArg (·.get? u) hdocs
      | ok ds =>
        have hresumes : w.resumes (.finish h place) = session.taken h task.rest := by
          simp [resumes, htask, hresult]
        have hended : Orderly { w with session, waiting := w.waiting.eraseIdx place } :=
          ⟨hends.tidy ho.session, herase⟩
        have ha := Workbench.advanced hended.session.room h task.rest
        simp only [Workbench.finish, htask, hresult]
        refine ⟨hended.advanced ha hnodup, (hends.trans ha.session).logs, fun u => ?_⟩
        rw [hresumes, ha.documents]
        exact congrArg (fun m => (recordAll m _).get? u) hdocs

theorem step (ho : w.Orderly) (st : Step) : Stepped w st (w.step st) := by
  cases st with
  | tell e => exact ho.tell e
  | finish h place => exact ho.finish h place

end Orderly

/-! ### Runs -/

section
variable {s₀ : Session} {settings : Settings}

theorem run_orderly (hf : Session.Fresh settings s₀) (steps : List Step) :
    ((new s₀).run steps).Orderly := by
  induction steps using List.reverseRecOn with
  | nil => exact ⟨.of_empty hf.usable hf.documents hf.entries, nofun⟩
  | append_singleton steps st ih =>
    rw [run_concat]
    exact (ih.step st).orderly

theorem run_stepped (hf : Session.Fresh settings s₀) (before : List Step) (st : Step) :
    Stepped ((new s₀).run before) st ((new s₀).run (before ++ [st])) := by
  rw [run_concat]
  exact (run_orderly hf before).step st

/-- The documents held at a time of a run are those of its history, and nothing is cached or
published with a version that is about a document closed by then. -/
structure Faithful (s₀ : Session) (steps : List Step) : Prop where
  documents : ∀ before after, steps = before ++ after → ∀ u,
    ((new s₀).run before).session.documents.get? u = held u (told before)
  cached : ∀ before after, steps = before ++ after →
    ∀ e ∈ ((new s₀).run before).session.pipeline.cache.entries, held e.uri (told before) ≠ none
  published : ∀ before st after, steps = before ++ st :: after →
    ∃ log, ((new s₀).run (before ++ [st])).session.published =
        ((new s₀).run before).session.published ++ log ∧
      ∀ q ∈ log, q.version ≠ none → held q.uri (told (before ++ [st])) ≠ none

/-- Every document that a step of the run resumes is the one that is open. -/
def Undisturbed (s₀ : Session) (steps : List Step) : Prop :=
  ∀ before st after, steps = before ++ st :: after →
    ∀ d ∈ ((new s₀).run before).resumes st, held d.uri (told before) = some d

theorem undisturbed_iff {steps : List Step} :
    Undisturbed s₀ steps ↔ ∀ i (hi : i < steps.length),
      ∀ d ∈ ((new s₀).run (steps.take i)).resumes steps[i],
        held d.uri (told (steps.take i)) = some d := by
  constructor
  · intro hun i hi
    refine hun (steps.take i) steps[i] (steps.drop (i + 1)) ?_
    rw [List.getElem_cons_drop, List.take_append_drop]
  · rintro hun before st after rfl
    simpa using hun before.length (by simp)

instance (s₀ : Session) (steps : List Step) : Decidable (Undisturbed s₀ steps) :=
  decidable_of_iff _ undisturbed_iff.symm

theorem Undisturbed.documents {steps : List Step} (hun : Undisturbed s₀ steps)
    (hf : Session.Fresh settings s₀) : ∀ before after, steps = before ++ after → ∀ u,
      ((new s₀).run before).session.documents.get? u = held u (told before) := by
  refine run_induction (fun u => ?_) fun before st after heq ih u => ?_
  · simp [run, new, told, held_nil, hf.documents]
  · rw [(run_stepped hf before st).documents, told_concat]
    cases st with
    | tell e => rw [ih]; exact (held_concat ..).symm
    | finish h place =>
      have hsame := recordAll_eq_self fun d hd => (ih d.uri).trans (hun before _ after heq d hd)
      simp only [hsame, ih, Step.event?, Option.toList_none, List.append_nil]

end

/-- A run of any events and ends of passes is faithful to its history if and only if every document
that is resumed in it is still the open one. -/
theorem run_faithful_iff {h₀ : Host} {settings : Settings} {root : Option Path}
    {standIn : Option StandIn} {s₀ : Session}
    (hs : Session.create h₀ settings root standIn true = .ok s₀) (steps : List Step) :
    Faithful s₀ steps ↔ Undisturbed s₀ steps := by
  have hf := Session.create_fresh hs
  constructor
  · intro hfaithful before st after heq d hd
    have hbefore := hfaithful.documents before _ heq
    cases st with
    | tell e => cases hd
    | finish h place =>
      -- the step records the document, and the history does not change
      have hafter := hfaithful.documents (before ++ [.finish h place]) after (by simp [heq]) d.uri
      rw [(run_stepped hf before _).documents, told_concat] at hafter
      have hrecorded := get?_recordAll_of_mem ((new s₀).run before).session.documents
        ((run_orderly hf before).nodup_resumes _) hd
      rw [hrecorded] at hafter
      simpa [Step.event?] using hafter.symm
  · intro hun
    have hdocuments := hun.documents hf
    refine ⟨hdocuments, fun before after heq e he => ?_, fun before st after heq => ?_⟩
    · rw [← hdocuments before after heq]
      exact (run_orderly hf before).session.cached e he
    · obtain ⟨log, hlog, hheld⟩ := (run_stepped hf before st).logs
      refine ⟨log, hlog, fun q hq hversion => ?_⟩
      rw [← hdocuments (before ++ [st]) after (by simp [heq])]
      exact hheld q hq hversion

/-- The document that is validated first comes in a new version while the pass over it waits. -/
theorem run_faithful_iff_first_changed :
    let h : Host := { fs := {}, searchFolders := [], salt := "" }
    let a := "file:///ws/a.bn"
    let b := "file:///ws/b.bn"
    let steps : List Step := [.tell (.update h ⟨a, 1, ""⟩), .finish h 0,
      .tell (.update h ⟨b, 1, ""⟩), .finish h 0, .tell (.reconfigure h none),
      .tell (.update h ⟨a, 2, "x"⟩), .finish h 0, .finish h 1, .finish h 0]
    ∃ s₀, Session.create h {} none (some {}) true = .ok s₀ ∧ Faithful s₀ steps := by
  intro h a b steps
  obtain ⟨s₀, hs⟩ : ∃ s₀, Session.create h {} none (some {}) true = .ok s₀ := ⟨_, rfl⟩
  refine ⟨s₀, hs, (run_faithful_iff hs steps).2 ?_⟩
  cases hs
  decide +kernel

/-- Three documents are validated anew. While the pass over the first waits, the second is closed
and the third comes in a new version. The passes end in order: the second document is open again,
with findings cached and published, and the third is back in its old version. -/
theorem resumed_after_close :
    let h : Host := { fs := {}, searchFolders := [], salt := "" }
    let a := "file:///ws/a.bn"
    let b := "file:///ws/b.bn"
    let c := "file:///ws/c.bn"
    let steps : List Step := [.tell (.update h ⟨a, 1, ""⟩), .finish h 0,
      .tell (.update h ⟨b, 1, ""⟩), .finish h 0, .tell (.update h ⟨c, 1, ""⟩), .finish h 0,
      .tell (.reconfigure h none), .tell (.close b), .tell (.update h ⟨c, 2, "x"⟩),
      .finish h 0, .finish h 1]
    ∃ s₀, Session.create h {} none (some {}) true = .ok s₀ ∧
      let s := ((new s₀).run steps).session
      (held b (told steps) = none ∧ s.documents.get? b = some ⟨b, 1, ""⟩) ∧
        (held c (told steps) = some ⟨c, 2, "x"⟩ ∧ s.documents.get? c = some ⟨c, 1, ""⟩) ∧
        s.published.getLast? = some ⟨b, some 1, []⟩ ∧ s.pipeline.cache.contains b = true ∧
        ¬ Faithful s₀ steps := by
  intro h a b c steps
  obtain ⟨s₀, hs⟩ : ∃ s₀, Session.create h {} none (some {}) true = .ok s₀ := ⟨_, rfl⟩
  refine ⟨s₀, hs, ?_⟩
  intro s
  have hreopened : s.documents.get? b = some ⟨b, 1, ""⟩ := by
    cases hs
    decide +kernel
  refine ⟨⟨rfl, hreopened⟩, ⟨rfl, ?_⟩, ?_, ?_, fun hfaithful => ?_⟩
  · cases hs
    decide +kernel
  · cases hs
    decide +kernel
  · cases hs
    decide +kernel
  · rw [hfaithful.documents steps [] (by simp) b] at hreopened
    cases hreopened

end Workbench

end BurnLens
