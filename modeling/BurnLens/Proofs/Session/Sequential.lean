import BurnLens.Proofs.Session.History

/-!
# Documents, index, cache and log stay in step

A sequential run handles each event to its end before the next. `Coherent` ties the four parts of a
session together: an open document has the table of its text, its findings under the checker in
charge were the last thing published about it, and the cache holds findings of open documents in
their current version only. `play_coherent` carries it through every sequential run; `play_inStep`
says the same in terms of the history alone.

While a session validates its documents anew after the checker was switched, some of them are still
due: they have no entry yet and what was published about them is out of date. `Coherent` therefore
takes the URIs that are due.
-/

namespace BurnLens

def lastAbout (uri : String) (log : List Publication) : Option Publication :=
  log.reverse.find? (·.uri = uri)

theorem lastAbout_concat (uri : String) (log : List Publication) (q : Publication) :
    lastAbout uri (log ++ [q]) = if q.uri = uri then some q else lastAbout uri log := by
  by_cases h : q.uri = uri <;> simp [lastAbout, h]

namespace Session
variable {s s' : Session} {h : Host} {d : Document} {g : Checker → Answers} {due : List String}

/-- The table of an open document is the one of its text, types of variables aside. -/
def HasTable (s : Session) (d : Document) : Prop :=
  ∃ t, s.pipeline.index.tables.get? d.uri = some t ∧
    t.untyped = (extract d.text d.uri fun _ => none).table.untyped

/-- The parts of a session agree, the documents aside that are due to be validated. -/
structure Coherent (g : Checker → Answers) (due : List String) (s : Session) : Prop where
  keyed : ∀ u d, s.documents.get? u = some d → d.uri = u
  nodup : s.documents.keys.Nodup
  table : ∀ u d, s.documents.get? u = some d → s.HasTable d
  cached : ∀ e ∈ s.pipeline.cache.entries, e.uri ∉ due ∧
    ∃ d, s.documents.get? e.uri = some d ∧ e.version = d.version ∧
      e.diagnostics = d.findings (s.pipeline.answers g)
  published : ∀ u d, s.documents.get? u = some d → u ∉ due →
    lastAbout u s.published = some (s.notice g d)

/-! ### One update -/

/-- What an update does that has to run its pass and comes to its end. -/
structure Updated (g : Checker → Answers) (h : Host) (d : Document) (s s' : Session) : Prop where
  same : SameSetup s s'
  documents : s'.documents = s.documents.put d.uri d
  index : s'.pipeline.index = (s.pipeline.index.indexDocument h.fs d.uri d.text).1
  indexed : ∃ extraction, (s.pipeline.index.indexDocument h.fs d.uri d.text).2 = .ok extraction
  checker : s'.pipeline.checker = s.pipeline.checker
  cache : s'.pipeline.cache =
    s.pipeline.cache.put d.uri d.version (d.findings (s.pipeline.answers g))
  published : s'.published = s.published ++ [s.notice g d]

theorem update_same (hu : 0 ≤ s.pipeline.cache.capacity) (h : Host) (d : Document) :
    SameSetup s (s.update h d).1 := by
  have hstart := SameSetup.start hu h d
  unfold update
  split <;> rename_i heq <;> rw [heq] at hstart
  · exact hstart
  · exact hstart
  · exact hstart.trans (.finish (hstart.capacity ▸ hu) h _)

theorem update_updated {hosts : List Host} (hu : 0 ≤ s.pipeline.cache.capacity)
    (hl : s.hasListener = true) (hg : s.RepliesBy hosts g) (hh : h ∈ hosts)
    (hmiss : s.pipeline.Misses d) (hok : (s.update h d).2.isOk = true) :
    Updated g h d s (s.update h d).1 := by
  have hsame := update_same hu h d
  cases start_case hu h d with
  | hit e hentry hversion _ => exact absurd hversion (hmiss e hentry)
  | fault fault _ _ heq => simp [update, heq, Except.isOk, Except.toBool] at hok
  | settled extraction _ hindex hpending heq =>
    have hfound := Pipeline.findings_of_settled g hpending
    rw [hfound] at heq
    have hupd : (s.update h d).1 = ((s.recorded d).withPipeline
        ((s.pipeline.indexed h d).cached d (d.findings (s.pipeline.answers g)))).announce d
        (d.findings (s.pipeline.answers g)) := by simp [update, heq]
    rw [hupd] at hsame ⊢
    refine ⟨hsame, by simp, by simp [Pipeline.indexed], ⟨extraction, hindex⟩, by simp, by simp, ?_⟩
    rw [published_announce]
    · rfl
    · exact hl
  | waiting extraction checker _ hindex hpending heq =>
    have hupd : s.update h d = ((s.recorded d).withPipeline (s.pipeline.indexed h d)).finish h
        ⟨d, d.report, checker⟩ := by simp only [update, heq]
    have hopen := s.get?_recorded d
    rw [hupd] at hsame hok ⊢
    cases finish_case (s := (s.recorded d).withPipeline (s.pipeline.indexed h d)) hu h
        ⟨d, d.report, checker⟩ with
    | fault fault _ heq' => simp [heq', Except.isOk, Except.toBool] at hok
    | closed _ _ hdoc _ => cases hopen.symm.trans hdoc
    | overtaken _ latest _ hdoc hversion _ =>
      cases hopen.symm.trans hdoc
      exact absurd rfl hversion
    | current ds latest hreply _ _ heq' =>
      have hds : ds = g checker d.text d.uri :=
        hg h hh checker (Pipeline.pending_eq_some hpending).2 d.text d.uri ds
          (by simpa using hreply)
      have hfound := Pipeline.findings_of_waited (g := g) hpending
      simp only [hds, hfound] at heq'
      rw [heq'] at hsame ⊢
      refine ⟨hsame, by simp, by simp [Pipeline.indexed],
        ⟨extraction, hindex⟩, by simp, by simp, ?_⟩
      rw [published_announce]
      · rfl
      · exact hl

namespace Coherent

/-- An update of a document keeps the parts in step and settles what was due of its URI. -/
theorem updated {due' : List String} (hc : Coherent g due s) (hup : Updated g h d s s')
    (hle : ∀ e ∈ s.pipeline.cache.entries, e.uri = d.uri → e.version ≤ d.version)
    (hdue : ∀ u, u ∈ due' ↔ u ∈ due ∧ u ≠ d.uri) : Coherent g due' s' := by
  have hget : ∀ u, s'.documents.get? u = if d.uri = u then some d else s.documents.get? u := by
    intro u
    rw [hup.documents, OrderedMap.get?_put]
  have hans : s'.pipeline.answers g = s.pipeline.answers g := Pipeline.answers_congr hup.checker g
  have hnotice := notice_congr hup.same hup.checker g
  refine ⟨fun u d' hd' => ?_, ?_, fun u d' hd' => ?_, fun e he => ?_, fun u d' hd' hnd => ?_⟩
  · rw [hget] at hd'
    split at hd'
    · cases hd'
      assumption
    · exact hc.keyed u d' hd'
  · rw [hup.documents]
    exact OrderedMap.nodup_keys_put _ _ hc.nodup
  · obtain ⟨extraction, hix⟩ := hup.indexed
    rw [hget] at hd'
    split at hd'
    · cases hd'
      obtain ⟨ht, lookup, rfl⟩ := Index.indexDocument_ok hix
      exact ⟨_, by rw [hup.index]; exact ht, extract_untyped lookup _⟩
    · rename_i hne
      obtain ⟨t, ht, hsame⟩ := hc.table u d' hd'
      have hne' : d'.uri ≠ d.uri := fun heq => hne (heq.symm.trans (hc.keyed u d' hd'))
      exact ⟨t, by rw [hup.index]; exact Index.indexDocument_keeps _ _ _ _ _ t hne' ht, hsame⟩
  · rw [hup.cache] at he
    rw [hans, hget, hdue]
    rcases Cache.mem_put_of_le hle he with ⟨he, hne⟩ | rfl
    · obtain ⟨hnd, d', hd'⟩ := hc.cached e he
      exact ⟨fun hmem => hnd hmem.1, d', by rw [if_neg (Ne.symm hne)]; exact hd'⟩
    · exact ⟨fun hmem => hmem.2 rfl, d, by simp⟩
  · rw [hup.published, lastAbout_concat, hnotice]
    rw [hget] at hd'
    by_cases hu : d.uri = u
    · rw [if_pos hu] at hd'
      cases hd'
      rw [if_pos (show (s.notice g d).uri = u from hu)]
    · rw [if_neg hu] at hd'
      rw [if_neg (show (s.notice g d).uri ≠ u from hu)]
      exact hc.published u d' hd' fun hmem => hnd ((hdue u).2 ⟨hmem, Ne.symm hu⟩)

/-- Documents that are due are validated one after another; in the end none is. -/
theorem updateAll {hosts : List Host} (hh : h ∈ hosts) {docs : List Document}
    (hc : Coherent g (docs.map (·.uri)) s) (hu : 0 ≤ s.pipeline.cache.capacity)
    (hl : s.hasListener = true) (hg : s.RepliesBy hosts g) (hnd : (docs.map (·.uri)).Nodup)
    (hopen : ∀ d ∈ docs, s.documents.get? d.uri = some d)
    (hok : updateAll h docs s = (s', .ok ())) :
    Coherent g [] s' ∧ SameSetup s s' ∧ s'.pipeline.checker = s.pipeline.checker ∧
      ∀ u, s'.documents.get? u = s.documents.get? u := by
  induction docs generalizing s with
  | nil =>
    cases hok
    exact ⟨hc, .refl _, rfl, fun _ => rfl⟩
  | cons d rest ih =>
    rw [List.map_cons] at hnd
    obtain ⟨hnotin, hnd⟩ := List.nodup_cons.1 hnd
    -- the URI is due, so the cache knows nothing of it
    have hnone : ∀ e ∈ s.pipeline.cache.entries, e.uri ≠ d.uri := fun e he heq =>
      (hc.cached e he).1 (by simp [heq])
    have hmiss : s.pipeline.Misses d := fun e he =>
      absurd (Cache.find?_uri he) (hnone e (Cache.find?_mem he))
    rw [Session.updateAll] at hok
    split at hok
    · cases hok
    · rename_i s₁ ds heq
      have hup : Updated g h d s s₁ := by
        have := update_updated hu hl hg hh hmiss (by rw [heq]; rfl)
        rwa [heq] at this
      have hget : ∀ u, s₁.documents.get? u = s.documents.get? u := by
        intro u
        rw [hup.documents, OrderedMap.get?_put]
        split
        · rename_i hu'
          rw [← hu', hopen d (by simp)]
        · rfl
      have hc₁ : Coherent g (rest.map (·.uri)) s₁ := by
        refine hc.updated hup (fun e he heq => absurd heq (hnone e he)) fun u => ?_
        simp only [List.map_cons, List.mem_cons]
        constructor
        · exact fun hmem => ⟨.inr hmem, fun heq => hnotin (heq ▸ hmem)⟩
        · exact fun hmem => hmem.1.resolve_left hmem.2
      obtain ⟨hc₂, hsame, hchecker, hget₂⟩ := ih hc₁ (hup.same.capacity ▸ hu)
        (hup.same.listener.trans hl) (hg.congr hup.same hup.checker) hnd
        (fun d' hd' => by rw [hget]; exact hopen d' (by simp [hd'])) hok
      exact ⟨hc₂, hup.same.trans hsame, hchecker.trans hup.checker,
        fun u => (hget₂ u).trans (hget u)⟩

theorem closeDocument (hc : Coherent g [] s) (hl : s.hasListener = true) (uri : String) :
    Coherent g [] (s.closeDocument uri) := by
  have hget : ∀ u, (s.closeDocument uri).documents.get? u =
      if uri = u then none else s.documents.get? u := by
    intro u
    rw [documents_closeDocument, OrderedMap.get?_erase]
  have hdoc : ∀ u d, (s.closeDocument uri).documents.get? u = some d →
      uri ≠ u ∧ s.documents.get? u = some d := by
    intro u d hd
    rw [hget] at hd
    split at hd
    · cases hd
    · exact ⟨‹_›, hd⟩
  have hans : (s.closeDocument uri).pipeline.answers g = s.pipeline.answers g :=
    Pipeline.answers_congr (checker_closeDocument s uri) g
  refine ⟨fun u d hd => hc.keyed u d (hdoc u d hd).2, ?_, fun u d hd => ?_, fun e he => ?_,
    fun u d hd hnd => ?_⟩
  · rw [documents_closeDocument]
    exact OrderedMap.nodup_keys_erase uri hc.nodup
  · obtain ⟨hne, hd⟩ := hdoc u d hd
    obtain ⟨t, ht, hsame⟩ := hc.table u d hd
    refine ⟨t, ?_, hsame⟩
    rw [index_closeDocument, Index.remove, OrderedMap.get?_erase, hc.keyed u d hd, if_neg hne]
    rwa [hc.keyed u d hd] at ht
  · rw [cache_closeDocument] at he
    obtain ⟨he, hne⟩ := Cache.mem_invalidate.1 he
    obtain ⟨hnd, d, hd, hrest⟩ := hc.cached e he
    exact ⟨hnd, d, by rw [hget, if_neg (Ne.symm hne)]; exact hd, by rw [hans]; exact hrest⟩
  · obtain ⟨hne, hd⟩ := hdoc u d hd
    rw [published_closeDocument hl, lastAbout_concat, if_neg hne, hc.published u d hd hnd,
      notice_congr (.closeDocument s uri) (checker_closeDocument s uri)]

theorem shutDown (s : Session) : Coherent g [] s.shutDown where
  keyed _ _ hd := by cases hd
  nodup := List.nodup_nil
  table _ _ hd := by cases hd
  cached _ he := by cases he
  published _ _ hd := by cases hd

theorem values_uri (hc : Coherent g due s) :
    ∀ d ∈ s.documents.values, s.documents.get? d.uri = some d := by
  intro d hd
  obtain ⟨⟨u, d'⟩, hmem, rfl⟩ := List.mem_map.1 hd
  have hget := OrderedMap.get?_of_mem hc.nodup hmem
  rw [hc.keyed u d' hget]
  exact hget

theorem values_map_uri (hc : Coherent g due s) :
    s.documents.values.map (·.uri) = s.documents.keys := by
  rw [OrderedMap.values, OrderedMap.keys, List.map_map]
  refine List.map_congr_left fun e he => ?_
  exact hc.keyed e.1 e.2 (OrderedMap.get?_of_mem hc.nodup he)

theorem switched (hc : Coherent g [] s) (path : Option String) :
    Coherent g (s.documents.values.map (·.uri)) (s.switched path) where
  keyed := hc.keyed
  nodup := hc.nodup
  table := hc.table
  cached _ he := by cases he
  published u d hd hnd := by
    refine absurd (List.mem_map.2 ⟨d, ?_, hc.keyed u d hd⟩) hnd
    exact List.mem_map.2 ⟨(u, d), OrderedMap.mem_of_get? hd, rfl⟩

theorem reconfigure {hosts : List Host} (hh : h ∈ hosts) (hc : Coherent g [] s)
    (hu : 0 ≤ s.pipeline.cache.capacity) (hl : s.hasListener = true) {path : Option String}
    (hg : (s.switched path).RepliesBy hosts g) (hok : s.reconfigure h path = (s', .ok ())) :
    Coherent g [] s' ∧ SameSetup s s' ∧
      s'.pipeline.checker = (s.switched path).pipeline.checker ∧
      ∀ u, s'.documents.get? u = s.documents.get? u := by
  rw [reconfigure_eq] at hok
  obtain ⟨hc', hsame, hchecker, hget⟩ := (hc.switched path).updateAll hh hu hl hg
    (by rw [hc.values_map_uri]; exact hc.nodup) hc.values_uri hok
  exact ⟨hc', (SameSetup.switched s path).trans hsame, hchecker, hget⟩

end Coherent

/-! ### Sequential runs -/

/-- The checker in charge is the first one, or one that the history switched to. -/
theorem checker_switched {s₀ : Session} {events : List Event} {path : Option String}
    (hsettings : s.settings = s₀.settings) (hh : Event.reconfigure h path ∈ events)
    (hmem : ∀ checker, s.pipeline.checker = some checker → checker ∈ s₀.employed events) :
    ∀ checker, (s.switched path).pipeline.checker = some checker →
      checker ∈ s₀.employed events := by
  intro checker hchecker
  cases path with
  | none => exact hmem checker hchecker
  | some path =>
    cases hchecker
    refine List.mem_append_right _ (List.mem_filterMap.2 ⟨_, hh, ?_⟩)
    rw [hsettings]

/-- The parts of a session agree after every sequential run, and its documents are those of the
history. -/
theorem play_coherent {settings : Settings} {s₀ : Session} {events : List Event}
    (hf : Fresh settings s₀) (hg : s₀.ConsistentBy events g)
    (hv : VersionsIncrease events) (hrun : s₀.play events = .ok s) :
    Coherent g [] s ∧ SameSetup s₀ s ∧
      (∀ checker, s.pipeline.checker = some checker → checker ∈ s₀.employed events) ∧
      ∀ u, s.documents.get? u = held u events := by
  induction events using List.reverseRecOn generalizing s with
  | nil =>
    cases hrun
    refine ⟨⟨?_, ?_, ?_, ?_, ?_⟩, .refl _, ?_, ?_⟩ <;>
      simp [hf.documents, hf.entries, held_nil, employed]
    exact List.nodup_nil
  | append_singleton events e ih =>
    obtain ⟨s₁, hplay, hlast⟩ := play_concat hrun
    obtain ⟨hc, hsame, hmem, hheld⟩ := ih hg.init hv.init hplay
    have hu : 0 ≤ s₁.pipeline.cache.capacity := hsame.capacity ▸ hf.usable
    have hl : s₁.hasListener = true := hsame.listener.trans hf.listener
    replace hmem := fun checker hch => s₀.employed_concat events e checker (hmem checker hch)
    cases e with
    | update h d =>
      obtain ⟨rfl, hok⟩ := Prod.mk.injEq .. ▸ hlast
      have hlt : ∀ e ∈ s₁.pipeline.cache.entries, e.uri = d.uri → e.version < d.version := by
        intro e he heq
        obtain ⟨-, d', hd', hver, -⟩ := hc.cached e he
        rw [hver]
        exact hv.last (by rw [← hheld, ← heq]; exact hd')
      have hmiss : s₁.pipeline.Misses d := fun e he =>
        Int.ne_of_lt (hlt e (Cache.find?_mem he) (Cache.find?_uri he))
      have hh : h ∈ hosts (events ++ [.update h d]) := by simp [hosts_concat, Event.host?]
      have hup := update_updated hu hl (hg.repliesBy hsame hmem) hh hmiss (by
        cases hr : (s₁.update h d).2 with
        | error fault => rw [hr] at hok; cases hok
        | ok ds => rfl)
      refine ⟨hc.updated hup (fun e he heq => Int.le_of_lt (hlt e he heq)) (by simp),
        hsame.trans hup.same, by rw [hup.checker]; exact hmem, fun u => ?_⟩
      rw [held_concat, hup.documents, OrderedMap.get?_put, hheld]
      rfl
    | close uri =>
      obtain ⟨rfl, -⟩ := Prod.mk.injEq .. ▸ hlast
      refine ⟨hc.closeDocument hl uri, hsame.trans (.closeDocument s₁ uri), ?_, fun u => ?_⟩
      · rw [checker_closeDocument]
        exact hmem
      · rw [held_concat, documents_closeDocument, OrderedMap.get?_erase, hheld]
        rfl
    | reconfigure h path =>
      have hh : h ∈ hosts (events ++ [.reconfigure h path]) := by simp [hosts_concat, Event.host?]
      have hnew := checker_switched hsame.settings
        (by simp : Event.reconfigure h path ∈ events ++ [.reconfigure h path]) hmem
      have hgs := hg.repliesBy (hsame.trans (.switched s₁ path)) hnew
      obtain ⟨hc', hsame', hchecker, hget⟩ := hc.reconfigure hh hu hl hgs hlast
      refine ⟨hc', hsame.trans hsame', by rw [hchecker]; exact hnew, fun u => ?_⟩
      rw [held_concat, hget, hheld]
      rfl
    | shutDown =>
      obtain ⟨rfl, -⟩ := Prod.mk.injEq .. ▸ hlast
      exact ⟨.shutDown s₁, hsame.trans (.shutDown s₁), hmem, fun u => by rw [held_concat]; rfl⟩

/-- Documents, index, log and cache as a history leaves them: `documents` are those that the history
holds open; each has the table of its text, its findings under the checker in charge were published
last about it, and nothing else is cached. -/
structure InStep (settings : Settings) (g : Checker → Answers) (events : List Event)
    (s : Session) : Prop where
  documents : ∀ u, s.documents.get? u = held u events
  tables : ∀ u d, held u events = some d → ∃ t, s.pipeline.index.tables.get? u = some t ∧
    t.untyped = (extract d.text u fun _ => none).table.untyped
  published : ∀ u d, held u events = some d → lastAbout u s.published =
    some ⟨u, some d.version, (d.findings (s.pipeline.answers g)).take settings.maxProblems⟩
  cached : ∀ e ∈ s.pipeline.cache.entries, ∃ d, held e.uri events = some d ∧
    e.version = d.version ∧ e.diagnostics = d.findings (s.pipeline.answers g)

structure Gone (u : String) (s : Session) : Prop where
  document : s.documents.get? u = none
  cache : s.pipeline.cache.contains u = false
  index : u ∉ s.pipeline.index.uris
  published : lastAbout u s.published = some ⟨u, none, []⟩

theorem closeDocument_gone (hl : s.hasListener = true) (u : String) :
    Gone u (s.closeDocument u) where
  document := by rw [documents_closeDocument, OrderedMap.get?_erase, if_pos rfl]
  cache := by
    rw [cache_closeDocument, Cache.contains, Option.isSome_eq_false_iff, Option.isNone_iff_eq_none,
      Cache.find?, List.find?_eq_none]
    intro e he
    simpa using (Cache.mem_invalidate.1 he).2
  index := by
    rw [index_closeDocument, Index.uris, ← OrderedMap.get?_eq_none_iff, Index.remove,
      OrderedMap.get?_erase, if_pos rfl]
  published := by rw [published_closeDocument hl, lastAbout_concat, if_pos rfl]

/-- After every sequential run of a new session in which no event fails, in which checkers answer
consistently and versions increase while a document is open, the parts of the session are in step
with the history; and nothing is left of a document that was just closed. -/
theorem play_inStep {h₀ : Host} {settings : Settings} {root : Option Path}
    {standIn : Option StandIn} {s₀ : Session} {events : List Event}
    (hs : create h₀ settings root standIn true = .ok s₀) (hg : s₀.ConsistentBy events g)
    (hv : VersionsIncrease events) (hrun : s₀.play events = .ok s) :
    InStep settings g events s ∧ ∀ before u, events = before ++ [.close u] → Gone u s := by
  have hf := create_fresh hs
  obtain ⟨hc, hsame, -, hheld⟩ := play_coherent hf hg hv hrun
  refine ⟨⟨hheld, fun u d hd => ?_, fun u d hd => ?_, fun e he => ?_⟩, ?_⟩
  · rw [← hheld] at hd
    have hu := hc.keyed u d hd
    obtain ⟨t, ht, huntyped⟩ := hc.table u d hd
    rw [hu] at ht huntyped
    exact ⟨t, ht, huntyped⟩
  · rw [← hheld] at hd
    rw [hc.published u d hd (by simp), notice, hc.keyed u d hd, hsame.settings, hf.settings]
  · obtain ⟨-, d, hd⟩ := hc.cached e he
    rw [hheld] at hd
    exact ⟨d, hd⟩
  · rintro before u rfl
    obtain ⟨s₁, hplay, hlast⟩ := play_concat hrun
    obtain ⟨rfl, -⟩ := Prod.mk.injEq .. ▸ hlast
    obtain ⟨-, hsame₁, -, -⟩ := play_coherent hf hg.init hv.init hplay
    exact closeDocument_gone (hsame₁.listener.trans hf.listener) u

/-- Two documents, one importing the other, a cache with room for one of them, a change, a switch to
a compiler that the host does not have, and a close. -/
theorem play_inStep_switched :
    let h : Host := { fs := {}, searchFolders := [], salt := "" }
    let settings : Settings := { cacheSize := 1, maxProblems := 1 }
    let standIn : StandIn := { usual := [⟨.error, .onLine 0 0 1, "no", .compiler none, none⟩] }
    let events : List Event := [.update h ⟨"file:///a.bn", 1, "import \"b\" x"⟩,
      .update h ⟨"file:///b.bn", 4, "y z"⟩, .update h ⟨"file:///a.bn", 2, "x y"⟩,
      .reconfigure h (some "burn"), .close "file:///b.bn"]
    ∃ s₀ s g, create h settings none (some standIn) true = .ok s₀ ∧ s₀.ConsistentBy events g ∧
      VersionsIncrease events ∧ s₀.play events = .ok s ∧
      InStep settings g events s ∧ Gone "file:///b.bn" s := by
  intro h settings standIn events
  obtain ⟨s₀, hs⟩ : ∃ s₀, create h settings none (some standIn) true = .ok s₀ := ⟨_, rfl⟩
  have hplay : (s₀.play events).toOption.isSome = true := by
    cases hs
    decide +kernel
  cases hrun : s₀.play events with
  | error fault => rw [hrun] at hplay; cases hplay
  | ok s =>
    let g : Checker → Answers := fun checker text uri =>
      (s₀.pipeline.reply h checker text uri).toOption.getD []
    have hg : s₀.ConsistentBy events g := by
      intro h' hh checker _ text uri ds hreply
      have hone : h' = h := by simpa [hosts, events, Event.host?] using hh
      subst hone
      simp [g, hreply, Except.toOption]
    have hv : VersionsIncrease events := by decide
    obtain ⟨hin, hgone⟩ := play_inStep hs hg hv hrun
    exact ⟨s₀, s, g, hs, hg, hv, hrun, hin, hgone (events.take 4) _ rfl⟩

end Session

end BurnLens
