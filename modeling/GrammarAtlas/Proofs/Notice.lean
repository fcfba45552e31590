import GrammarAtlas.Proofs.Invalidation
import GrammarAtlas.Proofs.Scratch

/-! # No change goes unnoticed

A subscriber that is not notified may go on with what it knows. `Session.change_announced`, for every
state that a session without a host can reach: when an operation changes what a fresh document would
show if it were analysed from scratch, every subscriber is notified during the operation, and the
document does not stay fresh with what it showed before.

A fresh document that an operation does not reach shows what it did, and that is what an analysis
from scratch would show, before and after. So what has changed for anyone was reached by
invalidation, and that is when subscribers are notified. -/

namespace GrammarAtlas

namespace Session
variable {s s' s₁ : Session} {c c' : Control} {n : Nat} {slot : Slot} {id d text : String}
  {an : Analysis} {ledger ps qs : List Publication} {operation : Operation} {r : Reply}

/-- The subscribers, and all that anyone was told so far. -/
def audience (s : Session) : List Nat × List Event := (s.subscribers, s.events)

theorem audience_foldl_invalidate (s : Session) (ids : List String) :
    (ids.foldl invalidate s).audience = s.audience := by
  obtain ⟨slots, h⟩ := s.exists_foldl_invalidate ids
  rw [h]
  rfl

theorem audience_setText (s : Session) (id text : String) :
    (s.setText id text).1.audience = s.audience := by
  rw [setText]
  split
  · split <;> rfl
  · rfl

theorem audience_rename (s : Session) (id text : String) :
    (s.rename id text).1.audience = s.audience :=
  audience_foldl_invalidate _ _

theorem audience_dropNamed (s : Session) (id : String) : (s.dropNamed id).audience = s.audience := by
  rw [dropNamed]
  split <;> rfl

theorem events_heard (handles : List Nat) :
    (s.heard handles).events = (handles.map Event.notified).reverse ++ s.events := by
  induction handles generalizing s with
  | nil => rfl
  | cons handle handles ih =>
    rw [heard, ih, List.map_cons, List.reverse_cons, List.append_assoc]
    rfl

theorem events_filed (s : Session) (id text : String) :
    ((s.setText id text).1.rename id text).1.events = s.events := by
  have := (audience_rename _ id text).trans (audience_setText s id text)
  exact congrArg Prod.snd this

theorem events_begin (s : Session) (next : Continuation .reply) (operation : Operation) :
    (s.begin next operation).1.events = s.events := by
  have hset (id text : String) : (s.setText id text).1.events = s.events :=
    congrArg Prod.snd (audience_setText s id text)
  cases operation with
  | update id text =>
    rw [begin_update]
    split
    · exact events_filed s id text
    · exact hset id text
  | close id =>
    rw [begin]
    split
    · rfl
    · exact congrArg Prod.snd (audience_foldl_invalidate _ _)
  | reset =>
    show (s.documents.foldl dropNamed s).events = s.events
    generalize s.documents = ids
    induction ids generalizing s with
    | nil => rfl
    | cons id ids ih =>
      rw [List.foldl_cons, ih (s.dropNamed id) (fun _ _ => congrArg Prod.snd (audience_setText _ _ _))]
      exact congrArg Prod.snd (s.audience_dropNamed id)
  | query id text? query =>
    cases text? with
    | none => rw [begin]; split <;> rfl
    | some text =>
      rw [begin_query]
      split
      · exact events_filed s id text
      · exact hset id text
  | refresh | freshness | documents | subscribe | unsubscribe | settings | summary => rfl

theorem events_refreshSlot (s : Session) (n : Nat) (requester? : Option String)
    (next : Continuation .analysis) : (s.refreshSlot n requester? next).1.events = s.events := by
  rw [refreshSlot]
  split
  · rfl
  · split <;> rfl

theorem events_cycleSlot (s : Session) (n : Nat) (requester? : Option String) (changed : Bool)
    (next : Continuation .analysis) : (s.cycleSlot n requester? changed next).1.events = s.events := by
  rw [cycleSlot]
  split
  · rfl
  · split
    · rw [releaseSlot]
      split
      · exact congrArg Prod.snd (audience_foldl_invalidate _ _)
      · rfl
    · rw [readSlot]

theorem events_takeHook (s : Session) (grammar : String) :
    (s.takeHook grammar).1.events = s.events := by
  rw [takeHook]
  split
  · rfl
  · split <;> rfl

theorem events_resolveRun (s : Session) (run : Run) (next : Continuation .analysis) :
    s.events <:+ (s.resolveRun run next).1.events := by
  rw [resolveRun]
  split
  · exact List.suffix_refl _
  split
  · rw [askFor]
    split
    · exact List.suffix_refl _
    split
    · exact List.suffix_refl _
    · show _ <:+ (takeHook _ _).1.events
      rw [events_takeHook]
      exact List.suffix_cons _ _
  · rw [publish]
    split <;> exact List.suffix_refl _

/-- A step may add to what was told, and takes nothing back. -/
theorem events_step (s : Session) (c : Control) : s.events <:+ (s.step c).1.events := by
  have hsame {l : List Event} (h : l = s.events) : s.events <:+ l := h ▸ List.suffix_refl _
  cases c with
  | perform operation next => exact hsame (events_begin s next operation)
  | refresh n requester? next => exact hsame (events_refreshSlot s n requester? next)
  | cycle n requester? changed next => exact hsame (events_cycleSlot s n requester? changed next)
  | resolve run next => exact events_resolveRun s run next
  | refreshAll ready ids next =>
    cases ids with
    | nil => exact hsame rfl
    | cons id ids =>
      rw [step]
      split <;> exact hsame rfl
  | notify handles next =>
    cases handles with
    | nil => exact hsame rfl
    | cons handle handles => exact List.suffix_cons (.notified handle) s.events
  | script actor script next => cases script <;> exact hsame rfl
  | finished next =>
    cases next with
    | consult id text query next =>
      rw [step, resume]
      split <;> exact hsame rfl
    | _ => exact hsame rfl
  | analysed a next => cases next <;> exact hsame rfl
  | replied r next =>
    cases next with
    | stop => exact hsame rfl
    | script actor operation rest next =>
      exact List.suffix_cons (.performed actor operation r) s.events

theorem Leads.events (h : Leads s c ps s' c') : s.events <:+ s'.events := by
  induction h with
  | refl s c => exact List.suffix_refl _
  | @step s s' c c' ps _ ih => exact (events_step s c).trans ih

/-- The machine goes one way: what a run comes through lies on the way to its reply. -/
theorem Leads.remainder (h : Leads s c ps s₁ c') (h' : Leads s c qs s' (.replied r .stop)) :
    ∃ rest, Leads s₁ c' rest s' (.replied r .stop) := by
  induction h generalizing qs with
  | refl s c => exact ⟨qs, h'⟩
  | @step s s₁ c c' ps _ ih =>
    cases h' with
    | refl => exact ih (.refl s' (.replied r .stop))
    | step h' => exact ih h'

/-- What a document would show if it were analysed from scratch: its symbols, the names in it that
lead nowhere, and its occurrences. -/
def prospect? (s : Session) (id : String) : Option (List Symbol × List Symbol × List Occurrence) :=
  (s.scratch? id 0 0).map fun a => (a.table.symbols, a.unresolved, a.occurrences)

theorem prospect?_of_scratch? {version epoch : Nat} (h : s.scratch? id version epoch = some an) :
    s.prospect? id = some (an.table.symbols, an.unresolved, an.occurrences) := by
  simp only [scratch?, Option.bind_eq_bind, Option.bind_eq_some_iff] at h
  obtain ⟨text, ht, ⟨resolution, asked⟩, hr, han⟩ := h
  obtain rfl := Option.some.inj han
  simp only [prospect?, scratch?, ht, hr, Option.bind_eq_bind, Option.bind_some, Option.map_some,
    Option.pure_def]
  rfl

theorem Standing.prospect?_eq (h : s.Standing ledger) (hh : s.host? = none) (hs : s.Shows id an) :
    s.prospect? id = some (an.table.symbols, an.unresolved, an.occurrences) :=
  prospect?_of_scratch? (h.scratch?_eq hh hs)

theorem prospect?_congr (ht : s'.text? = s.text?) (hset : s'.settings = s.settings) :
    s'.prospect? = s.prospect? := by
  funext id
  rw [prospect?, scratch?_congr ht hset, prospect?]

/-! ## Operations that change a document -/

/-- Whoever is not reached by a change still shows what it did. -/
theorem Shows.replace {t? : Option String} (hs : s.Shows d an) (hr : Replaces s s₁ id t?)
    (hne : d ≠ id) : (s₁.bump []).Shows d an := by
  obtain ⟨n, slot, ho, rfl, hf, hp⟩ := hs
  have ho₁ := (hr.others n slot hne).2 ho
  refine ⟨n, slot, ⟨?_, ho.opened⟩, rfl, hf, hp⟩
  rw [bump, List.getElem?_map, ho₁.get, Option.map_some, Slot.bump_nil]

theorem Shows.heard (hs : s.Shows d an) (handles : List Nat) : (s.heard handles).Shows d an := by
  obtain ⟨n, slot, ho, rfl, hf, hp⟩ := hs
  exact ⟨n, slot, ⟨by rw [heard_slots, ho.get], ho.opened⟩, rfl, hf, hp⟩

/-- The operation has come so far that the document `id` has its new text, or is dropped, and that
whoever draws on it is invalidated. If there are any such documents, all subscribers were told. -/
structure Filed (ledger : List Publication) (s : Session) (operation : Operation) (id : String)
    (s₁ : Session) : Prop where
  standing : s₁.Standing ledger
  settings : s₁.settings = s.settings
  host : s₁.host? = s.host?
  text : s₁.text? = operation.filed s.text?
  changed : s₁.text? id ≠ s.text? id
  leads : ∃ c, Leads s (.perform operation .stop) [] s₁ c
  told : (∃ new, s₁.events = new ++ s.events ∧ ∀ handle ∈ s.subscribers, Event.notified handle ∈ new) ∨
    ∀ d an, d ≠ id → s.Shows d an → s₁.Shows d an

/-- Subscribers are told if anyone was reached; otherwise all others show what they did. -/
theorem told_of_replaces {s₂ : Session} {t? : Option String} {ids : List String}
    (hr : Replaces s s₁ id t?) (hs₂ : s₂ = s₁.bump ids) (ha : s₂.audience = s.audience) :
    (∃ new, (s₂.heard (if !ids.isEmpty then s₂.subscribers else [])).events = new ++ s.events ∧
        ∀ handle ∈ s.subscribers, Event.notified handle ∈ new) ∨
      ∀ d an, d ≠ id → s.Shows d an →
        (s₂.heard (if !ids.isEmpty then s₂.subscribers else [])).Shows d an := by
  have hsubs : s₂.subscribers = s.subscribers := congrArg Prod.fst ha
  have hevents : s₂.events = s.events := congrArg Prod.snd ha
  cases ids with
  | nil =>
    refine .inr fun d an hne hs => Shows.heard ?_ _
    rw [hs₂]
    exact hs.replace hr hne
  | cons id ids =>
    refine .inl ⟨(s.subscribers.map Event.notified).reverse, ?_, fun handle hh => ?_⟩
    · rw [events_heard, hevents, ← hsubs]
      rfl
    · exact List.mem_reverse.2 (List.mem_map_of_mem hh)

theorem Standing.filed_text (h : s.Standing ledger) (hne : s.text? id ≠ some text)
    (hop : operation = .update id text ∨ ∃ query, operation = .query id (some text) query) :
    ∃ s₁, Filed ledger s operation id s₁ := by
  obtain ⟨s₁, hr, hnew, hren⟩ := h.exists_replaces hne
  obtain ⟨-, hs₂, hset, hhost, htext, -, -⟩ := h.rename hne
  have haud := (audience_rename _ id text).trans (audience_setText s id text)
  rw [invalidateReached_eq hr.unique] at hren
  rw [hren] at hs₂ hset hhost htext haud
  have hfiled : operation.filed s.text? = Function.update s.text? id (some text) := by
    rcases hop with rfl | ⟨query, rfl⟩ <;> rfl
  refine ⟨_, hs₂.heard _, (heard_settings _).trans hset, (heard_host? _).trans hhost,
    (text?_heard _).trans (htext.trans hfiled.symm), ?_, ?_, told_of_replaces hr rfl haud⟩
  · rw [text?_heard, htext, Function.update_self]
    exact hne.symm
  · rcases hop with rfl | ⟨query, rfl⟩
    · refine ⟨_, .next ?_ rfl (hs₂.sound.quiet.leads_notifyIf _ (.reply (.flag true) .stop))⟩
      rw [step, begin_update, if_pos hnew, hren]
    · refine ⟨_, .next ?_ rfl (hs₂.sound.quiet.leads_notifyIf _ (.consult id text query .stop))⟩
      rw [step, begin_query, if_pos hnew, hren]

theorem Standing.filed_close (h : s.Standing ledger) (hreg : id ∈ s.documents) :
    ∃ s₁, Filed ledger s (.close id) id s₁ := by
  obtain ⟨n, slot, ho, rfl⟩ := mem_documents.1 hreg
  have hu := h.sound.coherent.unique
  have hr := replaces_drop h.sound.coherent h.sound.quiet ho
  obtain ⟨hs₂, htext⟩ := h.close ho
  have haud : ((s.drop n slot.id).invalidateReached slot.id (s.graph.name? slot.id).toList
      none).1.audience = s.audience := audience_foldl_invalidate _ _
  rw [invalidateReached_eq hr.unique] at hs₂ htext haud
  refine ⟨_, hs₂.heard _, (heard_settings _).trans hr.settings, (heard_host? _).trans hr.host,
    (text?_heard _).trans htext, ?_, ?_, told_of_replaces hr rfl haud⟩
  · rw [text?_heard, htext, Function.update_self, hu.text? ho]
    nofun
  · refine ⟨_, .next ?_ rfl (hs₂.sound.quiet.leads_notifyIf _ (.reply .done .stop))⟩
    rw [step, begin, hu.slotOf? ho]
    simp only [invalidateReached_eq hr.unique]

/-- An operation leaves all texts as they are, or drops all documents, or changes one. -/
theorem Standing.filed_cases (h : s.Standing ledger) (operation : Operation) :
    operation.filed s.text? = s.text? ∨ operation = .reset ∨
      ∃ id s₁, Filed ledger s operation id s₁ := by
  have hpush {id text : String}
      (hop : operation = .update id text ∨ ∃ query, operation = .query id (some text) query) :
      Function.update s.text? id (some text) = s.text? ∨ ∃ id s₁, Filed ledger s operation id s₁ := by
    by_cases hne : s.text? id = some text
    · exact .inl (Function.update_eq_self_iff.2 hne.symm)
    · exact .inr ⟨id, h.filed_text hne hop⟩
  cases operation with
  | update id text => exact (hpush (.inl rfl)).imp_right .inr
  | query id text? query =>
    cases text? with
    | none => exact .inl rfl
    | some text => exact (hpush (.inr ⟨query, rfl⟩)).imp_right .inr
  | close id =>
    by_cases hreg : id ∈ s.documents
    · exact .inr (.inr ⟨id, h.filed_close hreg⟩)
    · rw [mem_documents_iff, Option.not_isSome_iff_eq_none] at hreg
      exact .inl (Function.update_eq_self_iff.2 hreg.symm)
  | reset => exact .inr (.inl rfl)
  | refresh | freshness | documents | subscribe | unsubscribe | settings | summary => exact .inl rfl

theorem change_announced {settings : Settings} (h : Reached settings none ledger s)
    (operation : Operation) (hp : operation.isPassive) :
    ∃ steps r s' new, s.perform steps operation = some (r, s') ∧ s'.events = new ++ s.events ∧
      ∀ d an, s.Shows d an → s'.text? d = s.text? d → s'.prospect? d ≠ s.prospect? d →
        (∀ handle ∈ s.subscribers, Event.notified handle ∈ new) ∧ ¬ s'.Shows d an := by
  obtain ⟨hs, -, hhost⟩ := h.standing
  have hhost : s.host? = none := hhost
  obtain ⟨r, s', hc⟩ := hs.completes operation hp
  obtain ⟨steps, hrun, hs'⟩ := hc.perform
  obtain ⟨ps, hlead, -, hset', hhost', htext'⟩ := hc
  obtain ⟨new, hnew⟩ := hlead.events
  refine ⟨steps, r, s', new, hrun, hnew.symm, fun d an hd hsame hdiff => ⟨?_, fun hd' => hdiff ?_⟩⟩
  · rcases hs.filed_cases operation with hfiled | rfl | ⟨id, s₁, hf⟩
    · exact absurd (congrFun (prospect?_congr (htext'.trans hfiled) hset') d) hdiff
    · have hnone : s'.text? d = none := congrFun htext' d
      rw [hd.text? hs.sound.coherent.unique, hnone] at hsame
      cases hsame
    · obtain ⟨c, hlead₁⟩ := hf.leads
      obtain ⟨rest, hrest⟩ := hlead₁.remainder hlead
      rcases hf.told with ⟨told, htold, hall⟩ | hshows
      · obtain ⟨later, hlater⟩ := hrest.events
        intro handle hh
        have : new = later ++ told := by
          rw [htold, ← List.append_assoc, ← hnew] at hlater
          exact (List.append_cancel_right hlater).symm
        rw [this]
        exact List.mem_append_right _ (hall handle hh)
      · -- Nobody was reached: the document would show what it does show, before and after.
        have hsame₁ : s'.prospect? d = s₁.prospect? d :=
          congrFun (prospect?_congr (htext'.trans hf.text.symm) (hset'.trans hf.settings.symm)) d
        have hne : d ≠ id := by
          rintro rfl
          refine hf.changed ?_
          rw [hf.text, ← htext', hsame]
        rw [hsame₁, hf.standing.prospect?_eq (hf.host.trans hhost) (hshows d an hne hd),
          hs.prospect?_eq hhost hd] at hdiff
        exact absurd rfl hdiff
  · rw [hs'.prospect?_eq (hhost'.trans hhost) hd', hs.prospect?_eq hhost hd]

/-- The import of an import loses the rule to which the fresh document refers. -/
theorem change_announced_distant :
    ∃ ledger s an steps r s' new, Reached {} none ledger s ∧ s.Shows "a.g4" an ∧
      s.subscribers = [0, 1] ∧
      s.perform steps (.query "c.g4" (some "grammar C;\nc : 'c' ;\n") (.count "c")) = some (r, s') ∧
      s'.events = new ++ s.events ∧ s'.prospect? "a.g4" ≠ s.prospect? "a.g4" ∧
      .notified 0 ∈ new ∧ .notified 1 ∈ new ∧ ¬ s'.Shows "a.g4" an := by
  have hend : ∃ x, x ∈ performAll 60 [] (start {} none) [.subscribe [], .subscribe [],
      .update "c.g4" "grammar C;\nb : 'b' ;\n", .update "b.g4" "grammar B;\nimport C;\n",
      .update "a.g4" "grammar A;\nimport B;\na : b ;\n", .query "a.g4" none .diagnostics] ∧
      x.2.slotOf? "a.g4" = some 2 ∧ x.2.freshness? "a.g4" = some .fresh ∧ x.2.subscribers = [0, 1] ∧
      ∃ y, y ∈ x.2.perform 60 (.query "c.g4" (some "grammar C;\nc : 'c' ;\n") (.count "c")) ∧
        y.2.text? "a.g4" = x.2.text? "a.g4" ∧ y.2.prospect? "a.g4" ≠ x.2.prospect? "a.g4" := by
    decide +kernel
  obtain ⟨⟨ledger, s⟩, hs, hn, hf, hsubs, ⟨r, s'⟩, hrun, htext, hdiff⟩ := hend
  have hstart : Reached {} none [] (start {} none) := .start
  have hr := hstart.performAll (by simp [Operation.isPassive]) hs
  obtain ⟨slot, ho, hid, hfresh⟩ := isFresh_of_freshness? hn hf
  obtain ⟨an, han, -⟩ := Slot.isFresh_iff.1 hfresh
  have hshows : s.Shows "a.g4" an := ⟨2, slot, ho, hid, hfresh, han⟩
  obtain ⟨steps, r', s'', new, hrun', hnew, hall⟩ := change_announced hr
    (.query "c.g4" (some "grammar C;\nc : 'c' ;\n") (.count "c")) rfl
  obtain ⟨heq, -⟩ := runFor_unique hrun hrun'
  obtain ⟨rfl, rfl⟩ := Prod.mk.inj heq
  obtain ⟨htold, hgone⟩ := hall "a.g4" an hshows htext hdiff
  have hsubs : s.subscribers = [0, 1] := hsubs
  exact ⟨ledger, s, an, steps, r, s', new, hr, hshows, hsubs, hrun', hnew, hdiff,
    htold 0 (by simp [hsubs]), htold 1 (by simp [hsubs]), hgone⟩

end Session

end GrammarAtlas
