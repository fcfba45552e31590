import GrammarAtlas.Proofs.Completion

/-! # Workers that come one after the other

A refresh whose workers come one after the other is the operation of that name: it ends in the same
state, with the same answers (`Session.Standing.refresh_in_turn`).

While a worker is alone, the machine keeps up with it. It reads a text and records the imports in one
step, and it publishes an analysis in the step in which the names are resolved; so it may be a little
ahead of an errand, or behind (`Session.Meets`). The errands that wait are its continuation. -/

namespace GrammarAtlas

open Session

/-- An analysis under way is made on behalf of whom the errand is for. -/
def Errand.Faces (e : Errand) : Prop := ∀ run, e.stage.run? = some run → run.requester? = e.requester?

/-- What the machine goes on with when an errand is answered that those in `below` wait for. -/
def Errand.next (last : Continuation .analysis) : List Errand → Continuation .analysis
  | [] => last
  | o :: below =>
    match o.stage with
    | .await run g m => .takeTable run g m (next last below)
    | _ => next last below

namespace Session
variable {s s' t t' : Session} {n m : Nat} {slot : Slot} {g : String} {ledger ps : List Publication}
  {e e' : Errand} {below : List Errand} {run : Run} {r : Resolution} {move : Move} {a : Analysis}
  {c c' : Control} {next : Continuation .analysis} {changed : Bool}

/-- Where the machine is while a worker that is alone is on the errand `e`, in the state `s`. -/
def Meets (next : Continuation .analysis) (s : Session) (e : Errand) (t : Session) (c : Control) : Prop :=
  match e.stage with
  | .claim => t = s ∧ c = .refresh e.slot e.requester? next
  | .extract run | .record run => ∃ slot, s.IsOpen e.slot slot ∧ slot.epoch = run.epoch ∧
    t = s.enterImports slot.id (run.table.imports.map Import.grammar) ∧ c = .resolve run next
  | .resolve run | .complete run _ => t = s ∧ c = .resolve run next
  | .publish run _ => (∃ slot, s.IsOpen e.slot slot ∧ slot.epoch = run.epoch) ∧ t = s ∧
    c = .resolve run next
  | .takeTable run g m => t = s ∧ ∃ a, c = .analysed a (.takeTable run g m next)
  | .reread changed => t = s ∧ c = .cycle e.slot e.requester? changed next
  | .inform a => ∃ slot, s.IsOpen e.slot slot ∧
    t = (s.reached slot.id (s.graph.name? slot.id).toList e.requester?).foldl Session.invalidate s ∧
    c = .notify t.subscribers (.deliver a next)
  | .invalidate ids a => t = ids.foldl Session.invalidate s ∧ c = .notify t.subscribers (.deliver a next)
  | .wait | .await _ _ _ => False

/-- Where the machine is after the move of a worker that is alone. -/
def MeetsMove (next : Continuation .analysis) (s : Session) : Move → Session → Control → Prop
  | .stay e, t, c => Meets next s e t c
  | .call e first, t, c => ∃ run g m, e.stage = .await run g m ∧
    Meets (.takeTable run g m next) s first t c
  | .answer a, t, c => t = s ∧ c = .analysed a next

theorem Leads.of_step (h : s.step c = (s', c')) : ∃ ps, Leads s c ps s' c' := by
  have h' : Leads (s.step c).1 (s.step c).2 [] s' c' := by rw [h]; exact .refl s' c'
  exact ⟨_, .step h'⟩

theorem step_cycle_fresh (ho : s.IsOpen n slot) (hf : slot.isFresh = true)
    (requester? : Option String) (changed : Bool) (next : Continuation .analysis) :
    s.step (.cycle n requester? changed next) = s.releaseSlot n slot requester? changed next := by
  simp only [step, cycleSlot, ho.get, hf, Bool.or_true, if_true]

theorem step_cycle_stale (ho : s.IsOpen n slot) (hf : slot.isFresh = false)
    (requester? : Option String) (changed : Bool) (next : Continuation .analysis) :
    s.step (.cycle n requester? changed next) =
      ((s.readSlot n slot requester? changed).1,
        .resolve (s.readSlot n slot requester? changed).2 next) := by
  simp only [step, cycleSlot, ho.get, ho.opened, hf, Bool.or_self, Bool.false_eq_true, if_false]

theorem step_resolve_error (ho : s.IsOpen run.slot slot)
    (hg : Resolution.attempt run.known run.grammar.tree run.table s.settings.warnUnresolved = .error g)
    (next : Continuation .analysis) :
    s.step (.resolve run next) = s.askFor run slot.id g next := by
  simp only [step, resolveRun, ho.get, hg]

section
variable (ho : s.IsOpen run.slot slot)
  (hr : Resolution.attempt run.known run.grammar.tree run.table s.settings.warnUnresolved = .ok r)
include ho hr

theorem step_resolve_idle
    (h : slot.supersedes run.snapshot run.epoch = true ∨ slot.isNewer (run.analysis r) = false)
    (next : Continuation .analysis) :
    s.step (.resolve run next) = (s, .cycle run.slot run.requester? run.changed next) := by
  have hidle : (slot.supersedes run.snapshot run.epoch || !slot.isNewer (run.analysis r)) = true := by
    simpa using h
  simp only [step, resolveRun, ho.get, hr, publish]
  exact if_pos hidle

theorem step_resolve_publish (hsup : slot.supersedes run.snapshot run.epoch = false)
    (hnew : slot.isNewer (run.analysis r) = true) (next : Continuation .analysis) :
    s.step (.resolve run next) = (s.modifySlot run.slot (·.publish (run.analysis r)),
      .cycle run.slot run.requester? (run.changed || slot.showsChange (run.analysis r)) next) := by
  have hgo : ¬ (slot.supersedes run.snapshot run.epoch || !slot.isNewer (run.analysis r)) = true := by
    simp [hsup, hnew]
  simp only [step, resolveRun, ho.get, hr, publish]
  exact if_neg hgo

end

/-- The machine keeps up with a worker that is alone. -/
theorem Proceeds.meets (hp : Proceeds s e ps s' move) (h : s.InHand ledger (e :: below))
    (hc : e.CalledFrom s below) (hface : e.Faces) (hm : Meets next s e t c) :
    ∃ qs t' c', Leads t c qs t' c' ∧ MeetsMove next s' move t' c' := by
  induction hp generalizing ledger t c with
  | @answer s e b hs hb hd =>
    rcases hs with hs | hs <;> simp only [Meets, hs] at hm
    obtain ⟨rfl, rfl⟩ := hm
    exact ⟨[], t, _, leads_done hb (hd.symm.imp And.left id), rfl, rfl⟩
  | @wait s e b hs hb hf hp hr =>
    -- Nobody else is there that could have the slot in flight.
    obtain rfl := hc.eq_nil hr
    have hheld := h.held e.slot b hb.get
    simp [Errand.holders, hs, Stage.holds, hf] at hheld
  | @takeUp s e b hs hb hfresh hf =>
    rcases hs with hs | hs <;> simp only [Meets, hs] at hm
    obtain ⟨rfl, rfl⟩ := hm
    refine ⟨[], _, _, leads_takeUp hb hf hfresh, ?_⟩
    have hread := t.readSlot_eq e.slot b e.requester?
    exact ⟨_, ⟨(getElem?_hold hb).2 (.inl ⟨rfl, rfl⟩), hb.opened⟩, rfl, (congrArg Prod.fst hread).symm,
      congrArg (Control.resolve · next) (congrArg Prod.snd hread).symm⟩
  | @overtaken s e b run hs hb he =>
    obtain ⟨slot, ho, hfits⟩ := h.carries e (.head _)
    rcases hs with hs | ⟨r, hs⟩ <;> simp only [Meets, Fits, hs] at hm hfits
    · obtain ⟨d, hd, hepoch, -⟩ := hm
      exact absurd (hb.eq hd ▸ hepoch) he
    · obtain ⟨rfl, rfl⟩ := hm
      obtain rfl := hb.eq ho
      have hplace := hfits.1.place
      have hstep := step_resolve_idle (hplace ▸ hb) hfits.2
        (.inl ((supersedes_iff hb hfits.1.toReads).2 he)) next
      rw [hplace, hface run (by rw [hs]; rfl)] at hstep
      obtain ⟨qs, hl⟩ := Leads.of_step hstep
      exact ⟨qs, _, _, hl, rfl, rfl⟩
  | @keep s e run hs =>
    simp only [Meets, hs] at hm
    exact ⟨[], t, c, .refl .., hm⟩
  | @record s e b run hs hb =>
    simp only [Meets, hs] at hm
    obtain ⟨a, ha, -, rfl, rfl⟩ := hm
    rw [hb.eq ha]
    exact ⟨[], _, _, .refl .., rfl, rfl⟩
  | @call s e b run g m hs hb ha =>
    obtain ⟨slot, ho, hfits⟩ := h.carries e (.head _)
    simp only [Meets, Fits, hs] at hm hfits
    obtain ⟨rfl, rfl⟩ := hm
    obtain rfl := hb.eq ho
    have hsource : ((t.graph.provider? g).filter (· != b.id)).bind t.slotOf? = some m := ha.source
    have hstep := step_resolve_error (hfits.place ▸ hb) ha.attempt next
    simp only [askFor, hsource] at hstep
    obtain ⟨qs, hl⟩ := Leads.of_step hstep
    exact ⟨qs, _, _, hl, run, g, m, rfl, rfl, rfl⟩
  | @learnNone s e b run g hs hb hg hsource =>
    obtain ⟨slot, ho, hfits⟩ := h.carries e (.head _)
    simp only [Meets, Fits, hs] at hm hfits
    obtain ⟨rfl, rfl⟩ := hm
    obtain rfl := hb.eq ho
    have hnone : ((t.graph.provider? g).filter (· != b.id)).bind t.slotOf? = none := hsource
    have hstep := step_resolve_error (hfits.place ▸ hb) hg next
    simp only [askFor, hnone, h.host] at hstep
    obtain ⟨qs, hl⟩ := Leads.of_step hstep
    exact ⟨qs, _, _, hl, rfl, rfl⟩
  | @resolved s e run r hs hr =>
    simp only [Meets, hs] at hm
    exact ⟨[], t, c, .refl .., hm⟩
  | @takeTable s e run g m hs =>
    simp only [Meets, hs] at hm
    obtain ⟨rfl, a, rfl⟩ := hm
    exact ⟨[], t, _, .one rfl rfl, rfl, rfl⟩
  | @completed s e b run r hs hb he =>
    simp only [Meets, hs] at hm
    exact ⟨[], t, c, .refl .., ⟨b, hb, he⟩, hm⟩
  | @publish s s' e b run r move hs hb hnew hp ih =>
    obtain ⟨slot, ho, hfits⟩ := h.carries e (.head _)
    simp only [Meets, Fits, hs] at hm hfits
    obtain ⟨⟨d, hd, hepoch⟩, rfl, rfl⟩ := hm
    obtain rfl := hb.eq hd
    obtain rfl := hb.eq ho
    have hplace := hfits.1.place
    have hsup : b.supersedes run.snapshot run.epoch = false := by
      rw [Bool.eq_false_iff, Ne, supersedes_iff hb hfits.1.toReads]
      exact not_not.2 hepoch
    have hstep := step_resolve_publish (hplace ▸ hb) hfits.2 hsup hnew next
    rw [hplace, hface run (by rw [hs]; rfl)] at hstep
    obtain ⟨qs, hl⟩ := Leads.of_step hstep
    obtain ⟨qs', t', c', hl', hm⟩ := ih (h.publish hs hb) ((hc.same (sameDocuments_publish ..)).restage _)
      (fun _ hr => by cases hr) ⟨rfl, rfl⟩
    exact ⟨_, t', c', hl.trans hl', hm⟩
  | @discard s s' e b run r move hs hb hold hp ih =>
    obtain ⟨slot, ho, hfits⟩ := h.carries e (.head _)
    simp only [Meets, Fits, hs] at hm hfits
    obtain ⟨-, rfl, rfl⟩ := hm
    obtain rfl := hb.eq ho
    have hplace := hfits.1.place
    have hstep := step_resolve_idle (hplace ▸ hb) hfits.2 (.inr hold) next
    rw [hplace, hface run (by rw [hs]; rfl)] at hstep
    obtain ⟨qs, hl⟩ := Leads.of_step hstep
    obtain ⟨qs', t', c', hl', hm⟩ :=
      ih (h.discard hs) (hc.restage _) (fun _ hr => by cases hr) ⟨rfl, rfl⟩
    exact ⟨_, t', c', hl.trans hl', hm⟩
  | @answerFresh s e b hs hb hf =>
    simp only [Meets, hs] at hm
    obtain ⟨rfl, rfl⟩ := hm
    exact ⟨[], _, _, .one (step_cycle_fresh hb hf ..) rfl, rfl, rfl⟩
  | @informFresh s e b hs hb hf =>
    simp only [Meets, hs] at hm
    obtain ⟨rfl, rfl⟩ := hm
    refine ⟨[], _, _, .one (step_cycle_fresh hb hf ..) rfl, ?_⟩
    exact ⟨_, ⟨(getElem?_letGo hb).2 (.inl ⟨rfl, rfl⟩), hb.opened⟩, rfl, rfl⟩
  | @beginAgain s e b changed hs hb hf =>
    simp only [Meets, hs] at hm
    obtain ⟨rfl, rfl⟩ := hm
    exact ⟨[], _, _, .one (step_cycle_stale hb hf ..) rfl, b, ⟨hb.get, hb.opened⟩, rfl, rfl, rfl⟩
  | @inform s e b a ids hs hb hids =>
    simp only [Meets, hs] at hm
    obtain ⟨d, hd, rfl, rfl⟩ := hm
    rw [hids, hb.eq hd]
    exact ⟨[], _, _, .refl .., rfl, rfl⟩
  | @invalidate s e id ids a hs =>
    simp only [Meets, hs, List.foldl_cons, invalidate_eq h.coherent.unique] at hm
    exact ⟨[], t, c, .refl .., hm⟩
  | @announce s e a hs =>
    simp only [Meets, hs, List.foldl_nil] at hm
    obtain ⟨rfl, rfl⟩ := hm
    refine ⟨_, _, _, (h.quiet.leads_notify t.subscribers (.deliver a next)).trans (.one rfl rfl), ?_⟩
    exact ⟨announce_eq_heard t ▸ rfl, rfl⟩

theorem Proceeds.faces (hp : Proceeds s e ps s' move) (hf : e.Faces) : ∀ o ∈ move.errands, o.Faces := by
  induction hp with
  | publish _ _ _ _ ih | discard _ _ _ _ ih => exact ih fun _ hr => by cases hr
  | takeUp | beginAgain =>
    intro o ho run hr
    obtain rfl := List.mem_singleton.1 ho
    obtain rfl := Option.some.inj hr
    rfl
  | @keep s e run hs | @record s e slot run hs | @resolved s e run r hs | @completed s e slot run r hs
  | @learnNone s e slot run g hs | @takeTable s e run g m hs =>
    intro o ho run' hr
    obtain rfl := List.mem_singleton.1 ho
    obtain rfl := Option.some.inj hr
    exact hf run (by rw [hs]; rfl)
  | call hs _ _ =>
    intro o ho run hr
    obtain rfl | rfl := by simpa [Move.errands] using ho
    · cases hr
    · obtain rfl := Option.some.inj hr
      exact hf _ (by rw [hs]; rfl)
  | answer | answerFresh | announce => exact fun o ho => absurd ho List.not_mem_nil
  | wait | overtaken | informFresh | inform | invalidate =>
    intro o ho run hr
    obtain rfl := List.mem_singleton.1 ho
    cases hr

end Session

namespace Worker
variable {s s' t : Session} {ledger ps : List Publication} {e : Errand} {below : List Errand} {move : Move}
  {c : Control} {last : Continuation .analysis}

/-- Where the machine is when the worker `w` is alone, in the state `s`. Once the worker has an answer,
the machine goes on with `last`. -/
def Meets (last : Continuation .analysis) (s : Session) (w : Worker) (t : Session) (c : Control) : Prop :=
  match w with
  | busy e below => (∀ o ∈ e :: below, o.Faces) ∧ s.Meets (Errand.next last below) e t c
  | done (.ok a) => t = s ∧ c = .analysed a last
  | idle _ | done (.error _) => False

theorem meets_follow (hp : Proceeds s e ps s' move) (h : s.InHand ledger (e :: below))
    (hc : e.CalledFrom s below) (hm : (busy e below).Meets last s t c) :
    ∃ qs t' c', Session.Leads t c qs t' c' ∧ (follow below move).Meets last s' t' c' := by
  obtain ⟨hfaces, hm⟩ := hm
  have hnew := hp.faces (hfaces e (.head _))
  obtain ⟨qs, t', c', hl, hm'⟩ := hp.meets h hc (hfaces e (.head _)) hm
  refine ⟨qs, t', c', hl, ?_⟩
  rcases hp.cases_move with ⟨stage, -, rfl⟩ | ⟨run, g, m, slot, -, -, -, -, rfl⟩ | ⟨a, rfl⟩
  · exact ⟨List.forall_mem_cons.2 ⟨hnew _ (.head _), fun o ho => hfaces o (.tail _ ho)⟩, hm'⟩
  · obtain ⟨run', g', m', hs, hm'⟩ := hm'
    refine ⟨List.forall_mem_cons.2 ⟨hnew _ (.head _), List.forall_mem_cons.2
      ⟨hnew _ (.tail _ (.head _)), fun o ho => hfaces o (.tail _ ho)⟩⟩, ?_⟩
    obtain ⟨rfl, rfl, rfl⟩ := Stage.await.inj hs
    exact hm'
  · obtain ⟨rfl, rfl⟩ := hm'
    cases below with
    | nil => exact ⟨rfl, rfl⟩
    | cons o below =>
      obtain ⟨⟨run, g, slot, hs, -⟩, -⟩ := hc
      simp only [follow, resume, hs, Errand.next]
      refine ⟨List.forall_mem_cons.2 ⟨fun run' hr => ?_, fun x hx => hfaces x (.tail _ (.tail _ hx))⟩,
        rfl, a, rfl⟩
      exact hfaces o (.tail _ (.head _)) run' (by rw [hs]; exact hr)

end Worker

namespace Pool
variable {p p' : Pool} {s₀ : Session} {ids : List String} {ledger : List Publication}

theorem first_of_goOn (h : p.goOn = some p') :
    ∃ i, p.take (.go i) = some p' ∧ ∀ j < i, p.take (.go j) = none := by
  obtain ⟨l, i, r, hrange, ht, hno⟩ := List.findSome?_eq_some_iff.1 h
  refine ⟨i, ht, fun j hj => hno j ?_⟩
  have hsorted := hrange ▸ List.pairwise_lt_range (n := p.workers.length)
  have hi : i < p.workers.length := List.mem_range.1 (by rw [hrange]; simp)
  have hmem : j ∈ l ++ i :: r := hrange ▸ List.mem_range.2 (hj.trans hi)
  rcases List.mem_append.1 hmem with hl | hr
  · exact hl
  · rcases List.mem_cons.1 hr with rfl | hr
    · exact absurd hj (Nat.lt_irrefl _)
    · exact absurd hj (Nat.lt_asymm ((List.pairwise_cons.1 (List.pairwise_append.1 hsorted).2.1).1 j hr))

/-- The first worker that can go on comes behind those that have an answer. -/
theorem take_of_goOn {results : List (Except String Analysis)} {w : Worker} {rest : List Worker}
    (hw : p.workers = results.map .done ++ w :: rest) (hgo : p.goOn = some p')
    (hcan : p.take (.go results.length) ≠ none) :
    p.take (.go results.length) = some p' := by
  obtain ⟨i, ht, hno⟩ := first_of_goOn hgo
  rcases Nat.lt_trichotomy i results.length with hi | rfl | hi
  · have hdone : p.workers[i]? = some (.done results[i]) := by
      rw [hw, List.getElem?_append_left (by simpa using hi), List.getElem?_map,
        List.getElem?_eq_getElem hi]
      rfl
    simp [Pool.take, hdone, Worker.work] at ht
  · exact ht
  · exact absurd (hno _ hi) hcan

theorem getElem?_workers {results : List (Except String Analysis)} {w : Worker} {rest : List Worker}
    (hw : p.workers = results.map .done ++ w :: rest) : p.workers[results.length]? = some w := by
  rw [hw, List.getElem?_append_right (by simp)]
  simp

theorem set_workers {results : List (Except String Analysis)} {w : Worker} {rest : List Worker}
    (hw : p.workers = results.map .done ++ w :: rest) (w' : Worker) :
    p.workers.set results.length w' = results.map .done ++ w' :: rest := by
  rw [hw, List.set_append_right _ _ (by simp)]
  simp

theorem errands_eq {results : List (Except String Analysis)} {w : Worker} {back : List String}
    (hw : p.workers = results.map .done ++ w :: back.map .idle) : p.errands = w.errands := by
  have hdone : (results.map Worker.done).flatMap Worker.errands = [] := by
    simp [List.flatMap_eq_nil_iff, Worker.errands]
  have hidle : (back.map Worker.idle).flatMap Worker.errands = [] := by
    simp [List.flatMap_eq_nil_iff, Worker.errands]
  rw [errands, hw, List.flatMap_append, List.flatMap_cons, hdone, hidle, List.append_nil,
    List.nil_append]

/-- The workers have come one after the other, and the machine has kept up with them. -/
inductive InTurn (s₀ : Session) (ids : List String) (p : Pool) : Prop
  | between {results : List (Except String Analysis)} {back : List String} {qs : List Publication}
      (hw : p.workers = results.map .done ++ back.map .idle)
      (hl : Session.Leads s₀ (.refreshAll [] ids .stop) qs p.session (.refreshAll results back .stop)) :
      InTurn s₀ ids p
  | during {results : List (Except String Analysis)} {back : List String} {qs : List Publication}
      {e : Errand} {below : List Errand} {t : Session} {c : Control}
      (hw : p.workers = results.map .done ++ .busy e below :: back.map .idle)
      (hl : Session.Leads s₀ (.refreshAll [] ids .stop) qs t c)
      (hm : (Worker.busy e below).Meets (.refreshRest results back .stop) p.session t c) :
      InTurn s₀ ids p

theorem InTurn.start (s : Session) (ids : List String) : (Pool.start s ids).InTurn s ids :=
  .between (List.nil_append _).symm (.refl ..)

theorem inTurn_of_result {results : List (Except String Analysis)} {back : List String} {s : Session}
    {result : Except String Analysis} {qs : List Publication}
    (hl : Session.Leads s₀ (.refreshAll [] ids .stop) qs s (.refreshAll (results ++ [result]) back .stop)) :
    InTurn s₀ ids ⟨s, results.map .done ++ .done result :: back.map .idle⟩ := by
  have hw : results.map Worker.done ++ .done result :: back.map .idle =
      (results ++ [result]).map .done ++ back.map .idle := by
    simp only [List.map_append, List.map_cons, List.map_nil, List.append_assoc, List.cons_append,
      List.nil_append]
  exact .between hw hl

theorem inTurn_of_worker {results : List (Except String Analysis)} {back : List String} {s t : Session}
    {w : Worker} {c : Control} {qs : List Publication}
    (hl : Session.Leads s₀ (.refreshAll [] ids .stop) qs t c)
    (hm : w.Meets (.refreshRest results back .stop) s t c) :
    InTurn s₀ ids ⟨s, results.map .done ++ w :: back.map .idle⟩ := by
  cases w with
  | idle => exact hm.elim
  | busy e below => exact .during rfl hl hm
  | done result =>
    cases result with
    | error => exact hm.elim
    | ok a =>
      obtain ⟨rfl, rfl⟩ := hm
      exact inTurn_of_result (hl.trans (.one rfl rfl))

theorem InTurn.goOn (h : p.InTurn s₀ ids) (hp : p.InHand ledger) (hgo : p.goOn = some p') :
    p'.InTurn s₀ ids := by
  cases h with
  | @between results back qs hw hl =>
    cases back with
    | nil =>
      have hdone : p.Done := by
        intro w hmem
        rw [hw, List.map_nil, List.append_nil] at hmem
        obtain ⟨r, -, rfl⟩ := List.mem_map.1 hmem
        rfl
      rw [hp.goOn_eq_none.2 hdone] at hgo
      cases hgo
    | cons id back =>
      have hcan : p.take (.go results.length) ≠ none := by
        cases hn : p.session.slotOf? id <;> simp [Pool.take, getElem?_workers hw, Worker.work, hn]
      obtain ⟨w, s, w', hget, hwork, rfl⟩ := take_go_eq_some (take_of_goOn hw hgo hcan)
      obtain rfl := Option.some.inj (hget.symm.trans (getElem?_workers hw))
      obtain ⟨rfl, -⟩ := hp.take_idle hget hwork
      rw [set_workers hw]
      rw [Worker.work] at hwork
      split at hwork <;> rename_i hn <;> obtain ⟨-, rfl⟩ := Prod.mk.inj (Option.some.inj hwork)
      · refine inTurn_of_result (hl.trans (.one ?_ rfl))
        simp only [step, hn]
      · rename_i n
        have hstep : p.session.step (.refreshAll results (id :: back) .stop) =
            (p.session, .refresh n none (.refreshRest results back .stop)) := by
          simp only [step, hn]
        refine inTurn_of_worker (hl.trans (.one hstep rfl)) ⟨fun o ho run hr => ?_, rfl, rfl⟩
        rw [List.mem_singleton.1 ho] at hr
        cases hr
  | @during results back qs e below t c hw hl hm =>
    have herrands : p.errands = e :: below := errands_eq hw
    -- There is nobody else to wait for.
    have hcan : p.take (.go results.length) ≠ none := fun hno => by
      obtain ⟨rfl, hwait, o, hmem, hholds⟩ := hp.stuck (getElem?_workers hw) hno
      rw [herrands, List.mem_singleton] at hmem
      rw [hmem, hwait] at hholds
      cases hholds
    obtain ⟨w, s, w', hget, hwork, rfl⟩ := take_go_eq_some (take_of_goOn hw hgo hcan)
    obtain rfl := Option.some.inj (hget.symm.trans (getElem?_workers hw))
    obtain ⟨move, hproc, rfl, -, -, hc⟩ := hp.proceeds hget hwork
    obtain ⟨qs', t', c', hl', hm'⟩ := Worker.meets_follow hproc (herrands ▸ hp.session) hc hm
    rw [set_workers hw]
    exact inTurn_of_worker (hl.trans hl') hm'

theorem InTurn.leads {results : List (Except String Analysis)} (h : p.InTurn s₀ ids)
    (hw : p.workers = results.map .done) :
    ∃ qs, Session.Leads s₀ (.refreshAll [] ids .stop) qs p.session (.replied (.refreshed results) .stop) := by
  have hdone : ∀ w ∈ p.workers, ∃ r, .done r = w := by
    intro w hmem
    obtain ⟨r, -, hr⟩ := List.mem_map.1 (hw ▸ hmem)
    exact ⟨r, hr⟩
  cases h with
  | @between results' back qs hw' hl =>
    cases back with
    | nil =>
      have heq : results' = results := by
        refine List.map_injective_iff.2 (fun a b => Worker.done.inj) ?_
        rw [← hw, hw', List.map_nil, List.append_nil]
      exact ⟨_, heq ▸ hl.trans (.one rfl rfl)⟩
    | cons id back =>
      obtain ⟨r, hr⟩ := hdone (.idle id) (by simp [hw'])
      cases hr
  | @during results' back qs e below t c hw' hl hm =>
    obtain ⟨r, hr⟩ := hdone (.busy e below) (by simp [hw'])
    cases hr

end Pool

end GrammarAtlas
