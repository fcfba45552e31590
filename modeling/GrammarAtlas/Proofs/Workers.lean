import GrammarAtlas.Proofs.Operations
import GrammarAtlas.Proofs.Progress
import Mathlib.Data.List.Perm.Basic

/-! # Workers that take turns

What the errands of all workers owe to a session holds whoever takes the next turn
(`Pool.InHand.take`). For that, the errands of a worker have to be stacked: each one was begun for the
next one below, which waits for it. Between two operations there are no errands, and what is left is
that the session is standing (`Session.Standing.inHand`, `Session.InHand.standing`). -/

namespace GrammarAtlas

open Session

namespace Errand
variable {s s' : Session} {e e' o : Errand} {below : List Errand} {id : String}

/-- The errand does not wait for another one. -/
def IsFirst (e : Errand) : Prop := ∀ run g m, e.stage ≠ .await run g m

/-- The errand was begun for the nearest of those below, which waits for it, and that one in the same
way, down to an errand that was begun for nobody. -/
def CalledFrom (s : Session) (e : Errand) : List Errand → Prop
  | [] => e.requester? = none
  | o :: below => (∃ run g slot, o.stage = .await run g e.slot ∧ s.IsOpen o.slot slot ∧
      e.requester? = some slot.id) ∧ o.CalledFrom s below

theorem CalledFrom.same (h : SameDocuments s s') (hc : e.CalledFrom s below) :
    e.CalledFrom s' below := by
  induction below generalizing e with
  | nil => exact hc
  | cons o below ih =>
    obtain ⟨⟨run, g, slot, hs, ho, hr⟩, hb⟩ := hc
    obtain ⟨slot', ho', htag⟩ := ho.of_tag h.tags
    exact ⟨⟨run, g, slot', hs, ho', by rw [hr, show slot'.id = slot.id from congrArg (·.1) htag]⟩, ih hb⟩

theorem CalledFrom.restage (hc : e.CalledFrom s below) (stage : Stage) :
    { e with stage }.CalledFrom s below := by
  cases below with
  | nil => exact hc
  | cons o below => exact hc

/-- Whoever was asked for on behalf of a document is waited for by an errand about that. -/
theorem CalledFrom.exists_await (hc : e.CalledFrom s below) (ho : o ∈ e :: below)
    (hr : o.requester? = some id) :
    ∃ x ∈ below, ¬ x.IsFirst ∧ ∃ slot, s.IsOpen x.slot slot ∧ slot.id = id := by
  induction below generalizing e with
  | nil =>
    obtain rfl := List.mem_singleton.1 ho
    cases hr.symm.trans hc
  | cons x below ih =>
    obtain ⟨⟨run, g, slot, hs, hopen, hreq⟩, hb⟩ := hc
    rcases List.mem_cons.1 ho with rfl | ho
    · refine ⟨x, .head _, fun hfirst => hfirst _ _ _ hs, slot, hopen, ?_⟩
      exact Option.some.inj (hreq.symm.trans hr)
    · obtain ⟨y, hy, hw⟩ := ih hb ho
      exact ⟨y, .tail _ hy, hw⟩

theorem CalledFrom.eq_nil (hc : e.CalledFrom s below) (hr : e.requester? = none) : below = [] := by
  cases below with
  | nil => rfl
  | cons o below =>
    obtain ⟨⟨_, _, _, -, -, hr'⟩, -⟩ := hc
    cases hr.symm.trans hr'

theorem holds_of_not_isFirst (h : ¬ e.IsFirst) : e.stage.holds = true := by
  simp only [IsFirst, not_forall, not_not] at h
  obtain ⟨run, g, m, hs⟩ := h
  rw [hs]
  rfl

end Errand

namespace Worker

/-- The errands of a worker, the one that it is on first. -/
def errands : Worker → List Errand
  | busy e below => e :: below
  | idle _ | done _ => []

/-- The worker is on an errand that all its other errands wait for. -/
def Stacked (s : Session) : Worker → Prop
  | busy e below => e.IsFirst ∧ e.CalledFrom s below
  | idle _ | done _ => True

variable {s s' : Session} {w : Worker} {a : Analysis} {e : Errand} {below : List Errand} {move : Move}
  {ps : List Publication}

theorem Stacked.same (h : SameDocuments s s') (hw : w.Stacked s) : w.Stacked s' := by
  cases w with
  | busy e below => exact ⟨hw.1, hw.2.same h⟩
  | idle | done => trivial

theorem stacked_resume (hc : e.CalledFrom s below) (a : Analysis) : (resume a below).Stacked s := by
  cases below with
  | nil => trivial
  | cons o below =>
    obtain ⟨⟨run, g, slot, hs, -⟩, hb⟩ := hc
    simp only [resume, hs]
    exact ⟨by simp [Errand.IsFirst], hb.restage _⟩

theorem stacked_follow (hp : s.Proceeds e ps s' move) (h : SameDocuments s s')
    (hc : e.CalledFrom s below) : (follow below move).Stacked s' := by
  rcases hp.cases_move with ⟨stage, hfirst, rfl⟩ | ⟨run, g, m, slot, -, ho, -, rfl, rfl⟩ | ⟨a, rfl⟩
  · exact ⟨hfirst, (hc.same h).restage stage⟩
  · exact ⟨by simp [Errand.IsFirst], ⟨run, g, slot, rfl, ho, rfl⟩, hc.restage _⟩
  · exact stacked_resume (hc.same h) a

end Worker

namespace Session
variable {s s' : Session} {ledger ps : List Publication} {e : Errand} {es below rest : List Errand}
  {move : Move} {a : Analysis} {m : Nat}

/-- Whoever an errand in `es` was begun for is waited for in `es`. -/
def Answerable (s : Session) (es : List Errand) : Prop :=
  ∀ o ∈ es, ∀ id, o.requester? = some id →
    ∃ x ∈ es, ¬ x.IsFirst ∧ ∃ slot, s.IsOpen x.slot slot ∧ slot.id = id

theorem Answerable.ne_requester (ha : s.Answerable (e :: es)) (h : s.InHand ledger (e :: es))
    (hfirst : e.IsFirst) (hholds : e.stage.holds = true) {slot : Slot} (ho : s.IsOpen e.slot slot) :
    ∀ o ∈ es, o.requester? ≠ some slot.id := by
  intro o hmem hreq
  obtain ⟨x, hx, hxf, b, hb, hid⟩ := ha o (.tail _ hmem) slot.id hreq
  rcases List.mem_cons.1 hx with rfl | hx
  · exact hxf hfirst
  · refine h.ne_of_holds hholds x hx (Errand.holds_of_not_isFirst hxf) ?_
    rw [h.coherent.unique hb ho hid]

namespace InHand

/-- The answer of an errand is taken by the one that waits for it. -/
theorem resume_below (h : s.InHand ledger (below ++ rest)) (hc : e.CalledFrom s below)
    (hm : ∀ b, s.IsOpen e.slot b → b.inFlight = true ∨ ¬ b.Dirty) (a : Analysis) :
    s.InHand ledger ((Worker.resume a below).errands ++ rest) := by
  cases below with
  | nil => exact h
  | cons o below =>
    obtain ⟨⟨run, g, slot, hs, -⟩, -⟩ := hc
    simp only [Worker.resume, hs]
    exact h.resume hs hm

theorem follow (hp : Proceeds s e ps s' move) (h : s.InHand ledger (e :: (below ++ rest)))
    (ha : s.Answerable (e :: (below ++ rest))) (hfirst : e.IsFirst) (hc : e.CalledFrom s below) :
    s'.InHand (ledger ++ ps) ((Worker.follow below move).errands ++ rest) := by
  have h' := h.proceed hp fun run g m hs slot ho =>
    ha.ne_requester h hfirst (by rw [hs]; rfl) ho
  cases move with
  | stay e' => exact h'
  | call e' first => exact h'
  | answer a =>
    have h' : s'.InHand (ledger ++ ps) (below ++ rest) := h'
    exact h'.resume_below (hc.same (hp.sameDocuments h)) (fun b hb => hp.settled h hb) a

end InHand

/-- An errand that cannot go on waits for the first analysis of its document. -/
theorem InHand.advance_eq_none (h : s.InHand ledger (e :: es)) (hfirst : e.IsFirst)
    (ha : s.advance e = none) :
    e.stage = .wait ∧ e.requester? = none ∧ ∃ slot, s.IsOpen e.slot slot ∧ slot.inFlight = true := by
  obtain ⟨slot, ho, hf⟩ := h.carries e (.head _)
  rw [advance, ho.get, Option.bind_eq_bind, Option.bind_some] at ha
  split at ha <;> rename_i hs <;> first | cases ha | skip
  · rw [Fits, hs] at hf
    split at ha
    · rename_i hwait
      exact ⟨hs, hf, slot, ho, by simpa using (Bool.and_eq_true_iff.1 (Bool.and_eq_true_iff.1 hwait).1).1⟩
    · cases ha
  · exact absurd hs (hfirst _ _ _)

theorem Standing.inHand (h : s.Standing ledger) (hh : s.host? = none) : s.InHand ledger [] := by
  refine ⟨h.sound.coherent, h.sound.quiet, hh, h.sound.orderly, fun n slot hs => ?_,
    fun n slot a ho ha => .inl (h.sound.noted n slot a ho ha (h.atRest.isOpen ho)), h.sound.published,
    nofun, fun n slot p ho hf hl => ?_⟩
  · rw [h.atRest slot (List.mem_of_getElem? hs)]
    rfl
  · exact .inr ((h.sound.backed n slot p ho hf (h.atRest.isOpen ho) hl).resolve_left
      h.atRest.not_pending)

theorem InHand.standing (h : s.InHand ledger []) : s.Standing ledger := by
  have hrest : s.AtRest := by
    intro slot hs
    obtain ⟨n, hn⟩ := List.getElem?_of_mem hs
    have := h.held n slot hn
    cases hf : slot.inFlight with
    | false => rfl
    | true => rw [hf] at this; cases this
  have hnoted : ∀ n slot a, s.IsOpen n slot → slot.published? = some a →
      s.graph.importsOf slot.id = a.table.importNames := by
    intro n slot a ho ha
    refine (h.noted n slot a ho ha).resolve_right fun hr => ?_
    rw [hrest.isOpen ho] at hr
    cases hr.1
  refine ⟨⟨h.coherent, h.quiet, h.orderly, fun n slot ho hc => ?_,
    fun n slot a ho ha _ => hnoted n slot a ho ha, h.published, fun n slot p ho hf _ hl => ?_⟩, hrest⟩
  · rw [hrest.isOpen ho] at hc
    obtain ⟨a, ha, hl⟩ := hc.resolve_left Bool.false_ne_true
    rw [Recorded, hnoted n slot a ho ha, (h.orderly n slot ho).table a ha, hl]
  · refine .inr ((h.backed n slot p ho hf hl).resolve_left fun hw => ?_)
    obtain ⟨o, hmem, -⟩ := hw
    cases hmem

end Session

namespace Pool
variable {p p' : Pool} {ledger ps : List Publication} {w w' : Worker} {i : Nat} {turn : Pool.Turn}

def errands (p : Pool) : List Errand := p.workers.flatMap Worker.errands

structure InHand (ledger : List Publication) (p : Pool) : Prop where
  session : p.session.InHand ledger p.errands
  stacked : ∀ w ∈ p.workers, w.Stacked p.session

/-- The errands of all workers but one. -/
def others (p : Pool) (i : Nat) : List Errand := (p.workers.eraseIdx i).flatMap Worker.errands

theorem perm_errands (hw : p.workers[i]? = some w) : p.errands.Perm (w.errands ++ p.others i) := by
  obtain ⟨hi, rfl⟩ := List.getElem?_eq_some_iff.1 hw
  exact (List.getElem_cons_eraseIdx_perm hi).symm.flatMap fun _ _ => .refl _

theorem perm_errands_set (hw : p.workers[i]? = some w) (s : Session) (w' : Worker) :
    (w'.errands ++ p.others i).Perm (errands ⟨s, p.workers.set i w'⟩) := by
  obtain ⟨hi, -⟩ := List.getElem?_eq_some_iff.1 hw
  exact (List.set_perm_cons_eraseIdx hi w').symm.flatMap fun _ _ => .refl _

namespace InHand

theorem answerable (h : p.InHand ledger) : p.session.Answerable p.errands := by
  intro o ho id hr
  obtain ⟨w, hw, ho⟩ := List.mem_flatMap.1 ho
  have hstacked := h.stacked w hw
  cases w with
  | idle | done => cases ho
  | busy e below =>
    obtain ⟨x, hx, hwait⟩ := hstacked.2.exists_await ho hr
    exact ⟨x, List.mem_flatMap.2 ⟨_, hw, .tail _ hx⟩, hwait⟩

/-- A turn of a worker that leaves the documents as they are. -/
theorem set (h : p.InHand ledger) (hw : p.workers[i]? = some w) {s : Session}
    (hsame : SameDocuments p.session s) (hstacked : w'.Stacked s)
    (hs : s.InHand (ledger ++ ps) (w'.errands ++ p.others i)) :
    InHand (ledger ++ ps) ⟨s, p.workers.set i w'⟩ := by
  refine ⟨hs.perm (perm_errands_set hw s w'), fun x hx => ?_⟩
  rcases List.mem_or_eq_of_mem_set hx with hx | rfl
  · exact (h.stacked x hx).same hsame
  · exact hstacked

/-- A worker that begins is on an errand for nobody but itself. -/
theorem take_idle {id : String} {s : Session} (h : p.InHand ledger)
    (hw : p.workers[i]? = some (.idle id)) (ht : (Worker.idle id).work p.session = some (s, w')) :
    s = p.session ∧ InHand ledger ⟨s, p.workers.set i w'⟩ := by
  have hs := h.session.perm (perm_errands hw)
  rw [← List.append_nil ledger] at hs ⊢
  rw [Worker.work] at ht
  split at ht <;> obtain ⟨rfl, rfl⟩ := Prod.mk.inj (Option.some.inj ht)
  · exact ⟨rfl, h.set hw (.refl _) trivial hs⟩
  · rename_i n hn
    obtain ⟨b, hb, -⟩ := isOpen_of_slotOf? hn
    exact ⟨rfl, h.set hw (.refl _) ⟨by simp [Errand.IsFirst], rfl⟩ (hs.claim hb none)⟩

/-- A worker goes on with its errand. -/
theorem proceeds {e : Errand} {below : List Errand} {s : Session} (h : p.InHand ledger)
    (hw : p.workers[i]? = some (.busy e below))
    (ht : (Worker.busy e below).work p.session = some (s, w')) :
    ∃ move, Proceeds p.session e (p.session.issue? e).toList s move ∧ w' = Worker.follow below move ∧
      p.session.InHand ledger (e :: (below ++ p.others i)) ∧ e.IsFirst ∧
      e.CalledFrom p.session below := by
  have hs := h.session.perm (perm_errands hw)
  obtain ⟨hfirst, hc⟩ := h.stacked _ (List.mem_of_getElem? hw)
  obtain ⟨⟨s₁, move⟩, ha, heq⟩ := Option.map_eq_some_iff.1 ht
  obtain ⟨rfl, rfl⟩ := Prod.mk.inj heq
  exact ⟨move, hs.proceeds ha, rfl, hs, hfirst, hc⟩

/-- A worker that gives up has been waiting on an errand for nobody but itself. -/
theorem giveUp (h : p.InHand ledger) (hw : p.workers[i]? = some w)
    (ht : w.giveUp p.session = some w') :
    ∃ n slot, w = .busy ⟨n, none, .wait⟩ [] ∧ p.session.IsOpen n slot ∧ w' = .done (.ok slot.current) ∧
      p.session.InHand ledger (p.others i) := by
  rw [Worker.giveUp.eq_def] at ht
  split at ht
  · rename_i n requester? below
    have hs := h.session.perm (perm_errands hw)
    obtain ⟨slot, ho, hf⟩ := hs.carries _ (.head _)
    obtain ⟨-, hc⟩ := h.stacked _ (List.mem_of_getElem? hw)
    obtain rfl : requester? = none := hf
    have ho : p.session.IsOpen n slot := ho
    rw [ho.get] at ht
    obtain rfl := hc.eq_nil rfl
    exact ⟨n, slot, rfl, ho, (Option.some.inj ht).symm, hs.answer (.inr rfl)⟩
  · cases ht

end InHand

theorem take_go_eq_some {i : Nat} (h : p.take (.go i) = some p') :
    ∃ w s w', p.workers[i]? = some w ∧ w.work p.session = some (s, w') ∧
      p' = ⟨s, p.workers.set i w'⟩ := by
  obtain ⟨w, hw, h⟩ := Option.bind_eq_some_iff.1 h
  obtain ⟨⟨s, w'⟩, hs, h⟩ := Option.bind_eq_some_iff.1 h
  exact ⟨w, s, w', hw, hs, (Option.some.inj h).symm⟩

theorem take_giveUp_eq_some {i : Nat} (h : p.take (.giveUp i) = some p') :
    ∃ w w', p.workers[i]? = some w ∧ w.giveUp p.session = some w' ∧
      p' = ⟨p.session, p.workers.set i w'⟩ := by
  obtain ⟨w, hw, h⟩ := Option.bind_eq_some_iff.1 h
  obtain ⟨w', hs, h⟩ := Option.bind_eq_some_iff.1 h
  exact ⟨w, w', hw, hs, (Option.some.inj h).symm⟩

/-- Whoever takes a turn, and whatever comes of it. -/
theorem InHand.take (h : p.InHand ledger) (ht : p.take turn = some p') :
    p'.InHand (ledger ++ (p.publication? turn).toList) ∧ SameDocuments p.session p'.session := by
  cases turn with
  | go i =>
    obtain ⟨w, s, w', hw, hwork, rfl⟩ := take_go_eq_some ht
    rw [publication?, hw]
    cases w with
    | idle id =>
      obtain ⟨rfl, h'⟩ := h.take_idle hw hwork
      rw [Option.toList_none, List.append_nil]
      exact ⟨h', .refl _⟩
    | busy e below =>
      obtain ⟨move, hp, rfl, hs, hfirst, hc⟩ := h.proceeds hw hwork
      have hsame := hp.sameDocuments hs
      have ha : p.session.Answerable (e :: (below ++ p.others i)) := fun o ho id hr => by
        have hperm := perm_errands hw
        obtain ⟨x, hx, hwait⟩ := h.answerable o (hperm.mem_iff.2 ho) id hr
        exact ⟨x, hperm.mem_iff.1 hx, hwait⟩
      exact ⟨h.set hw hsame (Worker.stacked_follow hp hsame hc) (hs.follow hp ha hfirst hc), hsame⟩
    | done answer => cases hwork
  | giveUp i =>
    obtain ⟨w, w', hw, hgive, rfl⟩ := take_giveUp_eq_some ht
    obtain ⟨n, slot, rfl, ho, rfl, hs⟩ := h.giveUp hw hgive
    rw [← List.append_nil ledger] at hs
    exact ⟨h.set hw (.refl _) trivial hs, .refl _⟩

theorem InHand.leads (h : p.InHand ledger) (hp : p.Leads ps p') :
    p'.InHand (ledger ++ ps) ∧ SameDocuments p.session p'.session := by
  induction hp generalizing ledger with
  | refl p => exact ⟨by rwa [List.append_nil], .refl _⟩
  | step ht _ ih =>
    obtain ⟨h', hsame⟩ := h.take ht
    obtain ⟨h'', hsame'⟩ := ih h'
    exact ⟨by rwa [← List.append_assoc], hsame.trans hsame'⟩

theorem InHand.start {s : Session} (h : s.Standing ledger) (hh : s.host? = none) (ids : List String) :
    (Pool.start s ids).InHand ledger := by
  have hnone : (Pool.start s ids).errands = [] := by
    simp [Pool.start, errands, List.flatMap_map, Worker.errands]
  refine ⟨hnone ▸ h.inHand hh, fun w hw => ?_⟩
  obtain ⟨id, -, rfl⟩ := List.mem_map.1 hw
  trivial

theorem InHand.standing (h : p.InHand ledger) (hd : p.Done) : p.session.Standing ledger := by
  have hnone : p.errands = [] := by
    rw [errands, List.flatMap_eq_nil_iff]
    intro w hw
    cases w with
    | busy e below => cases hd _ hw
    | idle | done => rfl
  exact Session.InHand.standing (hnone ▸ h.session)

end Pool

/-! ## All states that a session can reach -/

/-- They are standing. -/
theorem Session.Reached.standing {settings : Settings} {library? : Option Library}
    {ledger : List Publication} {s : Session} (h : Reached settings library? ledger s) :
    s.Standing ledger ∧ s.settings = settings ∧ s.host? = library?.map (⟨·, []⟩) := by
  induction h with
  | start => exact ⟨.start settings library?, rfl, rfl⟩
  | @perform ledger s s' operation steps r _ hp hs ih =>
    obtain ⟨hstand, hset, hhost⟩ := ih
    obtain ⟨r', s'', hc⟩ := hstand.completes operation hp
    obtain ⟨steps', hs', hstand'⟩ := hc.perform
    obtain ⟨heq, hpub⟩ := runFor_unique hs hs'
    obtain ⟨rfl, rfl⟩ := Prod.mk.inj heq
    obtain ⟨-, -, -, hset', hhost', -⟩ := hc
    exact ⟨by rwa [hpub], hset'.trans hset, hhost'.trans hhost⟩
  | @refresh ledger ps s ids p _ hl hp hd ih =>
    obtain ⟨hstand, hset, hhost⟩ := ih
    have hnone : s.host? = none := by rw [hhost, hl]; rfl
    obtain ⟨h, hsame⟩ := (Pool.InHand.start hstand hnone ids).leads hp
    exact ⟨h.standing hd, hsame.settings.trans hset, hsame.host.trans hhost⟩

end GrammarAtlas
