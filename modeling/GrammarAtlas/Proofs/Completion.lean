import GrammarAtlas.Proofs.Effort

/-! # Workers come to an end

Whatever turns the workers of a pool take, they come to an end (`Pool.InHand.finish`). Each turn
lowers the effort that is left (`Pool.InHand.effort_lt`), and as long as a worker has no answer yet,
there is one that can go on (`Pool.InHand.exists_go`). -/

namespace GrammarAtlas

open Session

namespace Worker

def isIdle : Worker → Bool
  | idle _ => true
  | busy _ _ | done _ => false

theorem isIdle_resume (a : Analysis) (below : List Errand) : (resume a below).isIdle = false := by
  rw [resume.eq_def]
  split
  · rfl
  · split <;> rfl

theorem isIdle_follow (below : List Errand) (move : Move) : (follow below move).isIdle = false := by
  cases move with
  | answer a => exact isIdle_resume a below
  | stay | call => rfl

end Worker

namespace Pool
variable {p p' : Pool} {ledger ps : List Publication} {w w' : Worker} {i : Nat} {turn : Pool.Turn}
  {U : List String}

/-- What is to be done by the workers, those that have not begun first. -/
noncomputable def effort (u : Nat) (p : Pool) : ℕ ×ₗ ℕ ×ₗ ℕ ×ₗ ℕ :=
  toLex (p.workers.countP Worker.isIdle, p.session.effort u p.errands)

theorem countP_isIdle_set (hw : p.workers[i]? = some w) (w' : Worker) :
    (p.workers.set i w').countP Worker.isIdle + w.isIdle.toNat =
      p.workers.countP Worker.isIdle + w'.isIdle.toNat := by
  obtain ⟨hi, rfl⟩ := List.getElem?_eq_some_iff.1 hw
  have h₁ := (List.getElem_cons_eraseIdx_perm hi).countP_eq Worker.isIdle
  have h₂ := (List.set_perm_cons_eraseIdx hi w').countP_eq Worker.isIdle
  rw [List.countP_cons] at h₁ h₂
  cases hw : p.workers[i].isIdle <;> cases hw' : w'.isIdle <;> simp only [hw, hw'] at h₁ h₂ <;>
    simp at h₁ h₂ ⊢ <;> omega

theorem effort_lt_of_session {s : Session} (hw : p.workers[i]? = some w)
    (hidle : w.isIdle = false) (hidle' : w'.isIdle = false) {u : Nat}
    (h : s.effort u (w'.errands ++ p.others i) < p.session.effort u (w.errands ++ p.others i)) :
    effort u ⟨s, p.workers.set i w'⟩ < p.effort u := by
  have hcount := countP_isIdle_set hw w'
  rw [hidle, hidle'] at hcount
  rw [effort_perm (perm_errands_set hw s w'), ← effort_perm (perm_errands hw)] at h
  rw [effort, effort, Prod.Lex.toLex_lt_toLex]
  exact .inr ⟨hcount, h⟩

/-- A turn lowers the effort. -/
theorem InHand.effort_lt (h : p.InHand ledger) (hW : p.session.Within U p.errands)
    (ht : p.take turn = some p') :
    p'.effort U.length < p.effort U.length ∧ p'.session.Within U p'.errands := by
  cases turn with
  | go i =>
    obtain ⟨w, s, w', hw, hwork, rfl⟩ := take_go_eq_some ht
    have hW' := hW.perm (perm_errands hw)
    cases w with
    | idle id =>
      obtain ⟨rfl, -⟩ := h.take_idle hw hwork
      have hidle : w'.isIdle = false ∧ ∀ e ∈ w'.errands, e.stage.run? = none := by
        rw [Worker.work] at hwork
        split at hwork <;> obtain ⟨-, rfl⟩ := Prod.mk.inj (Option.some.inj hwork)
        · exact ⟨rfl, fun e he => absurd he List.not_mem_nil⟩
        · exact ⟨rfl, by simp [Worker.errands, Stage.run?]⟩
      have hcount := countP_isIdle_set hw w'
      rw [hidle.1] at hcount
      refine ⟨?_, Within.perm ⟨hW.bounded, fun e he run hr => ?_⟩ (perm_errands_set hw _ w')⟩
      · rw [effort, effort, Prod.Lex.toLex_lt_toLex]
        refine .inl (Nat.lt_of_succ_le ?_)
        exact hcount.le
      · rcases List.mem_append.1 he with he | he
        · rw [hidle.2 e he] at hr
          cases hr
        · exact hW'.known e he run hr
    | busy e below =>
      obtain ⟨move, hp, rfl, hs, -, hc⟩ := h.proceeds hw hwork
      obtain ⟨hlt, hW''⟩ := effort_follow_lt hp hs hW' hc
      exact ⟨effort_lt_of_session hw rfl (Worker.isIdle_follow below move) hlt,
        hW''.perm (perm_errands_set hw s _)⟩
    | done answer => cases hwork
  | giveUp i =>
    obtain ⟨w, w', hw, hgive, rfl⟩ := take_giveUp_eq_some ht
    obtain ⟨n, slot, rfl, -, rfl, -⟩ := h.giveUp hw hgive
    have hW' := hW.perm (perm_errands hw)
    refine ⟨effort_lt_of_session hw rfl rfl (effort_lt_of_answer (.inr rfl)), ?_⟩
    exact hW'.tail.perm (perm_errands_set hw p.session (.done (.ok slot.current)))

theorem InHand.stuck {e : Errand} {below : List Errand} (h : p.InHand ledger)
    (hw : p.workers[i]? = some (.busy e below)) (hno : p.take (.go i) = none) :
    below = [] ∧ e.stage = .wait ∧ ∃ o ∈ p.errands, o.stage.holds = true := by
  have hs := h.session.perm (perm_errands hw)
  obtain ⟨hfirst, hc⟩ := h.stacked _ (List.mem_of_getElem? hw)
  have hadv : p.session.advance e = none := by
    cases ha : p.session.advance e with
    | none => rfl
    | some x => simp [Pool.take, hw, Worker.work, ha] at hno
  obtain ⟨hwait, hr, slot, ho, hf⟩ := hs.advance_eq_none hfirst hadv
  have hpos : 0 < Errand.holders p.errands e.slot := by
    rw [h.session.held _ slot ho.get, hf]
    decide
  obtain ⟨o, hmem, ho⟩ := List.countP_pos_iff.1 hpos
  exact ⟨hc.eq_nil hr, hwait, o, hmem, (Bool.and_eq_true_iff.1 ho).2⟩

/-- As long as there is something to do, somebody can go on. Whoever waits is the only errand of its
worker, and does not hold the slot. -/
theorem InHand.exists_go (h : p.InHand ledger) (hd : ¬ p.Done) : ∃ i p', p.take (.go i) = some p' := by
  by_contra! hno
  have hnone : ∀ i, p.take (.go i) = none := fun i => Option.eq_none_iff_forall_not_mem.2 (hno i)
  have hbusy : ∀ w ∈ p.workers, w.answer?.isSome = true ∨ ∃ e, w = .busy e [] ∧ e.stage = .wait := by
    intro w hw
    obtain ⟨i, hi⟩ := List.getElem?_of_mem hw
    cases w with
    | idle id =>
      refine absurd (hnone i) ?_
      cases hn : p.session.slotOf? id <;> simp [Pool.take, hi, Worker.work, hn]
    | busy e below =>
      obtain ⟨rfl, hwait, -⟩ := h.stuck hi (hnone i)
      exact .inr ⟨e, rfl, hwait⟩
    | done answer => exact .inl rfl
  obtain ⟨w, hw, hans⟩ : ∃ w ∈ p.workers, ¬ w.answer?.isSome = true := by
    simpa only [Done, not_forall, exists_prop] using hd
  obtain ⟨e, rfl, -⟩ := (hbusy w hw).resolve_left hans
  obtain ⟨i, hi⟩ := List.getElem?_of_mem hw
  obtain ⟨-, -, o, ho, hholds⟩ := h.stuck hi (hnone i)
  obtain ⟨w', hw', ho⟩ := List.mem_flatMap.1 ho
  rcases hbusy w' hw' with hdone | ⟨e', rfl, hwait⟩
  · cases w' with
    | busy | idle => cases hdone
    | done => cases ho
  · obtain rfl := List.mem_singleton.1 ho
    rw [hwait] at hholds
    cases hholds

theorem InHand.goOn_eq_none (h : p.InHand ledger) : p.goOn = none ↔ p.Done := by
  rw [goOn, List.findSome?_eq_none_iff]
  constructor
  · intro hnone
    by_contra hd
    obtain ⟨i, p', ht⟩ := h.exists_go hd
    obtain ⟨w, -, -, hw, -⟩ := take_go_eq_some ht
    have hi := (List.getElem?_eq_some_iff.1 hw).1
    cases (hnone i (List.mem_range.2 hi)).symm.trans ht
  · intro hd i _
    cases hw : p.workers[i]? with
    | none => simp [Pool.take, hw]
    | some w =>
      have := hd w (List.mem_of_getElem? hw)
      cases w with
      | done answer => simp [Pool.take, hw, Worker.work]
      | idle | busy => cases this

theorem finish_of_goOn (h : p.goOn = some p') : p.finish = p'.finish := by
  rw [finish, repeatM_eq_of_monadTail, repeatM.body, h]
  rfl

theorem finish_of_stop (h : p.goOn = none) : p.finish = some p := by
  rw [finish, repeatM_eq_of_monadTail, repeatM.body, h]
  rfl

theorem exists_take_of_goOn (h : p.goOn = some p') : ∃ i, p.take (.go i) = some p' := by
  obtain ⟨i, -, hi⟩ := List.exists_of_findSome?_eq_some h
  exact ⟨i, hi⟩

section
variable {M : Pool → Prop}

/-- The workers come to an end, and bring about what each turn of theirs preserves. -/
theorem InHand.exists_finish (h : p.InHand ledger) (hW : p.session.Within U p.errands) (hp : M p)
    (hgo : ∀ p p', M p → p.goOn = some p' → M p') :
    ∃ p' ps, p.finish = some p' ∧ p.Leads ps p' ∧ p'.Done ∧ M p' := by
  induction hn : p.effort U.length using WellFoundedLT.induction generalizing p ledger with
  | ind n ih =>
    cases hnext : p.goOn with
    | none => exact ⟨p, [], finish_of_stop hnext, .refl p, h.goOn_eq_none.1 hnext, hp⟩
    | some p₁ =>
      obtain ⟨i, ht⟩ := exists_take_of_goOn hnext
      obtain ⟨hlt, hW'⟩ := h.effort_lt hW ht
      obtain ⟨p', ps, hfin, hl, hdone, hM⟩ :=
        ih _ (hn ▸ hlt) (h.take ht).1 hW' (hgo p p₁ hp hnext) rfl
      exact ⟨p', _, (finish_of_goOn hnext).trans hfin, .step ht hl, hdone, hM⟩

theorem InHand.exists_play (h : p.InHand ledger) (hW : p.session.Within U p.errands) {turns : List Pool.Turn}
    (hp : M p) (hplay : ∀ p p' turn, turn ∈ turns → M p → p.take turn = some p' → M p') :
    ∃ ps, p.Leads ps (p.play turns) ∧ (p.play turns).session.Within U (p.play turns).errands ∧
      M (p.play turns) := by
  induction turns generalizing p ledger with
  | nil => exact ⟨[], .refl p, hW, hp⟩
  | cons turn turns ih =>
    have hrest : ∀ p p' turn, turn ∈ turns → M p → p.take turn = some p' → M p' :=
      fun p p' turn hmem => hplay p p' turn (.tail _ hmem)
    rw [play, List.foldl_cons]
    cases ht : p.take turn with
    | none => exact ih h hW hp hrest
    | some p₁ =>
      obtain ⟨-, hW'⟩ := h.effort_lt hW ht
      obtain ⟨ps, hl, hW', hM⟩ := ih (h.take ht).1 hW' (hplay p p₁ turn (.head _) hp ht) hrest
      exact ⟨_, .step ht hl, hW', hM⟩

theorem Done.exists_answers (h : p.Done) :
    ∃ results, p.answers = some results ∧ p.workers = results.map .done := by
  have hall : ∀ workers : List Worker, (∀ w ∈ workers, w.answer?.isSome = true) →
      ∃ results, workers.mapM Worker.answer? = some results ∧ workers = results.map .done := by
    intro workers hw
    induction workers with
    | nil => exact ⟨[], rfl, rfl⟩
    | cons w workers ih =>
      obtain ⟨results, hres, rfl⟩ := ih fun w hmem => hw w (.tail _ hmem)
      cases w with
      | done answer =>
        refine ⟨answer :: results, ?_, rfl⟩
        rw [List.mapM_cons, hres]
        rfl
      | idle | busy => cases hw _ (.head _)
  exact hall p.workers h

end

end Pool

theorem Session.refreshBy_eq {s : Session} {turns : List Pool.Turn} {ids : List String}
    {results : List (Except String Analysis)} (hstop : ((Pool.start s ids).play turns).goOn = none)
    (h : ((Pool.start s ids).play turns).answers = some results) :
    s.refreshBy turns ids = some (results, ((Pool.start s ids).play turns).session) := by
  rw [refreshBy, Pool.finish_of_stop hstop, Option.bind_eq_bind, Option.bind_some, h]
  rfl

/-- A refresh ends, whatever turns the workers begin with, in a state that workers lead to. -/
theorem Session.Standing.exists_refreshBy {s : Session} {ledger : List Publication} {M : Pool → Prop}
    (h : s.Standing ledger) (hh : s.host? = none) (turns : List Pool.Turn) (ids : List String)
    (hstart : M (Pool.start s ids))
    (hplay : ∀ p p' turn, turn ∈ turns → M p → p.take turn = some p' → M p')
    (hgo : ∀ p p', M p → p.goOn = some p' → M p') :
    ∃ p ps results, (Pool.start s ids).Leads ps p ∧ p.workers = results.map .done ∧ M p ∧
      s.refreshBy turns ids = some (results, p.session) := by
  have hp := Pool.InHand.start h hh ids
  obtain ⟨U, hU⟩ := s.exists_bounded
  have hW : (Pool.start s ids).session.Within U (Pool.start s ids).errands := by
    refine ⟨hU, fun e he => ?_⟩
    simp [Pool.start, Pool.errands, Worker.errands] at he
  obtain ⟨ps, hl, hW', hM⟩ := hp.exists_play hW hstart hplay
  obtain ⟨p, ps', hfin, hl', hdone, hM'⟩ := (hp.leads hl).1.exists_finish hW' hM hgo
  obtain ⟨results, hans, hres⟩ := hdone.exists_answers
  refine ⟨p, ps ++ ps', results, hl.trans hl', hres, hM', ?_⟩
  rw [refreshBy, hfin, Option.bind_eq_bind, Option.bind_some, hans]
  rfl

end GrammarAtlas
