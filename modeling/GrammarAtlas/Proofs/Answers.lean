import GrammarAtlas.Proofs.Completion

/-! # What workers answer

The answer of a worker that waits until the end is an analysis of the latest text, or one that had
been published before the refresh began and that another worker was replacing. Only a worker that
gives up may be left with the empty one (`Session.Standing.refreshBy_answers`). -/

namespace GrammarAtlas

open Session

namespace Session
variable {s s' s₀ : Session} {n m : Nat} {slot a b : Slot} {id : String} {ledger ps : List Publication}
  {e : Errand} {es below : List Errand} {move : Move} {an : Analysis}

/-- What a worker may answer about the document `id`, `s` being the state that it began with. -/
inductive Answered (s : Session) (id : String) (gaveUp : Prop) : Except String Analysis → Prop
  | unknown (h : id ∉ s.documents) : Answered s id gaveUp (.error id)
  | renewed {n : Nat} {slot : Slot} {an : Analysis} (ho : s.IsOpen n slot) (hid : slot.id = id)
      (h : s.Reports slot an) : Answered s id gaveUp (.ok an)
  | before {n : Nat} {slot : Slot} {an : Analysis} (ho : s.IsOpen n slot) (hid : slot.id = id)
      (h : slot.published? = some an) : Answered s id gaveUp (.ok an)
  | nothing {n : Nat} {slot : Slot} {epoch : Nat} (ho : s.IsOpen n slot) (hid : slot.id = id)
      (h : slot.published? = none) (hg : gaveUp) :
      Answered s id gaveUp (.ok (.empty slot.latest epoch))

/-- What has been published since the state `s₀` is of the latest texts. -/
def Renewed (s₀ s : Session) : Prop := ∀ n a b, s₀.IsOpen n a → s.slots[n]? = some b →
  b.published? = a.published? ∨ ∃ an, b.published? = some an ∧ s₀.Reports a an

theorem SameDocuments.reports_iff (h : SameDocuments s s') (htag : b.tag = a.tag) :
    s'.Reports b an ↔ s.Reports a an := by
  rw [Reports, Reports, h.settings, h.host, show b.latest = a.latest from congrArg (·.2.2) htag]

theorem SameDocuments.exists_isOpen_back (h : SameDocuments s s') (hb : s'.IsOpen n b) :
    ∃ a, s.IsOpen n a ∧ b.tag = a.tag := by
  obtain ⟨a, ha, htag⟩ := hb.of_tag h.tags.symm
  exact ⟨a, ha, htag.symm⟩

/-- A stage publishes nothing but an analysis of the latest text. -/
theorem Proceeds.renewed (hp : Proceeds s e ps s' move) (h : s.InHand ledger (e :: es)) :
    Renewed s s' := by
  have hstill : ∀ {t t' : Session} {o : Errand} {move : Move}, Proceeds t o [] t' move →
      ∀ {n : Nat} {a b : Slot}, t.slots[n]? = some a → t'.slots[n]? = some b →
        b.published? = a.published? := by
    intro t t' o move hp n a b ha hb
    have heq := hp.published_eq n
    rwa [ha, hb] at heq
  intro n a b ha hb
  by_cases hps : ps = []
  · subst hps
    exact .inl (hstill hp ha.get hb)
  cases hp with
  | @publish _ _ _ slot run r _ hs ho _ hp =>
    obtain ⟨slot', ho', hf⟩ := h.carries e (.head _)
    obtain rfl := ho'.eq ho
    simp only [Fits, hs] at hf
    by_cases hn : n = e.slot
    · subst hn
      obtain rfl := ha.eq ho
      have hself : (s.modifySlot e.slot (·.publish (run.analysis r))).slots[e.slot]? =
          some (a.publish (run.analysis r)) := (getElem?_modifySlot_eq_some ha.get _).2 (.inl ⟨rfl, rfl⟩)
      have hpub : b.published? = some (run.analysis r) := hstill hp hself hb
      exact .inr ⟨_, hpub, hf.1.snapshot, _, rfl, hf.1.genuine hf.2⟩
    · exact .inl (hstill hp ((getElem?_modifySlot_eq_some ho.get _).2 (.inr ⟨hn, ha.get⟩)) hb)
  | _ => exact absurd rfl hps

/-- An errand for nobody is answered with what is published, or is an analysis of the latest text. -/
theorem Proceeds.answers (hp : Proceeds s e ps s' (.answer an)) (h : s.InHand ledger (e :: es))
    (hr : e.requester? = none) :
    ∃ slot, s'.IsOpen e.slot slot ∧ (slot.published? = some an ∨ s'.Reports slot an) := by
  generalize hm : Move.answer an = move at hp
  induction hp generalizing ledger with
  | publish hs ho _ _ ih => exact ih (h.publish hs ho) hr hm
  | discard hs _ _ _ ih => exact ih (h.discard hs) hr hm
  | @answer s e slot _ ho hd =>
    obtain rfl := Move.answer.inj hm
    refine ⟨slot, ho, .inl ?_⟩
    rcases hd with hf | ⟨-, hsome⟩
    · exact (InHand.current_eq_of_isFresh hf).1
    · rw [hr] at hsome
      obtain ⟨x, hx⟩ := Option.isSome_iff_exists.1 (hsome.resolve_right (by simp))
      rw [Slot.current, hx]
      rfl
  | @answerFresh s e slot _ ho hf =>
    obtain rfl := Move.answer.inj hm
    exact ⟨_, ⟨(getElem?_letGo ho).2 (.inl ⟨rfl, rfl⟩), ho.opened⟩,
      .inl (InHand.current_eq_of_isFresh hf).1⟩
  | @announce s e a hs =>
    obtain rfl := Move.answer.inj hm
    obtain ⟨slot, ho, hfits⟩ := h.carries _ (.head _)
    simp only [Fits, hs] at hfits
    have hsame := (Proceeds.announce hs).sameDocuments h
    obtain ⟨slot', ho', htag⟩ := ho.of_tag hsame.tags
    exact ⟨slot', ho', .inr ((hsame.reports_iff htag).2 hfits.2)⟩
  | _ => cases hm

theorem Renewed.refl (s : Session) : Renewed s s := by
  intro n a b ha hb
  rw [Option.some.inj (hb.symm.trans ha.get)]
  exact .inl rfl

theorem Renewed.trans (h : Renewed s₀ s) (h' : Renewed s s') (hsame : SameDocuments s₀ s) :
    Renewed s₀ s' := by
  intro n a c ha hc
  obtain ⟨b, hb, htag⟩ := ha.of_tag hsame.tags
  rcases h' n b c hb hc with heq | ⟨an, hp, hr⟩
  · rw [heq]
    exact h n a b ha hb.get
  · exact .inr ⟨an, hp, (hsame.reports_iff htag).1 hr⟩

theorem Renewed.answered {gaveUp : Prop} (h : Renewed s₀ s) (hsame : SameDocuments s₀ s)
    (hb : s.IsOpen n b) (hid : b.id = id)
    (ha : b.published? = some an ∨ s.Reports b an) : s₀.Answered id gaveUp (.ok an) := by
  obtain ⟨a, ho, htag⟩ := hsame.exists_isOpen_back hb
  have hid : a.id = id := (congrArg (·.1) htag).symm.trans hid
  rcases ha with hp | hr
  · rcases h n a b ho hb.get with heq | ⟨x, hx, hr⟩
    · exact .before ho hid (heq ▸ hp)
    · obtain rfl := Option.some.inj (hx.symm.trans hp)
      exact .renewed ho hid hr
  · exact .renewed ho hid ((hsame.reports_iff htag).1 hr)

end Session

namespace Worker

/-- The slot that the worker is there for. -/
def origin? : Worker → Option Nat
  | busy e below => some ((below.map Errand.slot).getLastD e.slot)
  | idle _ | done _ => none

/-- The worker is there for the document `id`, and its answer, if it has one, is right. -/
def Serves (right : Except String Analysis → Prop) (s : Session) (id : String) (w : Worker) : Prop :=
  match w with
  | idle id' => id' = id
  | busy _ _ => ∃ n slot, w.origin? = some n ∧ s.IsOpen n slot ∧ slot.id = id
  | done result => right result

variable {s s' : Session} {w : Worker} {right : Except String Analysis → Prop} {id : String}
  {ledger ps : List Publication} {e : Errand} {es below : List Errand} {move : Move}

theorem Serves.same (h : w.Serves right s id) (hsame : SameDocuments s s') : w.Serves right s' id := by
  cases w with
  | busy e below =>
    obtain ⟨n, slot, hn, ho, hid⟩ := h
    obtain ⟨slot', ho', htag⟩ := ho.of_tag hsame.tags
    exact ⟨n, slot', hn, ho', (congrArg (·.1) htag).trans hid⟩
  | idle | done => exact h

theorem serves_follow (hp : s.Proceeds e ps s' move) (hsame : SameDocuments s s')
    (hc : e.CalledFrom s below) (h : (busy e below).Serves right s id)
    (hright : ∀ an, move = .answer an → below = [] → ∀ slot, s.IsOpen e.slot slot → slot.id = id →
      right (.ok an)) :
    (follow below move).Serves right s' id := by
  have h' := h.same hsame
  rcases hp.cases_move with ⟨stage, -, rfl⟩ | ⟨run, g, m, slot, -, -, -, -, rfl⟩ | ⟨an, rfl⟩
  · exact h'
  · obtain ⟨n, slot, hn, ho⟩ := h'
    exact ⟨n, slot, (congrArg some List.getLastD_cons).trans hn, ho⟩
  · cases below with
    | nil =>
      obtain ⟨n, slot, hn, ho, hid⟩ := h
      obtain rfl : e.slot = n := Option.some.inj hn
      exact hright an rfl rfl slot ho hid
    | cons o below =>
      obtain ⟨⟨run, g, slot, hs, -⟩, -⟩ := hc
      obtain ⟨n, slot, hn, ho⟩ := h'
      simp only [follow, resume, hs]
      exact ⟨n, slot, (congrArg some List.getLastD_cons).symm.trans hn, ho⟩

end Worker

namespace Pool
variable {p p' : Pool} {s₀ : Session} {ids : List String} {gaveUp : Nat → Prop} {turn : Pool.Turn}
  {ledger ps : List Publication}

/-- Each worker is there for its document. -/
structure Serves (s₀ : Session) (ids : List String) (gaveUp : Nat → Prop) (p : Pool) : Prop where
  same : SameDocuments s₀ p.session
  renewed : Renewed s₀ p.session
  length : p.workers.length = ids.length
  serves : ∀ (i : Nat) (id : String) (w : Worker), ids[i]? = some id → p.workers[i]? = some w →
    w.Serves (s₀.Answered id (gaveUp i)) p.session id

theorem Serves.start (s : Session) (ids : List String) (gaveUp : Nat → Prop) :
    (Pool.start s ids).Serves s ids gaveUp := by
  refine ⟨.refl s, .refl s, List.length_map .., fun i id w hid hw => ?_⟩
  have hw : (ids.map Worker.idle)[i]? = some w := hw
  rw [List.getElem?_map, hid] at hw
  obtain rfl := Option.some.inj hw
  rfl

/-- A turn of one worker. -/
theorem Serves.set {s : Session} {w' : Worker} {i : Nat} (h : p.Serves s₀ ids gaveUp)
    (hsame : SameDocuments p.session s) (hren : Renewed p.session s)
    (hw' : ∀ id, ids[i]? = some id → w'.Serves (s₀.Answered id (gaveUp i)) s id) :
    Pool.Serves s₀ ids gaveUp ⟨s, p.workers.set i w'⟩ := by
  refine ⟨h.same.trans hsame, h.renewed.trans hren h.same, by simpa using h.length,
    fun j id w hid hw => ?_⟩
  rcases Nat.decEq i j with hne | rfl
  · rw [List.getElem?_set_ne hne] at hw
    exact (h.serves j id w hid hw).same hsame
  · obtain ⟨-, rfl⟩ : _ ∧ w' = w := by simpa [List.getElem?_set_self'] using hw
    exact hw' id hid

theorem Serves.take (h : p.Serves s₀ ids gaveUp) (hp : p.InHand ledger) (ht : p.take turn = some p')
    (hg : ∀ i, turn = .giveUp i → gaveUp i) : p'.Serves s₀ ids gaveUp := by
  cases turn with
  | go i =>
    obtain ⟨w, s, w', hw, hwork, rfl⟩ := take_go_eq_some ht
    cases w with
    | idle id =>
      obtain ⟨rfl, -⟩ := hp.take_idle hw hwork
      refine h.set (.refl _) (.refl _) fun id' hid => ?_
      obtain rfl : id = id' := h.serves i id' _ hid hw
      rw [Worker.work] at hwork
      split at hwork <;> rename_i hn <;> obtain ⟨-, rfl⟩ := Prod.mk.inj (Option.some.inj hwork)
      · refine .unknown fun hmem => ?_
        obtain ⟨n, slot, ho, hid⟩ := mem_documents.1 hmem
        obtain ⟨slot', ho', htag⟩ := ho.of_tag h.same.tags
        have hreg := hp.session.coherent.unique.slotOf? ho'
        rw [show slot'.id = id from (congrArg (·.1) htag).trans hid, hn] at hreg
        cases hreg
      · obtain ⟨slot, ho, hid⟩ := isOpen_of_slotOf? hn
        exact ⟨_, slot, rfl, ho, hid⟩
    | busy e below =>
      obtain ⟨move, hproc, rfl, hs, -, hc⟩ := hp.proceeds hw hwork
      have hsame := hproc.sameDocuments hs
      have hren := hproc.renewed hs
      refine h.set hsame hren fun id hid => ?_
      refine Worker.serves_follow hproc hsame hc (h.serves i id _ hid hw) ?_
      rintro an rfl rfl slot ho rfl
      obtain ⟨slot', ho', han⟩ := hproc.answers hs hc
      obtain ⟨a, ha, htag⟩ := hsame.exists_isOpen_back ho'
      obtain rfl := ho.eq ha
      exact (h.renewed.trans hren h.same).answered (h.same.trans hsame) ho' (congrArg (·.1) htag) han
    | done answer => cases hwork
  | giveUp i =>
    obtain ⟨w, w', hw, hgive, rfl⟩ := take_giveUp_eq_some ht
    obtain ⟨n, slot, rfl, ho, rfl, -⟩ := hp.giveUp hw hgive
    refine h.set (.refl _) (.refl _) fun id hid => ?_
    obtain ⟨m, slot', hm, ho', hid'⟩ := h.serves i id _ hid hw
    obtain rfl : n = m := Option.some.inj hm
    obtain rfl := ho.eq ho'
    show s₀.Answered id (gaveUp i) (.ok slot.current)
    cases hpub : slot.published? with
    | some an =>
      have hcur : slot.current = an := by rw [Slot.current, hpub]; rfl
      exact h.renewed.answered h.same ho hid' (.inl (hcur ▸ hpub))
    | none =>
      obtain ⟨a, ha, htag⟩ := h.same.exists_isOpen_back ho
      have hcur : slot.current = .empty a.latest slot.epoch := by
        rw [Slot.current, hpub, show slot.latest = a.latest from congrArg (·.2.2) htag]
        rfl
      rw [hcur]
      refine .nothing ha ((congrArg (·.1) htag).symm.trans hid') ?_ (hg i rfl)
      rcases h.renewed n a slot ha ho.get with heq | ⟨x, hx, -⟩
      · rw [← heq, hpub]
      · cases hx.symm.trans hpub

end Pool

/-- The workers end, and each answer is of the latest text, or was there before. -/
theorem Session.Standing.refreshBy_answers {s : Session} {ledger : List Publication}
    (h : s.Standing ledger) (hh : s.host? = none) (turns : List Pool.Turn) (ids : List String) :
    ∃ p ps results, (Pool.start s ids).Leads ps p ∧ p.Done ∧
      s.refreshBy turns ids = some (results, p.session) ∧ SameDocuments s p.session ∧
      results.length = ids.length ∧
      ∀ (i : Nat) (id : String) (result : Except String Analysis), ids[i]? = some id →
        results[i]? = some result → s.Answered id (.giveUp i ∈ turns) result := by
  obtain ⟨p, ps, results, hl, hw, ⟨-, hserves⟩, heq⟩ := h.exists_refreshBy
    (M := fun p => (∃ ledger, p.InHand ledger) ∧ p.Serves s ids (.giveUp · ∈ turns)) hh turns ids
    ⟨⟨_, .start h hh ids⟩, .start s ids _⟩
    (fun p p' turn hmem hp ht => by
      obtain ⟨⟨ledger, hp⟩, hserves⟩ := hp
      exact ⟨⟨_, (hp.take ht).1⟩, hserves.take hp ht fun i hi => hi ▸ hmem⟩)
    fun p p' hp hgo => by
      obtain ⟨i, ht⟩ := Pool.exists_take_of_goOn hgo
      obtain ⟨⟨ledger, hp⟩, hserves⟩ := hp
      exact ⟨⟨_, (hp.take ht).1⟩, hserves.take hp ht nofun⟩
  refine ⟨p, ps, results, hl, fun w hmem => ?_, heq, hserves.same, ?_, fun i id result hid hr => ?_⟩
  · rw [hw] at hmem
    obtain ⟨result, -, rfl⟩ := List.mem_map.1 hmem
    rfl
  · rw [← hserves.length, hw, List.length_map]
  · exact hserves.serves i id (.done result) hid (by rw [hw, List.getElem?_map, hr]; rfl)

end GrammarAtlas
