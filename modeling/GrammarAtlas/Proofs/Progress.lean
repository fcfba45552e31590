import GrammarAtlas.Proofs.Stages

/-! # How errands go on

`Session.Proceeds` has a case for each way in which an errand can go on, with all that is known
there; `Session.InHand.proceeds` reads it off `Session.advance`. What is in hand stays in hand
(`Session.InHand.proceed`), and an answer comes with what the one who asked may rely on: the document
is not behind, or is in flight on another errand (`Session.Proceeds.settled`). -/

namespace GrammarAtlas

/-- The errands that a move leaves, the one that goes on first. -/
def Move.errands : Move → List Errand
  | stay e => [e]
  | call e first => [first, e]
  | answer _ => []

namespace Session
variable {s s' : Session} {n m : Nat} {slot a b : Slot} {id g : String} {ledger : List Publication}
  {e o : Errand} {es : List Errand} {run : Run} {r : Resolution} {stage : Stage} {move : Move}

/-- How an errand about a registered document goes on, by its stage. Publishing is a step of its own
here, after which the slot is looked at again. -/
inductive Proceeds : Session → Errand → List Publication → Session → Move → Prop
  /-- The document is fresh, or is being seen to on another errand. -/
  | answer {s : Session} {e : Errand} {slot : Slot} (hs : e.stage = .claim ∨ e.stage = .wait)
      (ho : s.IsOpen e.slot slot)
      (hd : slot.isFresh = true ∨
        slot.inFlight = true ∧ (slot.published?.isSome = true ∨ e.requester?.isSome = true)) :
      Proceeds s e [] s (.answer slot.current)
  | wait {s : Session} {e : Errand} {slot : Slot} (hs : e.stage = .claim) (ho : s.IsOpen e.slot slot)
      (hf : slot.inFlight = true) (hp : slot.published? = none) (hr : e.requester? = none) :
      Proceeds s e [] s (.stay { e with stage := .wait })
  | takeUp {s : Session} {e : Errand} {slot : Slot} (hs : e.stage = .claim ∨ e.stage = .wait)
      (ho : s.IsOpen e.slot slot) (hfresh : slot.isFresh = false) (hf : slot.inFlight = false) :
      Proceeds s e [] (s.hold e.slot)
        (.stay { e with stage := .extract (s.readSlot e.slot slot e.requester? false).2 })
  | overtaken {s : Session} {e : Errand} {slot : Slot} {run : Run}
      (hs : e.stage = .extract run ∨ ∃ r, e.stage = .complete run r) (ho : s.IsOpen e.slot slot)
      (he : slot.epoch ≠ run.epoch) :
      Proceeds s e [] s (.stay { e with stage := .reread run.changed })
  | keep {s : Session} {e : Errand} {run : Run} (hs : e.stage = .extract run) :
      Proceeds s e [] s (.stay { e with stage := .record run })
  | record {s : Session} {e : Errand} {slot : Slot} {run : Run} (hs : e.stage = .record run)
      (ho : s.IsOpen e.slot slot) :
      Proceeds s e [] (s.enterImports slot.id (run.table.imports.map Import.grammar))
        (.stay { e with stage := .resolve run })
  | call {s : Session} {e : Errand} {slot : Slot} {run : Run} {g : String} {m : Nat}
      (hs : e.stage = .resolve run) (ho : s.IsOpen e.slot slot) (ha : s.AsksFor slot.id run g m) :
      Proceeds s e [] s (.call { e with stage := .await run g m } ⟨m, some slot.id, .claim⟩)
  | learnNone {s : Session} {e : Errand} {slot : Slot} {run : Run} {g : String}
      (hs : e.stage = .resolve run) (ho : s.IsOpen e.slot slot)
      (hg : Resolution.attempt run.known run.grammar.tree run.table s.settings.warnUnresolved =
        .error g) (hm : s.source? slot.id g = none) :
      Proceeds s e [] s (.stay { e with stage := .resolve (run.learn g none) })
  | resolved {s : Session} {e : Errand} {run : Run} {r : Resolution} (hs : e.stage = .resolve run)
      (hr : Resolution.attempt run.known run.grammar.tree run.table s.settings.warnUnresolved = .ok r) :
      Proceeds s e [] s (.stay { e with stage := .complete run r })
  | takeTable {s : Session} {e : Errand} {run : Run} {g : String} {m : Nat}
      (hs : e.stage = .takeTable run g m) :
      Proceeds s e [] s (.stay { e with
        stage := .resolve (run.learn g ((s.slots[m]?.bind Slot.published?).map Analysis.table)) })
  | completed {s : Session} {e : Errand} {slot : Slot} {run : Run} {r : Resolution}
      (hs : e.stage = .complete run r) (ho : s.IsOpen e.slot slot) (he : slot.epoch = run.epoch) :
      Proceeds s e [] s (.stay { e with stage := .publish run r })
  | publish {s s' : Session} {e : Errand} {slot : Slot} {run : Run} {r : Resolution} {move : Move}
      (hs : e.stage = .publish run r) (ho : s.IsOpen e.slot slot)
      (hnew : slot.isNewer (run.analysis r) = true)
      (h : Proceeds (s.modifySlot e.slot (·.publish (run.analysis r)))
        { e with stage := .reread (run.changed || slot.showsChange (run.analysis r)) } [] s' move) :
      Proceeds s e [run.publication slot s.graph r] s' move
  | discard {s s' : Session} {e : Errand} {slot : Slot} {run : Run} {r : Resolution} {move : Move}
      (hs : e.stage = .publish run r) (ho : s.IsOpen e.slot slot)
      (hold : slot.isNewer (run.analysis r) = false)
      (h : Proceeds s { e with stage := .reread run.changed } [] s' move) : Proceeds s e [] s' move
  | answerFresh {s : Session} {e : Errand} {slot : Slot} (hs : e.stage = .reread false)
      (ho : s.IsOpen e.slot slot) (hf : slot.isFresh = true) :
      Proceeds s e [] (s.letGo e.slot) (.answer slot.current)
  | informFresh {s : Session} {e : Errand} {slot : Slot} (hs : e.stage = .reread true)
      (ho : s.IsOpen e.slot slot) (hf : slot.isFresh = true) :
      Proceeds s e [] (s.letGo e.slot) (.stay { e with stage := .inform slot.current })
  | beginAgain {s : Session} {e : Errand} {slot : Slot} {changed : Bool}
      (hs : e.stage = .reread changed) (ho : s.IsOpen e.slot slot) (hf : slot.isFresh = false) :
      Proceeds s e [] { s with parses := s.parses + 1 }
        (.stay { e with stage := .extract (s.readSlot e.slot slot e.requester? changed).2 })
  | inform {s : Session} {e : Errand} {slot : Slot} {a : Analysis} {ids : List String}
      (hs : e.stage = .inform a) (ho : s.IsOpen e.slot slot)
      (hids : ids = s.reached slot.id (s.graph.name? slot.id).toList e.requester?) :
      Proceeds s e [] s (.stay { e with stage := .invalidate ids a })
  | invalidate {s : Session} {e : Errand} {id : String} {ids : List String} {a : Analysis}
      (hs : e.stage = .invalidate (id :: ids) a) :
      Proceeds s e [] (s.bump [id]) (.stay { e with stage := .invalidate ids a })
  | announce {s : Session} {e : Errand} {a : Analysis} (hs : e.stage = .invalidate [] a) :
      Proceeds s e [] s.announce (.answer a)

theorem proceeds_continueSlot {changed : Bool} (ho : s.IsOpen e.slot slot)
    (hs : e.stage = .reread changed)
    (ha : s.continueSlot e.slot slot e.requester? changed = (s', move)) :
    Proceeds s e [] s' move := by
  rw [continueSlot, ho.opened, Bool.false_or] at ha
  cases hf : slot.isFresh with
  | true =>
    rw [hf, if_pos rfl] at ha
    cases changed with
    | true => exact (Prod.mk.inj ha).1 ▸ (Prod.mk.inj ha).2 ▸ .informFresh hs ho hf
    | false => exact (Prod.mk.inj ha).1 ▸ (Prod.mk.inj ha).2 ▸ .answerFresh hs ho hf
  | false =>
    rw [hf, if_neg (by simp)] at ha
    exact (Prod.mk.inj ha).1 ▸ (Prod.mk.inj ha).2 ▸ .beginAgain hs ho hf

theorem proceeds_claimSlot (ho : s.IsOpen e.slot slot)
    (hs : e.stage = .claim ∨ e.stage = .wait ∧ (slot.inFlight = false ∨ slot.published?.isSome = true))
    (ha : s.claimSlot e.slot slot e.requester? = (s', move)) : Proceeds s e [] s' move := by
  have hs' : e.stage = .claim ∨ e.stage = .wait := hs.imp_right And.left
  rw [claimSlot, ho.opened, Bool.or_false] at ha
  cases hfresh : slot.isFresh with
  | true =>
    rw [hfresh, if_pos rfl] at ha
    exact (Prod.mk.inj ha).1 ▸ (Prod.mk.inj ha).2 ▸ .answer hs' ho (.inl hfresh)
  | false =>
    rw [hfresh, if_neg (by simp)] at ha
    cases hf : slot.inFlight with
    | false =>
      rw [hf, if_neg (by simp)] at ha
      exact (Prod.mk.inj ha).1 ▸ (Prod.mk.inj ha).2 ▸ .takeUp hs' ho hfresh hf
    | true =>
      rw [hf, if_pos rfl] at ha
      split at ha
      · rename_i hsome
        exact (Prod.mk.inj ha).1 ▸ (Prod.mk.inj ha).2 ▸
          .answer hs' ho (.inr ⟨hf, by simpa using hsome⟩)
      · rename_i hnone
        obtain ⟨hp, hr⟩ : slot.published? = none ∧ e.requester? = none := by simpa using hnone
        rcases hs with hs | ⟨-, hno⟩
        · exact (Prod.mk.inj ha).1 ▸ (Prod.mk.inj ha).2 ▸ .wait hs ho hf hp hr
        · simp [hf, hp] at hno

theorem proceeds_resolveNames (ho : s.IsOpen e.slot slot) (hh : s.host? = none)
    (hs : e.stage = .resolve run) (ha : s.resolveNames e run slot.id = (s', move)) :
    Proceeds s e [] s' move := by
  rw [resolveNames] at ha
  split at ha
  · rename_i g hg
    rw [seek] at ha
    split at ha
    · rename_i m hm
      exact (Prod.mk.inj ha).1 ▸ (Prod.mk.inj ha).2 ▸ .call hs ho ⟨hg, hm⟩
    · rename_i hm
      rw [hh] at ha
      exact (Prod.mk.inj ha).1 ▸ (Prod.mk.inj ha).2 ▸ .learnNone hs ho hg hm
  · rename_i r hr
    exact (Prod.mk.inj ha).1 ▸ (Prod.mk.inj ha).2 ▸ .resolved hs hr

theorem proceeds_publishRun (ho : s.IsOpen e.slot slot) (hplace : run.slot = e.slot)
    (hs : e.stage = .publish run r) (ha : s.publishRun e run slot r = (s', move)) :
    Proceeds s e (s.issue? e).toList s' move := by
  rw [publishRun, ho.opened, Bool.false_or] at ha
  have hissue : s.issue? e = if slot.isNewer (run.analysis r) then
      some (run.publication slot s.graph r) else none := by
    simp only [issue?, hs, ho.get, ho.opened, Bool.false_or]
    rw [← hplace]
    show (if (!slot.isNewer (run.analysis r)) = true then none
      else some (run.publication slot s.graph r)) = _
    cases slot.isNewer (run.analysis r) <;> rfl
  cases hnew : slot.isNewer (run.analysis r) with
  | false =>
    rw [hissue, hnew]
    rw [Run.analysis] at hnew
    simp only [hnew, Bool.not_false, if_true] at ha
    exact .discard hs ho hnew (proceeds_continueSlot ho rfl ha)
  | true =>
    rw [hissue, hnew]
    rw [Run.analysis] at hnew
    simp only [hnew, Bool.not_true, Bool.false_eq_true, if_false] at ha
    have ho' : (s.modifySlot e.slot (·.publish (run.analysis r))).IsOpen e.slot
        (slot.publish (run.analysis r)) :=
      ⟨(getElem?_modifySlot_eq_some ho.get _).2 (.inl ⟨rfl, rfl⟩), ho.opened⟩
    exact .publish hs ho hnew (proceeds_continueSlot ho' rfl ha)

theorem supersedes_iff (ho : s.IsOpen n slot) (h : s.Reads n slot run) :
    slot.supersedes run.snapshot run.epoch = true ↔ slot.epoch ≠ run.epoch := by
  simp [Slot.supersedes, ho.opened, h.snapshot]

theorem announce_eq_heard (s : Session) : s.announce = s.heard s.subscribers := by
  have hfold : ∀ (handles : List Nat) (s : Session),
      handles.foldl (fun s handle => ((s.record (.notified handle)).takeScript handle).1) s =
        s.heard handles := by
    intro handles
    induction handles with
    | nil => exact fun _ => rfl
    | cons handle handles ih => exact fun s => ih _
  exact hfold _ _

theorem announce_eq (s : Session) : ∃ scripts events, s.announce = { s with scripts, events } := by
  rw [announce_eq_heard]
  exact heard_eq _ s

namespace InHand

theorem proceeds (h : s.InHand ledger (e :: es)) (ha : s.advance e = some (s', move)) :
    Proceeds s e (s.issue? e).toList s' move := by
  obtain ⟨slot, ho, hf⟩ := h.carries e (.head _)
  rw [advance, ho.get, Option.bind_eq_bind, Option.bind_some] at ha
  by_cases hpub : ∃ run r, e.stage = .publish run r
  · obtain ⟨run, r, hs⟩ := hpub
    simp only [Fits, hs] at ha hf
    exact proceeds_publishRun ho hf.1.place hs (Option.some.inj ha)
  have hissue : (s.issue? e).toList = [] := by
    rw [issue?]
    split
    · exact absurd ⟨_, _, ‹_›⟩ hpub
    · rfl
  rw [hissue]
  split at ha <;> rename_i hs <;> simp only [Fits, hs] at hf <;> try replace ha := Option.some.inj ha
  · exact proceeds_claimSlot ho (.inl hs) ha
  · split at ha
    · cases ha
    · rename_i hno
      refine proceeds_claimSlot ho (.inr ⟨hs, ?_⟩) (Option.some.inj ha)
      rw [ho.opened] at hno
      cases hfl : slot.inFlight with
      | false => exact .inl rfl
      | true => exact .inr (by simpa [hfl, Option.isSome_iff_ne_none] using hno)
  · obtain ⟨rfl, rfl⟩ := Prod.mk.inj ha
    split
    · rename_i hsup
      exact .overtaken (.inl hs) ho ((supersedes_iff ho hf.1).1 hsup)
    · exact .keep hs
  · obtain ⟨rfl, rfl⟩ := Prod.mk.inj ha
    exact .record hs ho
  · exact proceeds_resolveNames ho h.host hs ha
  · cases ha
  · obtain ⟨rfl, rfl⟩ := Prod.mk.inj ha
    exact .takeTable hs
  · obtain ⟨rfl, rfl⟩ := Prod.mk.inj ha
    split
    · rename_i hsup
      exact .overtaken (.inr ⟨_, hs⟩) ho ((supersedes_iff ho hf.1.toReads).1 hsup)
    · rename_i hsup
      exact .completed hs ho (not_not.1 (mt (supersedes_iff ho hf.1.toReads).2 hsup))
  · exact absurd ⟨_, _, hs⟩ hpub
  · exact proceeds_continueSlot ho hs ha
  · obtain ⟨rfl, rfl⟩ := Prod.mk.inj ha
    exact .inform hs ho rfl
  · obtain ⟨rfl, rfl⟩ := Prod.mk.inj ha
    rw [invalidate_eq h.coherent.unique]
    exact .invalidate hs
  · obtain ⟨rfl, rfl⟩ := Prod.mk.inj ha
    exact .announce hs

theorem answer (h : s.InHand ledger (e :: es)) (hs : e.stage = .claim ∨ e.stage = .wait) :
    s.InHand ledger es := by
  refine h.dismiss (.refl s) rfl rfl h.quiet (fun id hw => ?_) ?_
  · cases hw with
    | news _ _ _ _ _ hnews => rcases hs with hs | hs <;> simp [hs, Stage.changed, Stage.holds] at hnews
    | listed hl => rcases hs with hs | hs <;> simp [hs] at hl
  · rcases hs with hs | hs <;> rw [hs] <;> rfl

/-- Other errands with the same warnings, on which the same slots are in flight. -/
theorem regroup {es' : List Errand} (h : s.InHand ledger es)
    (hheld : ∀ m, Errand.holders es' m = Errand.holders es m)
    (hwarn : ∀ id, s.Warned es id → s.Warned es' id) (hnew : ∀ o ∈ es', o ∈ es ∨ s.Carries es' o) :
    s.InHand ledger es' := by
  refine ⟨h.coherent, h.quiet, h.host, h.orderly, fun k c hc => (hheld k).trans (h.held k c hc), h.noted,
    h.published, fun o hmem => ?_, fun k c p hc hf hl => (h.backed k c p hc hf hl).imp_left (hwarn _)⟩
  rcases hnew o hmem with ho | ho
  · obtain ⟨c, hc, hfits⟩ := h.carries o ho
    have hp : Passes none [] s s := .of_slots_eq (.refl s) rfl
    exact ⟨c, hc, hp.fits hc hc (fun _ => nofun) rfl (h.orderly _ _ hc) (fun hw => .inl (hwarn _ hw)) hfits⟩
  · exact ho

theorem perm {es' : List Errand} (h : s.InHand ledger es) (hp : es.Perm es') : s.InHand ledger es' :=
  h.regroup (fun _ => hp.symm.countP_eq _) (fun _ ⟨o, ho, hw⟩ => ⟨o, hp.mem_iff.1 ho, hw⟩)
    fun _ ho => .inl (hp.mem_iff.2 ho)

/-- An errand that is about to look at a slot neither holds it nor warns of anything. -/
theorem claim (h : s.InHand ledger es) (hb : s.IsOpen m b) (requester? : Option String) :
    s.InHand ledger (⟨m, requester?, .claim⟩ :: es) := by
  refine h.regroup (fun k => ?_) (fun _ ⟨o, ho, hw⟩ => ⟨o, .tail _ ho, hw⟩) fun o hmem => ?_
  · rw [Errand.holders_cons]
    simp [Errand.holders, Stage.holds]
  · rcases List.mem_cons.1 hmem with rfl | hmem
    · exact .inr ⟨b, hb, trivial⟩
    · exact .inl hmem

/-- A stage at which only what the errand knows or wants to do next changes. -/
theorem turn (h : s.InHand ledger (e :: es)) (hlisted : ∀ ids a, e.stage ≠ .invalidate ids a)
    (hchanged : e.stage.changed = true → stage.changed = true) (hholds : stage.holds = e.stage.holds)
    (hfits : ∀ slot, s.IsOpen e.slot slot → s.Fits (e :: es) e slot →
      (∀ run, s.Traces (e :: es) e.slot slot run → s.Traces ({ e with stage } :: es) e.slot slot run) →
      s.Fits ({ e with stage } :: es) { e with stage } slot) :
    s.InHand ledger ({ e with stage } :: es) :=
  h.restage (.refl s) rfl rfl h.quiet (fun _ hw => hw.restage hlisted hchanged hholds.ge) hholds hfits

/-- An analysis that is not newer than what is published is dropped. -/
theorem discard (h : s.InHand ledger (e :: es)) (hs : e.stage = .publish run r) :
    s.InHand ledger ({ e with stage := .reread run.changed } :: es) :=
  h.turn (by simp [hs]) (by simp [hs, Stage.changed]) (by simp [hs, Stage.holds]) fun _ _ _ _ => trivial

theorem call (h : s.InHand ledger (e :: es)) (hs : e.stage = .resolve run)
    (ho : s.IsOpen e.slot slot) (ha : s.AsksFor slot.id run g m) :
    s.InHand ledger (⟨m, some slot.id, .claim⟩ :: { e with stage := .await run g m } :: es) := by
  obtain ⟨b, hb, -⟩ := h.coherent.isOpen_of_source? ha.source
  refine claim (h.turn (by simp [hs]) (by simp [hs, Stage.changed]) (by simp [hs, Stage.holds])
    fun slot' ho' hf hkeep => ?_) hb _
  obtain rfl := ho'.eq ho
  simp only [Fits, hs] at hf ⊢
  exact ⟨hkeep _ hf, ha⟩

/-- An errand that waited for a document takes its table. -/
theorem resume (h : s.InHand ledger (e :: es)) (hs : e.stage = .await run g m)
    (hm : ∀ b, s.IsOpen m b → b.inFlight = true ∨ ¬ b.Dirty) :
    s.InHand ledger ({ e with stage := .takeTable run g m } :: es) := by
  refine h.turn (by simp [hs]) (by simp [hs, Stage.changed]) (by simp [hs, Stage.holds])
    fun _ _ hf hkeep => ?_
  simp only [Fits, hs] at hf ⊢
  exact ⟨hkeep _ hf.1, hf.2, hm⟩

theorem announce {a : Analysis} (h : s.InHand ledger (e :: es)) (hs : e.stage = .invalidate [] a) :
    s.announce.InHand ledger es := by
  have hquiet := h.quiet.heard s.subscribers
  rw [← announce_eq_heard] at hquiet
  obtain ⟨scripts, events, heq⟩ := s.announce_eq
  rw [heq] at hquiet ⊢
  have hsame : SameDocuments s { s with scripts, events } :=
    ⟨rfl, rfl, rfl, rfl, rfl, fun _ _ _ hr => hr⟩
  refine h.dismiss hsame rfl rfl hquiet (fun id hw => ?_) (by rw [hs]; rfl)
  cases hw with
  | news _ _ _ _ _ hnews => simp [hs, Stage.changed, Stage.holds] at hnews
  | listed hl hmem =>
    obtain ⟨rfl, -⟩ : [] = _ ∧ a = _ := by simpa [hs] using hl
    cases hmem

theorem proceed {ps : List Publication} (hp : Proceeds s e ps s' move) (h : s.InHand ledger (e :: es))
    (hreq : ∀ run g m, e.stage = .takeTable run g m → ∀ slot, s.IsOpen e.slot slot →
      ∀ o ∈ es, o.requester? ≠ some slot.id) :
    s'.InHand (ledger ++ ps) (move.errands ++ es) := by
  induction hp generalizing ledger with
  | publish hs ho _ _ ih =>
    have := ih (h.publish hs ho) nofun
    rwa [List.append_nil] at this
  | discard hs _ _ _ ih => exact ih (h.discard hs) nofun
  | answer hs _ _ =>
    rw [List.append_nil]
    exact h.answer hs
  | wait hs _ _ _ hr =>
    rw [List.append_nil]
    exact h.turn (by simp [hs]) (by simp [hs, Stage.changed]) (by simp [hs, Stage.holds])
      fun _ _ _ _ => hr
  | takeUp hs ho hfresh hf =>
    rw [List.append_nil]
    exact h.takeUp hs ho hfresh hf
  | overtaken hs _ _ =>
    rw [List.append_nil]
    rcases hs with hs | ⟨r, hs⟩ <;>
      exact h.turn (by simp [hs]) (by simp [hs, Stage.changed]) (by simp [hs, Stage.holds])
        fun _ _ _ _ => trivial
  | keep hs =>
    rw [List.append_nil]
    refine h.turn (by simp [hs]) (by simp [hs, Stage.changed]) (by simp [hs, Stage.holds])
      fun _ _ hf _ => ?_
    simpa only [Fits, hs] using hf
  | record hs ho =>
    rw [List.append_nil]
    exact h.record hs ho
  | call hs ho ha =>
    rw [List.append_nil]
    exact h.call hs ho ha
  | learnNone hs ho hg hm =>
    rw [List.append_nil]
    exact h.learnNone hs ho hg hm
  | resolved hs hr =>
    rw [List.append_nil]
    refine h.turn (by simp [hs]) (by simp [hs, Stage.changed]) (by simp [hs, Stage.holds])
      fun _ _ hf hkeep => ?_
    simp only [Fits, hs] at hf ⊢
    exact ⟨hkeep _ hf, hr⟩
  | takeTable hs =>
    rw [List.append_nil]
    exact h.takeTable hs (hreq _ _ _ hs)
  | completed hs _ _ =>
    rw [List.append_nil]
    refine h.turn (by simp [hs]) (by simp [hs, Stage.changed]) (by simp [hs, Stage.holds])
      fun _ _ hf hkeep => ?_
    simp only [Fits, hs] at hf ⊢
    exact ⟨hkeep _ hf.1, hf.2⟩
  | answerFresh hs ho hf =>
    rw [List.append_nil]
    exact h.answerFresh hs ho hf
  | informFresh hs ho hf =>
    rw [List.append_nil]
    exact h.informFresh hs ho hf
  | beginAgain hs ho hf =>
    rw [List.append_nil]
    exact h.beginAgain hs ho hf
  | inform hs ho hids =>
    rw [List.append_nil]
    exact h.inform hs ho hids
  | invalidate hs =>
    rw [List.append_nil]
    exact h.invalidate hs
  | announce hs =>
    rw [List.append_nil]
    exact h.announce hs

end InHand

/-- The documents stay the same. -/
theorem Proceeds.sameDocuments {ps : List Publication} (hp : Proceeds s e ps s' move)
    (h : s.InHand ledger (e :: es)) : SameDocuments s s' := by
  induction hp generalizing ledger with
  | @publish s s' e slot run r _ hs ho _ _ ih =>
    have hsame : SameDocuments s (s.modifySlot e.slot (·.publish (run.analysis r))) :=
      ⟨map_tag_modifySlot (f := (·.publish (run.analysis r))) (fun _ => rfl) _, rfl, rfl, rfl, rfl,
        fun _ _ _ hr => hr⟩
    exact hsame.trans (ih (h.publish hs ho))
  | discard hs _ _ _ ih => exact ih (h.discard hs)
  | takeUp hs ho => exact (passes_hold ho).toSameDocuments
  | @record s e slot run hs ho =>
    obtain ⟨slot', ho', hfits⟩ := h.carries e (.head _)
    obtain rfl := ho'.eq ho
    simp only [Fits, hs] at hfits
    have htable : run.table.imports.map Import.grammar =
        (SymbolTable.ofText slot'.latest.text).importNames := by rw [hfits.1.table]; rfl
    rw [htable]
    exact (passes_enterImports h.coherent.unique ho).toSameDocuments
  | answerFresh _ ho hf | informFresh _ ho hf =>
    exact (passes_letGo ho (not_dirty_of_isFresh (h.orderly _ _ ho) hf)).toSameDocuments
  | beginAgain => exact ⟨rfl, rfl, rfl, rfl, rfl, fun _ _ _ hr => hr⟩
  | invalidate => exact sameDocuments_bump _ _
  | @announce s _ _ _ =>
    obtain ⟨scripts, events, heq⟩ := s.announce_eq
    rw [heq]
    exact ⟨rfl, rfl, rfl, rfl, rfl, fun _ _ _ hr => hr⟩
  | _ => exact .refl _

/-- What a move has to do with the errand that it is made on. -/
theorem Proceeds.cases_move {ps : List Publication} (hp : Proceeds s e ps s' move) :
    (∃ stage, (∀ run g m, stage ≠ .await run g m) ∧ move = .stay { e with stage }) ∨
      (∃ run g m slot, e.stage = .resolve run ∧ s.IsOpen e.slot slot ∧ s.AsksFor slot.id run g m ∧ s' = s ∧
        move = .call { e with stage := .await run g m } ⟨m, some slot.id, .claim⟩) ∨
      ∃ a, move = .answer a := by
  induction hp with
  | publish _ _ _ _ ih | discard _ _ _ _ ih =>
    rcases ih with ⟨stage, hfirst, hmove⟩ | ⟨_, _, _, _, hs, -⟩ | hanswer
    · exact .inl ⟨stage, hfirst, hmove⟩
    · cases hs
    · exact .inr (.inr hanswer)
  | call hs ho ha => exact .inr (.inl ⟨_, _, _, _, hs, ho, ha, rfl, rfl⟩)
  | answer | answerFresh | announce => exact .inr (.inr ⟨_, rfl⟩)
  | _ => exact .inl ⟨_, by simp, rfl⟩

/-- A document that has been answered for is not behind, or is being seen to on another errand. -/
theorem Proceeds.settled {ps : List Publication} {an : Analysis}
    (hp : Proceeds s e ps s' (.answer an)) (h : s.InHand ledger (e :: es)) (hb : s'.IsOpen e.slot b) :
    b.inFlight = true ∨ ¬ b.Dirty := by
  generalize hm : Move.answer an = move at hp
  induction hp generalizing ledger with
  | publish hs ho _ _ ih => exact ih (h.publish hs ho) hb hm
  | discard hs _ _ _ ih => exact ih (h.discard hs) hb hm
  | answer _ ho hd =>
    obtain rfl := ho.eq hb
    exact hd.symm.imp And.left (not_dirty_of_isFresh (h.orderly _ _ ho))
  | answerFresh _ ho hf =>
    have hd := not_dirty_of_isFresh (h.orderly _ _ ho) hf
    rcases (getElem?_letGo ho).1 hb.get with ⟨-, rfl⟩ | ⟨hne, -⟩
    · exact .inr hd
    · exact absurd rfl hne
  | @announce s _ _ hs =>
    obtain ⟨scripts, events, heq⟩ := s.announce_eq
    obtain ⟨slot, ho, hf⟩ := h.carries _ (.head _)
    simp only [Fits, hs] at hf
    rw [heq] at hb
    obtain rfl := ho.eq (show s.IsOpen _ b from ⟨hb.get, hb.opened⟩)
    exact .inr hf.1
  | _ => cases hm

end Session

end GrammarAtlas
