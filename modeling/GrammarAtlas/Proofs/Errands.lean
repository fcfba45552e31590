import GrammarAtlas.Atlas.Pool
import GrammarAtlas.Proofs.Replacement

/-! # What errands owe to a session

The workers of a pool leave a session between two operations in states that no operation would leave
it in: slots are in flight on errands of several workers, and what an analysis has seen of a document
may be replaced before it is published itself. `Session.InHand ledger s es` says what holds all the
same, `es` being all errands that the workers are on.

Its core is about answers that have come to be wrong. An analysis, under way or published, that made
use of an outdated table is sure to be invalidated: some errand still has to announce what replaces
the table (`Errand.Warns`). That is so because a table is outdated only while its document is in
flight on another errand, and because whoever asks is linked to what it asks for by then. The latter
needs the host to stay out of it, whose grammars the graph does not know. -/

namespace GrammarAtlas

namespace Stage

/-- The slot is in flight on account of the errand. -/
def holds : Stage → Bool
  | claim | wait | inform _ | invalidate _ _ => false
  | extract _ | record _ | resolve _ | await _ _ _ | takeTable _ _ _ | complete _ _ | publish _ _
  | reread _ => true

/-- A changed view has been published that nobody knows of yet. -/
def changed : Stage → Bool
  | extract run | record run | resolve run | await run _ _ | takeTable run _ _ | complete run _
  | publish run _ => run.changed
  | reread changed => changed
  | inform _ => true
  | claim | wait | invalidate _ _ => false

end Stage

/-- The number of errands on which slot `n` is in flight. -/
def Errand.holders (es : List Errand) (n : Nat) : Nat :=
  es.countP fun e => e.slot == n && e.stage.holds

namespace Session
variable {s s' : Session} {n m : Nat} {slot a b : Slot} {id g : String} {ledger : List Publication}
  {e o : Errand} {es es' new : List Errand} {run : Run} {r : Resolution} {ids : List String}
  {n? : Option Nat}

/-- What is left to do on the errand invalidates the document `id`. -/
inductive Warns (s : Session) (id : String) (e : Errand) : Prop
  | news {slot : Slot} {g : String} (ho : s.IsOpen e.slot slot)
      (hg : Grammar.sniffName? slot.latest.text = some g) (hl : s.Linked id g) (hne : id ≠ slot.id)
      (hreq : e.requester? ≠ some id)
      (hnews : e.stage.changed = true ∨ e.stage.holds = true ∧ slot.Dirty) : Warns s id e
  | listed {ids : List String} {a : Analysis} (hs : e.stage = .invalidate ids a) (hid : id ∈ ids) :
      Warns s id e

def Warned (s : Session) (es : List Errand) (id : String) : Prop := ∃ e ∈ es, s.Warns id e

/-- The run is an analysis of the latest text of slot `n`. -/
structure Reads (s : Session) (n : Nat) (slot : Slot) (run : Run) : Prop where
  place : run.slot = n
  snapshot : run.snapshot = slot.latest
  grammar : run.grammar = Grammar.parse slot.latest.text
  table : run.table = .ofText slot.latest.text
  epoch : run.epoch ≤ slot.epoch
  stale : slot.isFresh = false

/-- The answers are right, and the graph knows the way to each of them. -/
def Faithful (s : Session) (id : String) (known : Known) : Prop :=
  ∀ g t?, (g, t?) ∈ known → s.Linked id g ∧ AlikeAnswers t? (s.actual? id g) ∧
    ∀ m b, s.source? id g = some m → s.IsOpen m b → t?.isSome = true → s.Recorded b

/-- The run has got answers, and is sure to be overtaken unless they are right. -/
structure Traces (s : Session) (es : List Errand) (n : Nat) (slot : Slot) (run : Run) : Prop
    extends Reads s n slot run where
  recorded : s.Recorded slot
  asked : Resolution.Asked run.grammar.tree run.table s.settings.warnUnresolved
    (firstKnown s.settings run.table) run.known
  supplied : ∀ g t, (g, some t) ∈ run.known → (s.source? slot.id g).isSome = true
  answers : run.epoch < slot.epoch ∨ s.Warned es slot.id ∨ s.Faithful slot.id run.known

/-- The run asks slot `m` for a grammar. -/
structure AsksFor (s : Session) (id : String) (run : Run) (g : String) (m : Nat) : Prop where
  attempt : Resolution.attempt run.known run.grammar.tree run.table s.settings.warnUnresolved =
    .error g
  source : s.source? id g = some m

/-- The analysis is of the latest text of the slot. -/
def Reports (s : Session) (slot : Slot) (a : Analysis) : Prop :=
  a.snapshot = slot.latest ∧ ∃ p : Publication, p.analysis = a ∧ p.Genuine s.settings s.host?

/-- What is there to be relied on at each stage of an errand. -/
def Fits (s : Session) (es : List Errand) (e : Errand) (slot : Slot) : Prop :=
  match e.stage with
  | .claim | .reread _ => True
  | .wait => e.requester? = none
  | .extract run | .record run =>
    s.Reads e.slot slot run ∧ run.known = firstKnown s.settings run.table
  | .resolve run => s.Traces es e.slot slot run
  | .await run g m => s.Traces es e.slot slot run ∧ s.AsksFor slot.id run g m
  | .takeTable run g m => s.Traces es e.slot slot run ∧ s.AsksFor slot.id run g m ∧
    ∀ b, s.IsOpen m b → b.inFlight = true ∨ ¬ b.Dirty
  | .complete run r | .publish run r => s.Traces es e.slot slot run ∧
    Resolution.attempt run.known run.grammar.tree run.table s.settings.warnUnresolved = .ok r
  | .inform a | .invalidate _ a => ¬ slot.Dirty ∧ s.Reports slot a

/-- The errand is about a registered document, and all is as its stage has it. -/
def Carries (s : Session) (es : List Errand) (e : Errand) : Prop :=
  ∃ slot, s.IsOpen e.slot slot ∧ s.Fits es e slot

structure InHand (ledger : List Publication) (s : Session) (es : List Errand) : Prop where
  coherent : s.Coherent
  quiet : s.Quiet
  host : s.host? = none
  orderly : ∀ n slot, s.IsOpen n slot → slot.Orderly
  /-- A slot is in flight on one errand at a time. -/
  held : ∀ n slot, s.slots[n]? = some slot → Errand.holders es n = slot.inFlight.toNat
  noted : ∀ n slot a, s.IsOpen n slot → slot.published? = some a →
    s.graph.importsOf slot.id = a.table.importNames ∨ slot.inFlight = true ∧ s.Recorded slot
  published : ∀ n slot a, s.IsOpen n slot → slot.published? = some a →
    ∃ p, Publication.last? ledger n = some p ∧ p.analysis = a ∧ p.document = slot.id ∧
      p.Genuine s.settings s.host?
  carries : ∀ e ∈ es, s.Carries es e
  backed : ∀ n slot p, s.IsOpen n slot → slot.isFresh = true →
    Publication.last? ledger n = some p → s.Warned es slot.id ∨ s.Backed p

/-- A stage of an errand may publish and let go of slot `n?`, and invalidates `ids`. -/
structure Passes (n? : Option Nat) (ids : List String) (s s' : Session) : Prop
    extends SameDocuments s s' where
  epoch : ∀ {m : Nat} {a b : Slot}, s.slots[m]? = some a → s'.slots[m]? = some b → a.epoch ≤ b.epoch
  informed : ∀ {m : Nat} {a b : Slot}, s.IsOpen m a → s'.slots[m]? = some b → a.id ∈ ids →
    a.epoch < b.epoch
  kept : ∀ {m : Nat} {a b : Slot}, n? ≠ some m → s.slots[m]? = some a → s'.slots[m]? = some b →
    b.published? = a.published? ∧ b.inFlight = a.inFlight
  clean : ∀ {m : Nat} {a b : Slot}, s.slots[m]? = some a → s'.slots[m]? = some b → ¬ a.Dirty → ¬ b.Dirty
  /-- A slot that is not in flight any more is not dirty. -/
  settled : ∀ {m : Nat} {a b : Slot}, s.IsOpen m a → s'.slots[m]? = some b →
    a.inFlight = true ∨ ¬ a.Dirty → b.inFlight = true ∨ ¬ b.Dirty

namespace Passes

theorem isOpen (h : Passes n? ids s s') (ho : s.IsOpen m a) : ∃ b, s'.IsOpen m b ∧ b.tag = a.tag :=
  ho.of_tag h.tags

theorem isOpen_back (h : Passes n? ids s s') (hb : s'.IsOpen m b) : ∃ a, s.IsOpen m a ∧ a.tag = b.tag :=
  hb.of_tag h.tags.symm

theorem faithful (h : Passes n? ids s s') {known : Known} (hf : s.Faithful id known) :
    s'.Faithful id known := by
  intro g t? hk
  obtain ⟨hl, ha, hr⟩ := hf g t? hk
  refine ⟨h.linked hl, by rwa [h.actual?], fun m b hm hb ht => ?_⟩
  obtain ⟨a, ha, htag⟩ := h.isOpen_back hb
  rw [h.source?] at hm
  exact (h.recorded m a ha (hr m a hm ha ht)).of_tag htag.symm

theorem reports (h : Passes n? ids s s') (htag : b.tag = a.tag) {an : Analysis}
    (hr : s.Reports a an) : s'.Reports b an := by
  have hl : b.latest = a.latest := congrArg (·.2.2) htag
  rw [Reports, h.settings, h.host, hl]
  exact hr

/-- An errand that slot `n?` is not held by goes on to warn whom it warned. -/
theorem warns (h : Passes n? ids s s') (ho : o.stage.holds = true → n? ≠ some o.slot)
    (hw : s.Warns id o) : s'.Warns id o := by
  cases hw with
  | @news slot g hopen hg hl hne hreq hnews =>
    obtain ⟨slot', hopen', htag⟩ := h.isOpen hopen
    have hid : slot'.id = slot.id := congrArg (·.1) htag
    have hlatest : slot'.latest = slot.latest := congrArg (·.2.2) htag
    refine .news hopen' (by rwa [hlatest]) (h.linked hl) (by rwa [hid]) hreq (hnews.imp_right ?_)
    rintro ⟨hh, hd⟩
    refine ⟨hh, fun x hx => ?_⟩
    rw [hlatest]
    exact hd x ((h.kept (ho hh) hopen.get hopen'.get).1 ▸ hx)
  | listed hs hid => exact .listed hs hid

theorem warned_of_cons (h : Passes n? ids s s')
    (hfree : ∀ o ∈ es, o.stage.holds = true → n? ≠ some o.slot) (hwarn : ∀ id, s.Warns id e → s'.Warned new id ∨ id ∈ ids)
    (hw : s.Warned (e :: es) id) : s'.Warned (new ++ es) id ∨ id ∈ ids := by
  obtain ⟨o, ho, hw⟩ := hw
  rcases List.mem_cons.1 ho with rfl | ho
  · refine (hwarn id hw).imp_left ?_
    rintro ⟨x, hx, hw⟩
    exact ⟨x, List.mem_append_left _ hx, hw⟩
  · exact .inl ⟨o, List.mem_append_right _ ho, h.warns (hfree o ho) hw⟩

section
variable (h : Passes n? ids s s') (ho : s.IsOpen n a) (hb : s'.IsOpen n b)
include h ho hb

theorem tag_eq : b.tag = a.tag := by
  obtain ⟨c, hc, htag⟩ := h.isOpen ho
  rwa [hb.eq hc]

theorem reads (hn : n? ≠ some n) (horderly : a.Orderly) (hr : s.Reads n a run) : s'.Reads n b run := by
  have hlatest : b.latest = a.latest := congrArg (·.2.2) (h.tag_eq ho hb)
  have hle := h.epoch ho.get hb.get
  refine ⟨hr.place, by rw [hlatest]; exact hr.snapshot, by rw [hlatest]; exact hr.grammar,
    by rw [hlatest]; exact hr.table, hr.epoch.trans hle, ?_⟩
  rw [Bool.eq_false_iff, Ne, Slot.isFresh_iff]
  rintro ⟨x, hx, hxl, hxe⟩
  rw [(h.kept hn ho.get hb.get).1] at hx
  have := horderly.epoch x hx
  refine Bool.eq_false_iff.1 hr.stale (Slot.isFresh_iff.2 ⟨x, hx, hxl.trans hlatest, ?_⟩)
  omega

theorem traces (hn : n? ≠ some n) (horderly : a.Orderly)
    (hw : s.Warned es a.id → s'.Warned es' a.id ∨ a.id ∈ ids) (ht : s.Traces es n a run) :
    s'.Traces es' n b run := by
  have htag := h.tag_eq ho hb
  have hid : b.id = a.id := congrArg (·.1) htag
  refine ⟨h.reads ho hb hn horderly ht.toReads, (h.recorded n a ho ht.recorded).of_tag htag, ?_, ?_, ?_⟩
  · rw [h.settings]; exact ht.asked
  · intro g t hk
    rw [hid, h.source?]
    exact ht.supplied g t hk
  · rcases ht.answers with hlt | hwarned | hf
    · exact .inl (hlt.trans_le (h.epoch ho.get hb.get))
    · rcases hw hwarned with hw | hi
      · exact .inr (.inl (by rwa [hid]))
      · exact .inl (ht.epoch.trans_lt (h.informed ho hb.get hi))
    · exact .inr (.inr (by rw [hid]; exact h.faithful hf))

theorem fits (hn : o.stage.holds = true → n? ≠ some n) (hslot : o.slot = n) (horderly : a.Orderly)
    (hw : s.Warned es a.id → s'.Warned es' a.id ∨ a.id ∈ ids)
    (hf : s.Fits es o a) : s'.Fits es' o b := by
  subst hslot
  have htag := h.tag_eq ho hb
  have hid : b.id = a.id := congrArg (·.1) htag
  have hasks : ∀ {run g m}, s.AsksFor a.id run g m → s'.AsksFor b.id run g m := by
    intro run g m ha
    exact ⟨by rw [h.settings]; exact ha.attempt, by rw [hid, h.source?]; exact ha.source⟩
  rw [Fits] at hf ⊢
  split <;> rename_i hs <;> simp only [hs, Stage.holds, forall_const, Bool.false_eq_true,
    false_implies] at hn hf ⊢
  · exact hf
  · exact ⟨h.reads ho hb hn horderly hf.1, by rw [h.settings]; exact hf.2⟩
  · exact ⟨h.reads ho hb hn horderly hf.1, by rw [h.settings]; exact hf.2⟩
  · exact h.traces ho hb hn horderly hw hf
  · exact ⟨h.traces ho hb hn horderly hw hf.1, hasks hf.2⟩
  · refine ⟨h.traces ho hb hn horderly hw hf.1, hasks hf.2.1, fun c hcb => ?_⟩
    obtain ⟨d, hd, -⟩ := h.isOpen_back hcb
    exact h.settled hd hcb.get (hf.2.2 d hd)
  · exact ⟨h.traces ho hb hn horderly hw hf.1, by rw [h.settings]; exact hf.2⟩
  · exact ⟨h.traces ho hb hn horderly hw hf.1, by rw [h.settings]; exact hf.2⟩
  · exact ⟨h.clean ho.get hb.get hf.1, h.reports htag hf.2⟩
  · exact ⟨h.clean ho.get hb.get hf.1, h.reports htag hf.2⟩

end

end Passes

theorem Passes.of_slots_eq (h : SameDocuments s s') (hs : s'.slots = s.slots) : Passes none [] s s' := by
  have heq : ∀ {m : Nat} {a b : Slot}, s.slots[m]? = some a → s'.slots[m]? = some b → b = a := by
    intro m a b ha hb
    rw [hs, ha] at hb
    exact (Option.some.inj hb).symm
  refine ⟨h, fun ha hb => ?_, fun ha hb hi => ?_, fun _ ha hb => ?_, fun ha hb hc => ?_,
    fun ha hb hc => ?_⟩
  · rw [heq ha hb]
  · cases hi
  · rw [heq ha hb]
    exact ⟨rfl, rfl⟩
  · rwa [heq ha hb]
  · rwa [heq ha.get hb]

theorem passes_bump (s : Session) (ids : List String) : Passes none ids s (s.bump ids) := by
  have heq : ∀ {m : Nat} {a b : Slot}, s.slots[m]? = some a → (s.bump ids).slots[m]? = some b →
      b = a.bump ids := by
    intro m a b ha hb
    rw [bump, List.getElem?_map, ha] at hb
    exact (Option.some.inj hb).symm
  have hdirty : ∀ {a : Slot}, ¬ a.Dirty → ¬ (a.bump ids).Dirty := by
    intro a ha
    rwa [Slot.Dirty, Slot.published?_bump, Slot.latest_bump]
  refine ⟨sameDocuments_bump s ids, fun ha hb => ?_, fun ha hb hi => ?_, fun _ ha hb => ?_,
    fun ha hb hc => ?_, fun ha hb hc => ?_⟩
  · rw [heq ha hb]
    exact Slot.epoch_le_bump
  · rw [heq ha.get hb, Slot.bump, if_pos ⟨ha.opened, hi⟩]
    exact Nat.lt_succ_self _
  · rw [heq ha hb, Slot.published?_bump, Slot.inFlight_bump]
    exact ⟨rfl, rfl⟩
  · rw [heq ha hb]
    exact hdirty hc
  · rw [heq ha.get hb, Slot.inFlight_bump]
    exact hc.imp_right hdirty

theorem passes_modifySlot {f : Slot → Slot} (htag : ∀ a, (f a).tag = a.tag)
    (hepoch : ∀ a, (f a).epoch = a.epoch) (ho : s.IsOpen n slot) (hclean : ¬ slot.Dirty → ¬ (f slot).Dirty)
    (hsettled : slot.inFlight = true ∨ ¬ slot.Dirty → (f slot).inFlight = true ∨ ¬ (f slot).Dirty) :
    Passes (some n) [] s (s.modifySlot n f) := by
  have hself : ∀ {b}, (s.modifySlot n f).slots[n]? = some b → b = f slot := by
    intro b hb
    rw [get?_modifySlot, ho.get] at hb
    exact (Option.some.inj hb).symm
  have hother : ∀ {m : Nat} {a b : Slot}, m ≠ n → s.slots[m]? = some a →
      (s.modifySlot n f).slots[m]? = some b → b = a := by
    intro m a b hm ha hb
    rw [get?_modifySlot_of_ne f (Ne.symm hm), ha] at hb
    exact (Option.some.inj hb).symm
  have hslot : ∀ {a}, s.slots[n]? = some a → a = slot := fun ha => Option.some.inj (ha.symm.trans ho.get)
  refine ⟨⟨map_tag_modifySlot htag n, rfl, rfl, rfl, rfl, fun _ _ _ hr => hr⟩, fun {m a b} ha hb => ?_,
    fun _ _ hi => absurd hi List.not_mem_nil, fun {m a b} hm ha hb => ?_, fun {m a b} ha hb hc => ?_,
    fun {m a b} ha hb hc => ?_⟩
  · by_cases hm : m = n
    · subst hm
      rw [hself hb, hepoch, hslot ha]
    · rw [hother hm ha hb]
  · rw [hother (fun h => hm (congrArg some h.symm)) ha hb]
    exact ⟨rfl, rfl⟩
  · by_cases hm : m = n
    · subst hm
      rw [hself hb]
      exact hclean (hslot ha ▸ hc)
    · rwa [hother hm ha hb]
  · by_cases hm : m = n
    · subst hm
      rw [hself hb]
      exact hsettled (hslot ha.get ▸ hc)
    · rwa [hother hm ha.get hb]

/-! ## What is in hand after a stage -/

theorem Errand.holders_append (es es' : List Errand) (n : Nat) :
    Errand.holders (es ++ es') n = Errand.holders es n + Errand.holders es' n :=
  List.countP_append ..

theorem Errand.holders_cons (e : Errand) (es : List Errand) (n : Nat) :
    Errand.holders (e :: es) n = Errand.holders [e] n + Errand.holders es n :=
  Errand.holders_append [e] es n

namespace InHand

/-- A slot that is in flight on an errand is so on no other. -/
theorem ne_of_holds (h : s.InHand ledger (e :: es)) (hh : e.stage.holds = true) :
    ∀ o ∈ es, o.stage.holds = true → some e.slot ≠ some o.slot := by
  intro o ho hoh heq
  obtain ⟨slot, hopen, -⟩ := h.carries e (.head _)
  have hle : Errand.holders (e :: es) e.slot ≤ 1 := by
    rw [h.held _ _ hopen.get]
    exact Bool.toNat_le slot.inFlight
  have hpos : 0 < Errand.holders es e.slot :=
    List.countP_pos_iff.2 ⟨o, ho, by simp [← Option.some.inj heq, hoh]⟩
  have hone : Errand.holders [e] e.slot = 1 := by simp [Errand.holders, hh]
  rw [Errand.holders_cons] at hle
  omega

theorem inFlight_of_holds (h : s.InHand ledger (e :: es)) (hh : e.stage.holds = true)
    (ho : s.IsOpen e.slot slot) : slot.inFlight = true := by
  have hpos : 0 < Errand.holders (e :: es) e.slot :=
    List.countP_pos_iff.2 ⟨e, .head _, by simp [hh]⟩
  rw [h.held _ _ ho.get] at hpos
  cases hf : slot.inFlight with
  | true => rfl
  | false => rw [hf] at hpos; exact absurd hpos (by decide)

/-- A stage that publishes nothing. -/
theorem passes (h : s.InHand ledger (e :: es)) (hp : Passes n? ids s s')
    (hfree : ∀ o ∈ es, o.stage.holds = true → n? ≠ some o.slot) (hq : s'.Quiet)
    (hd : s'.graph.imports.Distinct)
    (hpub : ∀ {m : Nat} {a b : Slot}, s.slots[m]? = some a → s'.slots[m]? = some b →
      b.published? = a.published?)
    (hheld : ∀ (m : Nat) (a b : Slot), s.slots[m]? = some a → s'.slots[m]? = some b →
      Errand.holders new m + a.inFlight.toNat = Errand.holders [e] m + b.inFlight.toNat)
    (hnoted : ∀ m b x, s'.IsOpen m b → b.published? = some x →
      s'.graph.importsOf b.id = x.table.importNames ∨ b.inFlight = true ∧ s'.Recorded b)
    (hwarn : ∀ id, s.Warns id e → s'.Warned new id ∨ id ∈ ids)
    (hnew : ∀ o ∈ new, s'.Carries (new ++ es) o) : s'.InHand ledger (new ++ es) := by
  refine ⟨hp.coherent h.coherent hd, hq, by rw [hp.host, h.host], fun m b hb => ?_, fun m b hb => ?_,
    hnoted, fun m b x hb hx => ?_, fun o ho => ?_, fun m b p hb hf hl => ?_⟩
  · obtain ⟨a, ha, htag⟩ := hp.isOpen_back hb
    have hlatest : a.latest = b.latest := congrArg (·.2.2) htag
    have hord := h.orderly m a ha
    refine ⟨?_, ?_, ?_, ?_⟩ <;> rw [hpub ha.get hb.get] <;> try rw [← hlatest]
    · exact hord.version
    · exact hord.latest
    · exact fun x hx => (hord.epoch x hx).trans (hp.epoch ha.get hb.get)
    · exact hord.table
  · have htag := getElem?_tag_congr hp.tags m
    rw [hb, Option.map_some, eq_comm, Option.map_eq_some_iff] at htag
    obtain ⟨a, ha, -⟩ := htag
    have hold := h.held m a ha
    have hnew := hheld m a b ha hb
    rw [Errand.holders_cons] at hold
    rw [Errand.holders_append]
    omega
  · obtain ⟨a, ha, htag⟩ := hp.isOpen_back hb
    have hid : a.id = b.id := congrArg (·.1) htag
    rw [hp.settings, hp.host, ← hid]
    exact h.published m a x ha (hpub ha.get hb.get ▸ hx)
  · rcases List.mem_append.1 ho with ho | ho
    · exact hnew o ho
    · obtain ⟨slot, hopen, hf⟩ := h.carries o (.tail _ ho)
      obtain ⟨slot', hopen', -⟩ := hp.isOpen hopen
      exact ⟨slot', hopen', hp.fits hopen hopen' (hfree o ho) rfl (h.orderly _ _ hopen)
        (hp.warned_of_cons hfree hwarn) hf⟩
  · obtain ⟨a, ha, htag⟩ := hp.isOpen_back hb
    have hid : a.id = b.id := congrArg (·.1) htag
    have hlatest : a.latest = b.latest := congrArg (·.2.2) htag
    obtain ⟨x, hx, hxl, hxe⟩ := Slot.isFresh_iff.1 hf
    rw [hpub ha.get hb.get] at hx
    have hle := (h.orderly m a ha).epoch x hx
    have hle' := hp.epoch ha.get hb.get
    have hfa : a.isFresh = true := Slot.isFresh_iff.2 ⟨x, hx, by rw [hxl, hlatest], by omega⟩
    rw [← hid]
    rcases h.backed m a p ha hfa hl with hw | hback
    · rcases hp.warned_of_cons hfree hwarn hw with hw | hi
      · exact .inl hw
      · have := hp.informed ha hb.get hi
        omega
    · exact .inr (hp.backed hback)

end InHand

end Session

end GrammarAtlas
