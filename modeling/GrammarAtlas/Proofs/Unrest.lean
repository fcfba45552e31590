import GrammarAtlas.Proofs.Upkeep
import Mathlib.Data.Finset.Card

/-! # Why analyses come to an end

An analysis starts again whenever one of the grammars it may have seen changes its view, and such
changes set off each other. `Session.unrest` measures how much of that there can be. A document that
is published for its latest text the first time changes the tables which the others see; there are
no more such changes than documents that are behind. As long as the tables stay what they are, what
a document resolves to is settled, and only a document that does not show that yet can change its
view. So each publication that shows a change lowers the unrest, and none raises it. -/

namespace GrammarAtlas

theorem Analysis.sameView_iff {a b : Analysis} : a.sameView b = true ↔
    a.table.symbols = b.table.symbols ∧ a.unresolved = b.unresolved ∧
      a.occurrences = b.occurrences := by
  simp only [sameView, Bool.and_eq_true, beq_iff_eq, and_assoc]

namespace Session
variable {s s' s'' : Session} {n m : Nat} {slot a b : Slot} {id g : String}
  {ledger : List Publication} {run : Run} {r : Resolution} {requester? : Option String}

/-- The slot shows what its latest text resolves to with the visible tables. -/
structure Settled (s : Session) (slot : Slot) : Prop where
  intro ::
  exists_resolution : ∃ a r, slot.published? = some a ∧ a.snapshot = slot.latest ∧
    Resolution.Settles (s.visible? slot.id) (Grammar.parse slot.latest.text).tree
      (.ofText slot.latest.text) s.settings.warnUnresolved
      (firstKnown s.settings (.ofText slot.latest.text)) r ∧
    a.occurrences = r.occurrences ∧ a.unresolved = r.unresolved

section measure
open scoped Classical

/-- The registered documents whose latest text has not been published. -/
noncomputable def behind (s : Session) : Finset Nat :=
  {n ∈ Finset.range s.slots.length | ∃ slot, s.IsOpen n slot ∧ ¬ slot.IsCurrent}

noncomputable def unsettled (s : Session) : Finset Nat :=
  {n ∈ Finset.range s.slots.length | ∃ slot, s.IsOpen n slot ∧ ¬ s.Settled slot}

noncomputable def unrest (s : Session) : Nat :=
  s.behind.card * (s.slots.length + 1) + s.unsettled.card

theorem mem_behind : n ∈ s.behind ↔ ∃ slot, s.IsOpen n slot ∧ ¬ slot.IsCurrent := by
  rw [behind, Finset.mem_filter, Finset.mem_range, and_iff_right_iff_imp]
  rintro ⟨slot, ho, -⟩
  exact (List.getElem?_eq_some_iff.1 ho.get).1

theorem mem_unsettled : n ∈ s.unsettled ↔ ∃ slot, s.IsOpen n slot ∧ ¬ s.Settled slot := by
  rw [unsettled, Finset.mem_filter, Finset.mem_range, and_iff_right_iff_imp]
  rintro ⟨slot, ho, -⟩
  exact (List.getElem?_eq_some_iff.1 ho.get).1

theorem card_unsettled_le (s : Session) : s.unsettled.card ≤ s.slots.length := by
  have := Finset.card_le_card (s := s.unsettled) (Finset.filter_subset _ _)
  rwa [Finset.card_range] at this

end measure

section compare
variable (hlen : s'.slots.length = s.slots.length)
include hlen

theorem unrest_le (hb : s'.behind ⊆ s.behind) (hu : s'.unsettled ⊆ s.unsettled) :
    s'.unrest ≤ s.unrest := by
  rw [unrest, unrest, hlen]
  exact Nat.add_le_add (Nat.mul_le_mul_right _ (Finset.card_le_card hb)) (Finset.card_le_card hu)

/-- One document less that is behind outweighs all that become unsettled. -/
theorem unrest_lt_of_behind (hb : s'.behind ⊂ s.behind) : s'.unrest < s.unrest := by
  have hcard := Finset.card_lt_card hb
  have hu := s'.card_unsettled_le
  rw [hlen] at hu
  calc s'.unrest
    _ = s'.behind.card * (s.slots.length + 1) + s'.unsettled.card := by rw [unrest, hlen]
    _ < s'.behind.card * (s.slots.length + 1) + (s.slots.length + 1) := by omega
    _ = (s'.behind.card + 1) * (s.slots.length + 1) := by rw [Nat.succ_mul]
    _ ≤ s.behind.card * (s.slots.length + 1) := Nat.mul_le_mul_right _ hcard
    _ ≤ s.unrest := Nat.le_add_right _ _

theorem unrest_lt_of_unsettled (hb : s'.behind ⊆ s.behind) (hu : s'.unsettled ⊂ s.unsettled) :
    s'.unrest < s.unrest := by
  rw [unrest, unrest, hlen]
  exact Nat.add_lt_add_of_le_of_lt (Nat.mul_le_mul_right _ (Finset.card_le_card hb))
    (Finset.card_lt_card hu)

end compare

theorem SameDocuments.length_eq (h : SameDocuments s s') : s'.slots.length = s.slots.length := by
  simpa using congrArg List.length h.tags

def table? (s : Session) (n : Nat) : Option SymbolTable :=
  (s.slots[n]?.bind Slot.published?).map Analysis.table

theorem SameDocuments.visible? (h : SameDocuments s s')
    (ht : ∀ m, s.source? id g = some m → s'.table? m = s.table? m) :
    s'.visible? id g = s.visible? id g := by
  rw [Session.visible?, Session.visible?, h.settings, h.source?, h.hostTable?]
  cases hm : s.source? id g with
  | none => rfl
  | some m => exact congrArg (fun t => if s.settings.resolveImports then t else none) (ht m hm)

theorem SameDocuments.settled (h : SameDocuments s s') (hv : ∀ g, s'.visible? a.id g = s.visible? a.id g)
    (htag : b.tag = a.tag) (hp : b.published? = a.published?) (hs : s.Settled a) : s'.Settled b := by
  have hid : b.id = a.id := congrArg (·.1) htag
  have hl : b.latest = a.latest := congrArg (·.2.2) htag
  obtain ⟨an, r, ha, hal, hr, hocc, hun⟩ := hs
  refine ⟨an, r, hp.trans ha, hal.trans hl.symm, ?_, hocc, hun⟩
  rw [hid, hl, h.settings, show s'.visible? a.id = s.visible? a.id from funext hv]
  exact hr

section
variable (h : SameDocuments s s')
  (hp : ∀ m : Nat, s'.slots[m]?.bind Slot.published? = s.slots[m]?.bind Slot.published?)
include h hp

theorem SameDocuments.isOpen_of_published (hb : s'.IsOpen m b) :
    ∃ a, s.IsOpen m a ∧ b.tag = a.tag ∧ b.published? = a.published? := by
  obtain ⟨a, ha, ht⟩ := hb.of_tag h.tags.symm
  have := hp m
  rw [hb.get, ha.get] at this
  exact ⟨a, ha, ht.symm, this⟩

theorem SameDocuments.behind_subset : s'.behind ⊆ s.behind := by
  intro m hm
  obtain ⟨b, hb, hc⟩ := mem_behind.1 hm
  obtain ⟨a, ha, ht, hpa⟩ := h.isOpen_of_published hp hb
  refine mem_behind.2 ⟨a, ha, fun hca => hc ?_⟩
  have hl : b.latest = a.latest := congrArg (·.2.2) ht
  rw [Slot.IsCurrent, hl, hpa]
  exact hca

theorem SameDocuments.unsettled_subset : s'.unsettled ⊆ s.unsettled := by
  intro m hm
  obtain ⟨b, hb, hc⟩ := mem_unsettled.1 hm
  obtain ⟨a, ha, ht, hpa⟩ := h.isOpen_of_published hp hb
  have hv : ∀ g, s'.visible? a.id g = s.visible? a.id g := fun g =>
    h.visible? fun m _ => by rw [table?, hp m, table?]
  exact mem_unsettled.2 ⟨a, ha, fun hca => hc (h.settled hv ht hpa hca)⟩

theorem SameDocuments.unrest_le : s'.unrest ≤ s.unrest :=
  Session.unrest_le h.length_eq (h.behind_subset hp) (h.unsettled_subset hp)

end

/-! ## Publications -/

theorem answeredBy_firstKnown (s : Session) (id : String) (own : SymbolTable) :
    (firstKnown s.settings own).answeredBy (s.visible? id) = firstKnown s.settings own := by
  rw [firstKnown]
  split
  · rfl
  · rename_i hres
    have hnone : s.visible? id = fun _ => none := by
      funext g
      rw [visible?, if_neg hres]
    rw [hnone, Resolution.answeredBy_closedBook]

/-- What a run resolves to is what the visible tables lead to, if the answers are from them. -/
theorem settles_of_answers
    (hasked : Resolution.Asked run.grammar.tree run.table s.settings.warnUnresolved
      (firstKnown s.settings run.table) run.known)
    (hanswers : ∀ g t?, (g, t?) ∈ run.known → t? = s.visible? id g)
    (hr : Resolution.attempt run.known run.grammar.tree run.table s.settings.warnUnresolved = .ok r) :
    Resolution.Settles (s.visible? id) run.grammar.tree run.table s.settings.warnUnresolved
      (firstKnown s.settings run.table) r := by
  rw [← s.answeredBy_firstKnown id]
  refine hasked.settles_of_ok (fun e he => ?_) hr
  rw [hanswers e.1 e.2 he]
  exact .refl _

theorem Underway.settles (h : s.Underway run slot)
    (hr : Resolution.attempt run.known run.grammar.tree run.table s.settings.warnUnresolved = .ok r) :
    Resolution.Settles (s.visible? slot.id) run.grammar.tree run.table s.settings.warnUnresolved
      (firstKnown s.settings run.table) r :=
  settles_of_answers h.asked h.answers hr

/-- A settled slot has nothing new to show. -/
theorem not_settled_of_showsChange (horderly : slot.Orderly)
    (hgrammar : run.grammar = .parse slot.latest.text) (htable : run.table = .ofText slot.latest.text)
    (hr : Resolution.Settles (s.visible? slot.id) run.grammar.tree run.table s.settings.warnUnresolved
      (firstKnown s.settings run.table) r)
    (hshow : slot.showsChange (run.analysis r) = true) : ¬ s.Settled slot := by
  rintro ⟨a, r', ha, hal, hr', hocc, hun⟩
  have hrun := hr
  rw [hgrammar, htable] at hrun
  obtain rfl := hr'.unique hrun
  have htable' : a.table = run.table := by rw [horderly.table a ha, hal, htable]
  simp [Slot.showsChange, ha, Analysis.sameView, Run.analysis, Analysis.assemble, htable', hocc,
    hun] at hshow

theorem Underway.isCurrent_conclude (h : s.Underway run slot) :
    (slot.conclude (run.analysis r)).IsCurrent :=
  ⟨run.analysis r, rfl, h.snapshot⟩

section
variable (h : s.Sound ledger) (hu : s.Underway run slot)
  (hr : Resolution.attempt run.known run.grammar.tree run.table s.settings.warnUnresolved = .ok r)
include h hu

theorem behind_conclude_subset :
    (s.conclude run.slot slot requester? (run.analysis r)).behind ⊆ s.behind := by
  intro m hm
  obtain ⟨b, hb, hc⟩ := mem_behind.1 hm
  rcases hb.of_conclude h.coherent.distinct hu.isOpen with ⟨rfl, rfl⟩ | ⟨-, a, ha, rfl⟩
  · exact absurd hu.isCurrent_conclude hc
  · refine mem_behind.2 ⟨a, ha, fun hca => hc ?_⟩
    rw [Slot.IsCurrent, Slot.published?_bump, Slot.latest_bump]
    exact hca

theorem behind_conclude_ssubset (hcur : ¬ slot.IsCurrent) :
    (s.conclude run.slot slot requester? (run.analysis r)).behind ⊂ s.behind := by
  refine (Finset.ssubset_iff_of_subset (behind_conclude_subset h hu)).2
    ⟨run.slot, mem_behind.2 ⟨slot, hu.isOpen, hcur⟩, fun hm => ?_⟩
  obtain ⟨b, hb, hc⟩ := mem_behind.1 hm
  rcases hb.of_conclude h.coherent.distinct hu.isOpen with ⟨-, rfl⟩ | ⟨hne, -⟩
  · exact hc hu.isCurrent_conclude
  · exact hne rfl

theorem visible?_conclude (hcur : slot.IsCurrent) (id g : String) :
    (s.conclude run.slot slot requester? (run.analysis r)).visible? id g = s.visible? id g := by
  refine sameDocuments_conclude.visible? fun m _ => ?_
  rw [table?, table?, getElem?_conclude]
  by_cases hm : run.slot = m
  · obtain ⟨a, ha, hal⟩ := hcur
    have htable : a.table = run.table := by
      rw [(h.orderly _ _ hu.isOpen).table a ha, hal, hu.table]
    subst hm
    simp [hu.isOpen.get, ha, htable, Slot.conclude, Run.analysis, Analysis.assemble]
  · cases s.slots[m]? <;> simp [hm]

include hr

theorem settled_conclude (hcur : slot.IsCurrent) :
    (s.conclude run.slot slot requester? (run.analysis r)).Settled
      (slot.conclude (run.analysis r)) := by
  have hsame : SameDocuments s (s.conclude run.slot slot requester? (run.analysis r)) :=
    sameDocuments_conclude
  have hv : (s.conclude run.slot slot requester? (run.analysis r)).visible? slot.id =
      s.visible? slot.id := funext (visible?_conclude h hu hcur slot.id)
  refine ⟨run.analysis r, r, rfl, hu.snapshot, ?_, rfl, rfl⟩
  have := hu.settles hr
  rw [hu.grammar, hu.table] at this
  rw [hsame.settings]
  exact hv ▸ this

theorem unsettled_conclude_subset (hcur : slot.IsCurrent) :
    (s.conclude run.slot slot requester? (run.analysis r)).unsettled ⊆ s.unsettled := by
  intro m hm
  obtain ⟨b, hb, hc⟩ := mem_unsettled.1 hm
  rcases hb.of_conclude h.coherent.distinct hu.isOpen with ⟨rfl, rfl⟩ | ⟨-, a, ha, rfl⟩
  · exact absurd (settled_conclude h hu hr hcur) hc
  · refine mem_unsettled.2 ⟨a, ha, fun hca => hc ?_⟩
    refine sameDocuments_conclude.settled (visible?_conclude h hu hcur a.id) ?_ ?_ hca
    · simp [Slot.tag]
    · exact Slot.published?_bump

theorem Sound.unrest_conclude :
    (s.conclude run.slot slot requester? (run.analysis r)).unrest ≤ s.unrest ∧
      (slot.showsChange (run.analysis r) = true →
        (s.conclude run.slot slot requester? (run.analysis r)).unrest < s.unrest) := by
  have hsame : SameDocuments s (s.conclude run.slot slot requester? (run.analysis r)) :=
    sameDocuments_conclude
  by_cases hcur : slot.IsCurrent
  · have hb : (s.conclude run.slot slot requester? (run.analysis r)).behind ⊆ s.behind :=
      behind_conclude_subset h hu
    have hs : (s.conclude run.slot slot requester? (run.analysis r)).unsettled ⊆ s.unsettled :=
      unsettled_conclude_subset h hu hr hcur
    refine ⟨Session.unrest_le hsame.length_eq hb hs, fun hshow => ?_⟩
    refine unrest_lt_of_unsettled hsame.length_eq hb ((Finset.ssubset_iff_of_subset hs).2 ?_)
    refine ⟨run.slot, mem_unsettled.2 ⟨slot, hu.isOpen, ?_⟩, fun hm => ?_⟩
    · exact not_settled_of_showsChange (h.orderly _ _ hu.isOpen) hu.grammar hu.table (hu.settles hr) hshow
    · obtain ⟨b, hb, hc⟩ := mem_unsettled.1 hm
      rcases hb.of_conclude h.coherent.distinct hu.isOpen with ⟨-, rfl⟩ | ⟨hne, -⟩
      · exact hc (settled_conclude h hu hr hcur)
      · exact hne rfl
  · have := unrest_lt_of_behind hsame.length_eq (behind_conclude_ssubset h hu hcur)
    exact ⟨this.le, fun _ => this⟩

end

/-- What is published for slot `n` has the view of `an`. -/
def Displays (s : Session) (n : Nat) (an : Analysis) : Prop :=
  ∃ x, s.slots[n]?.bind Slot.published? = some x ∧ x.sameView an = true

theorem Displays.trans {x y : Analysis} (h : s.Displays n x) (hxy : x.sameView y = true) :
    s.Displays n y := by
  obtain ⟨z, hz, hzx⟩ := h
  refine ⟨z, hz, ?_⟩
  rw [Analysis.sameView_iff] at hzx hxy ⊢
  exact ⟨hzx.1.trans hxy.1, hzx.2.1.trans hxy.2.1, hzx.2.2.trans hxy.2.2⟩

/-- From `s` to `s'` nothing has changed for anyone who looks on. All that was published is `ps`. -/
structure Still (s : Session) (ps : List Publication) (s' : Session) : Prop where
  events : s'.events = s.events
  epochs : s'.slots.map Slot.epoch = s.slots.map Slot.epoch
  fresh : ∀ n slot, s.IsOpen n slot → slot.isFresh = true → s'.IsOpen n slot
  views : ∀ n an, s'.slots[n]?.bind Slot.published? = some an → s.Displays n an
  /-- What is published had been shown before. -/
  reissued : ∀ p ∈ ps, s.Displays p.slot p.analysis

namespace Still
variable {ps qs : List Publication}

theorem of_published (he : s'.events = s.events)
    (hepochs : s'.slots.map Slot.epoch = s.slots.map Slot.epoch)
    (hfresh : ∀ n slot, s.IsOpen n slot → slot.isFresh = true → s'.IsOpen n slot)
    (hp : ∀ m : Nat, s'.slots[m]?.bind Slot.published? = s.slots[m]?.bind Slot.published?) :
    Still s [] s' := by
  refine ⟨he, hepochs, hfresh, fun m an han => ⟨an, ?_, ?_⟩, by simp⟩
  · rw [← hp m, han]
  · rw [Analysis.sameView_iff]
    exact ⟨rfl, rfl, rfl⟩

theorem trans (h : Still s ps s') (h' : Still s' qs s'') : Still s (ps ++ qs) s'' := by
  have hback : ∀ {n an}, s'.Displays n an → s.Displays n an := by
    rintro n an ⟨x, hx, hxan⟩
    exact (h.views n x hx).trans hxan
  refine ⟨h'.events.trans h.events, h'.epochs.trans h.epochs, fun n slot ho hf => ?_,
    fun n an han => hback (h'.views n an han), fun p hp => ?_⟩
  · exact h'.fresh n slot (h.fresh n slot ho hf) hf
  · rcases List.mem_append.1 hp with hp | hp
    · exact h.reissued p hp
    · exact hback (h'.reissued p hp)

end Still

/-- What the work of a query does to the unrest. Once no document is behind, none is unsettled that
was settled; and as long as there is no less unrest, nothing has changed for anyone. -/
structure Subsides (s : Session) (ps : List Publication) (s' : Session) : Prop
    extends SameDocuments s s' where
  unrest : s'.unrest ≤ s.unrest
  behind : s'.behind ⊆ s.behind
  unsettled : s.behind = ∅ → s'.unsettled ⊆ s.unsettled
  still : s.host? = none → s'.unrest = s.unrest → Still s ps s'

namespace Subsides
variable {ps qs : List Publication}

theorem of_published (h : SameDocuments s s')
    (hp : ∀ m : Nat, s'.slots[m]?.bind Slot.published? = s.slots[m]?.bind Slot.published?)
    (hstill : s.host? = none → Still s [] s') : Subsides s [] s' :=
  ⟨h, h.unrest_le hp, h.behind_subset hp, fun _ => h.unsettled_subset hp, fun hh _ => hstill hh⟩

theorem of_slots_eq (h : SameDocuments s s') (hslots : s'.slots = s.slots)
    (he : s.host? = none → s'.events = s.events) : Subsides s [] s' := by
  have hp : ∀ m : Nat, s'.slots[m]?.bind Slot.published? = s.slots[m]?.bind Slot.published? := by
    rw [hslots]
    exact fun _ => rfl
  refine of_published h hp fun hh => Still.of_published (he hh) (by rw [hslots]) ?_ hp
  exact fun n slot ho _ => ⟨hslots ▸ ho.get, ho.opened⟩

theorem refl (s : Session) : Subsides s [] s := of_slots_eq (.refl s) rfl fun _ => rfl

theorem trans (h : Subsides s ps s') (h' : Subsides s' qs s'') : Subsides s (ps ++ qs) s'' := by
  refine ⟨h.toSameDocuments.trans h'.toSameDocuments, h'.unrest.trans h.unrest,
    h'.behind.trans h.behind, fun hb => ?_, fun hh heq => ?_⟩
  · have hb' : s'.behind = ∅ := Finset.subset_empty.1 (hb ▸ h.behind)
    exact (h'.unsettled hb').trans (h.unsettled hb)
  · have h₁ := h.unrest
    have h₂ := h'.unrest
    exact (h.still hh (by omega)).trans (h'.still (h.host.trans hh) (by omega))

end Subsides

theorem published_takeUp (m : Nat) :
    (s.takeUp n slot).slots[m]?.bind Slot.published? = s.slots[m]?.bind Slot.published? := by
  rw [getElem?_takeUp]
  cases s.slots[m]? with
  | none => rfl
  | some a => simp only [Option.map_some, Option.bind_some]; split <;> rfl

theorem subsides_takeUp (hu : s.Unique) (ho : s.IsOpen n slot) (hf : slot.isFresh = false) :
    Subsides s [] (s.takeUp n slot) := by
  refine .of_published (sameDocuments_takeUp hu ho) published_takeUp fun _ =>
    .of_published rfl ?_ (fun m a ha hfresh => ?_) published_takeUp
  · refine List.ext_getElem? fun m => ?_
    rw [List.getElem?_map, List.getElem?_map, getElem?_takeUp, Option.map_map]
    cases s.slots[m]? with
    | none => rfl
    | some a => simp only [Option.map_some, Function.comp_apply]; split <;> rfl
  · have := ha.map_getElem? (s.getElem?_takeUp n slot) tag_takeUp
    rwa [if_neg] at this
    rintro rfl
    rw [ha.eq ho, hf] at hfresh
    cases hfresh

theorem subsides_conclude (h : s.Sound ledger) (hu : s.Underway run slot)
    (hr : Resolution.attempt run.known run.grammar.tree run.table s.settings.warnUnresolved = .ok r) :
    Subsides s [run.publication slot s.graph r]
      (s.conclude run.slot slot requester? (run.analysis r)) := by
  obtain ⟨hle, hlt⟩ : _ ∧ (_ → (s.conclude run.slot slot requester? (run.analysis r)).unrest < _) :=
    h.unrest_conclude hu hr
  refine ⟨sameDocuments_conclude, hle, behind_conclude_subset h hu, fun hb => ?_, fun _ heq => ?_⟩
  · refine unsettled_conclude_subset h hu hr (by_contra fun hcur => ?_)
    have := mem_behind.2 ⟨slot, hu.isOpen, hcur⟩
    rw [hb] at this
    cases this
  · -- The view is the one that was shown before, so nobody is told.
    have hshow : slot.showsChange (run.analysis r) = false := by
      by_contra hne
      have := hlt (by simpa using hne)
      omega
    have hnone : s.informed slot requester? (run.analysis r) = [] := by
      rw [informed, hshow]
      rfl
    have hget : ∀ m : Nat, (s.conclude run.slot slot requester? (run.analysis r)).slots[m]? =
        s.slots[m]?.map fun b => if run.slot = m then b.conclude (run.analysis r) else b := by
      intro m
      simp only [getElem?_conclude, hnone, Slot.bump_nil]
    have hself : s.Displays run.slot (run.analysis r) := by
      rw [Slot.showsChange] at hshow
      split at hshow
      · rename_i x hx
        exact ⟨x, by rw [hu.isOpen.get]; exact hx, by simpa using hshow⟩
      · cases hshow
    refine ⟨?_, ?_, fun m a ha hfresh => ?_, fun m an han => ?_, ?_⟩
    · rw [conclude, hshow, hnone, bump_nil]
      rfl
    · refine List.ext_getElem? fun m => ?_
      rw [List.getElem?_map, List.getElem?_map, hget, Option.map_map]
      cases s.slots[m]? with
      | none => rfl
      | some a => simp only [Option.map_some, Function.comp_apply]; split <;> rfl
    · refine ⟨?_, ha.opened⟩
      rw [hget, ha.get, Option.map_some, if_neg]
      rintro rfl
      rw [ha.eq hu.isOpen, hu.stale] at hfresh
      cases hfresh
    · rw [hget] at han
      by_cases hm : run.slot = m
      · subst hm
        rw [hu.isOpen.get] at han
        simp only [Option.map_some, if_true, Option.bind_some, Slot.conclude,
          Option.some.injEq] at han
        exact han ▸ hself
      · refine ⟨an, ?_, Analysis.sameView_iff.2 ⟨rfl, rfl, rfl⟩⟩
        simpa only [if_neg hm, Option.map_id'] using han
    · intro p hp
      rw [List.mem_singleton.1 hp]
      exact hself

end Session

end GrammarAtlas
