import GrammarAtlas.Proofs.Moments
import Mathlib.Data.Prod.Lex

/-! # The life of a slot

`Session.slots_evolve`, for any two moments of a session, one after the other: each slot of the
first is still there at the second, with a later version or the same text, a later epoch or the same,
and the same published analysis or a newer one (`Slot.Becomes`). No slot is analysed twice at once,
none that is closed is taken up or read, and nothing is left under way when there is a reply.

Published analyses, and those under way, are of texts and epochs that the slot had (`Slot.Past`).
That is carried along by `Slot.Becomes`, however the slot goes on. So an analysis that is published
under the version that it has read is one of the latest text, whatever has happened since. -/

namespace GrammarAtlas

namespace Slot
variable {a b c : Slot}

/-- What may become of a slot in time. -/
structure Becomes (a b : Slot) : Prop where
  id : b.id = a.id
  version : a.latest.version ≤ b.latest.version
  /-- A version stands for one text. -/
  text : b.latest.version = a.latest.version → b.latest = a.latest
  epoch : a.epoch ≤ b.epoch
  closed : a.closed = true → b.closed = true ∧ b.published? = a.published?
  /-- An analysis gives way only to one of a later version, or of a later epoch of the same. -/
  published : ∀ p, a.published? = some p → ∃ q, b.published? = some q ∧
    (q = p ∨ toLex (p.version, p.epoch) < toLex (q.version, q.epoch))

/-- A snapshot and an epoch that the slot may have had. -/
structure Past (slot : Slot) (snapshot : Snapshot) (epoch : Nat) : Prop where
  version : snapshot.version ≤ slot.latest.version
  text : snapshot.version = slot.latest.version → snapshot = slot.latest
  epoch : epoch ≤ slot.epoch

namespace Becomes

theorem refl (a : Slot) : a.Becomes a :=
  ⟨rfl, le_rfl, fun _ => rfl, le_rfl, fun h => ⟨h, rfl⟩, fun p hp => ⟨p, hp, .inl rfl⟩⟩

theorem trans (h : a.Becomes b) (h' : b.Becomes c) : a.Becomes c := by
  refine ⟨h'.id.trans h.id, h.version.trans h'.version, fun hv => ?_, h.epoch.trans h'.epoch,
    fun hc => ?_, fun p hp => ?_⟩
  · have h₁ := h.version
    have h₂ := h'.version
    rw [h'.text (by omega), h.text (by omega)]
  · obtain ⟨hb, hpb⟩ := h.closed hc
    obtain ⟨hc, hpc⟩ := h'.closed hb
    exact ⟨hc, hpc.trans hpb⟩
  · obtain ⟨q, hq, hpq⟩ := h.published p hp
    obtain ⟨r, hr, hqr⟩ := h'.published q hq
    refine ⟨r, hr, ?_⟩
    rcases hpq with rfl | hpq
    · exact hqr
    · rcases hqr with rfl | hqr
      · exact .inr hpq
      · exact .inr (hpq.trans hqr)

theorem setText (a : Slot) (text : String) : a.Becomes (a.setText text) := by
  refine ⟨rfl, Nat.le_succ _, fun hv => ?_, le_rfl, fun h => ⟨h, rfl⟩, fun p hp => ⟨p, hp, .inl rfl⟩⟩
  exact absurd hv (Nat.succ_ne_self _)

theorem invalidate (a : Slot) : a.Becomes a.invalidate :=
  ⟨rfl, le_rfl, fun _ => rfl, Nat.le_succ _, fun h => ⟨h, rfl⟩, fun p hp => ⟨p, hp, .inl rfl⟩⟩

theorem close (a : Slot) : a.Becomes a.close :=
  ⟨rfl, le_rfl, fun _ => rfl, le_rfl, fun _ => ⟨rfl, rfl⟩, fun p hp => ⟨p, hp, .inl rfl⟩⟩

theorem inFlight (a : Slot) (flag : Bool) : a.Becomes { a with inFlight := flag } :=
  ⟨rfl, le_rfl, fun _ => rfl, le_rfl, fun h => ⟨h, rfl⟩, fun p hp => ⟨p, hp, .inl rfl⟩⟩

theorem publish {an : Analysis} (ho : a.closed = false) (hnewer : a.isNewer an = true) :
    a.Becomes (a.publish an) := by
  refine ⟨rfl, le_rfl, fun _ => rfl, le_rfl, fun h => ?_, fun p hp => ⟨an, rfl, .inr ?_⟩⟩
  · rw [ho] at h
    cases h
  · rw [isNewer, hp] at hnewer
    rw [Prod.Lex.toLex_lt_toLex]
    simpa using hnewer

end Becomes

theorem past_latest (a : Slot) : a.Past a.latest a.epoch := ⟨le_rfl, fun _ => rfl, le_rfl⟩

theorem Past.mono {snapshot : Snapshot} {epoch : Nat} (h : a.Past snapshot epoch) (hb : a.Becomes b) :
    b.Past snapshot epoch := by
  refine ⟨h.version.trans hb.version, fun hv => ?_, h.epoch.trans hb.epoch⟩
  have h₁ := h.version
  have h₂ := hb.version
  rw [h.text (by omega), hb.text (by omega)]

end Slot

namespace Session
variable {s s' : Session} {n m : Nat} {slot a b : Slot} {tasks tasks' : List Task} {x y : Moment}
  {settings : Settings} {host? : Option Host}

/-- Each slot of `s` is still there in `s'`. -/
def Succeeds (s s' : Session) : Prop :=
  ∀ (n : Nat) (a : Slot), s.slots[n]? = some a → ∃ b, s'.slots[n]? = some b ∧ a.Becomes b

theorem Succeeds.trans {s'' : Session} (h : Succeeds s s') (h' : Succeeds s' s'') : Succeeds s s'' := by
  intro n a ha
  obtain ⟨b, hb, hab⟩ := h n a ha
  obtain ⟨c, hc, hbc⟩ := h' n b hb
  exact ⟨c, hc, hab.trans hbc⟩

theorem succeeds_of_slots_eq (h : s'.slots = s.slots) : Succeeds s s' := by
  intro n a ha
  exact ⟨a, h ▸ ha, .refl a⟩

theorem succeeds_modifySlot {f : Slot → Slot} (hn : s.slots[n]? = some slot)
    (hf : slot.Becomes (f slot)) : Succeeds s (s.modifySlot n f) := by
  intro m a ha
  by_cases hm : m = n
  · subst hm
    obtain rfl : slot = a := Option.some.inj (hn.symm.trans ha)
    exact ⟨f slot, (getElem?_modifySlot_eq_some hn f).2 (.inl ⟨rfl, rfl⟩), hf⟩
  · exact ⟨a, (getElem?_modifySlot_eq_some hn f).2 (.inr ⟨hm, ha⟩), .refl a⟩

theorem slots_readSlot (s : Session) (n : Nat) (slot : Slot) (requester? : Option String)
    (changed : Bool) : (s.readSlot n slot requester? changed).1.slots = s.slots := by
  rw [readSlot]

theorem Turn.succeeds (h : Turn s tasks s' tasks') : Succeeds s s' := by
  cases h with
  | pass hslots => exact succeeds_of_slots_eq hslots
  | @retext n slot _ ho text =>
    have hmodify := succeeds_modifySlot (f := (·.setText text)) ho.get (.setText slot text)
    exact hmodify.trans (succeeds_of_slots_eq rfl)
  | register _ text =>
    intro n a ha
    have hn : n ≠ s.slots.length := (List.getElem?_eq_some_iff.1 ha).1.ne
    exact ⟨a, (getElem?_register_eq_some s _ text).2 (.inr ⟨hn, ha⟩), .refl a⟩
  | takeUp ho => exact succeeds_modifySlot ho.get (.inFlight _ true)
  | read => exact succeeds_of_slots_eq (slots_readSlot _ _ _ _ _)
  | publish ho _ _ hnewer => exact succeeds_modifySlot ho.get (.publish ho.opened hnewer)
  | release hn => exact succeeds_modifySlot hn (.inFlight _ false)
  | discard | lose => exact succeeds_of_slots_eq rfl

/-- An echo changes one open slot at most. -/
theorem Echo.slots (h : Echo s s') : s'.slots = s.slots ∨ ∃ n slot f, s.IsOpen n slot ∧
    s'.slots = (s.modifySlot n f).slots ∧ (f = Slot.invalidate ∨ f = Slot.close) := by
  cases h with
  | invalidate id =>
    rw [Session.invalidate]
    split
    · rename_i n hn
      obtain ⟨slot, ho, -⟩ := isOpen_of_slotOf? hn
      exact .inr ⟨n, slot, _, ho, rfl, .inl rfl⟩
    · exact .inl rfl
  | drop id =>
    rw [dropNamed]
    split
    · rename_i n hn
      obtain ⟨slot, ho, -⟩ := isOpen_of_slotOf? hn
      exact .inr ⟨n, slot, _, ho, rfl, .inr rfl⟩
    · exact .inl rfl

theorem Echo.succeeds (h : Echo s s') : Succeeds s s' := by
  rcases h.slots with hs | ⟨n, slot, f, ho, hs, hf⟩
  · exact succeeds_of_slots_eq hs
  · have hb : slot.Becomes (f slot) := by
      rcases hf with rfl | rfl
      · exact .invalidate slot
      · exact .close slot
    exact (succeeds_modifySlot ho.get hb).trans (succeeds_of_slots_eq hs)

theorem Echo.published (h : Echo s s') (hb : s'.slots[m]? = some b) :
    ∃ a, s.slots[m]? = some a ∧ a.published? = b.published? := by
  rcases h.slots with hs | ⟨n, slot, f, ho, hs, hf⟩
  · exact ⟨b, hs ▸ hb, rfl⟩
  · rw [hs] at hb
    rcases (getElem?_modifySlot_eq_some ho.get f).1 hb with ⟨rfl, rfl⟩ | ⟨-, hb⟩
    · refine ⟨slot, ho.get, ?_⟩
      rcases hf with rfl | rfl <;> rfl
    · exact ⟨b, hb, rfl⟩

theorem Goes.succeeds (h : Goes x y) : Succeeds x.1 y.1 :=
  h.keeps (P := fun s _ => Succeeds x.1 s) (fun hs hturn => hs.trans hturn.succeeds)
    (fun hs hecho => hs.trans hecho.succeeds) (succeeds_of_slots_eq rfl)

/-! ## What is under way -/

def InFlight (s : Session) (n : Nat) : Prop := ∃ slot, s.slots[n]? = some slot ∧ slot.inFlight = true

theorem inFlight_congr (h : s'.slots = s.slots) : s'.InFlight m ↔ s.InFlight m := by
  rw [InFlight, h, InFlight]

theorem inFlight_modifySlot {f : Slot → Slot} (hn : s.slots[n]? = some slot) :
    (s.modifySlot n f).InFlight m ↔ m = n ∧ (f slot).inFlight = true ∨ m ≠ n ∧ s.InFlight m := by
  simp only [InFlight, getElem?_modifySlot_eq_some hn]
  constructor
  · rintro ⟨b, ⟨hm, rfl⟩ | ⟨hm, hb⟩, hf⟩
    · exact .inl ⟨hm, hf⟩
    · exact .inr ⟨hm, b, hb, hf⟩
  · rintro (⟨hm, hf⟩ | ⟨hm, b, hb, hf⟩)
    · exact ⟨f slot, .inl ⟨hm, rfl⟩, hf⟩
    · exact ⟨b, .inr ⟨hm, hb⟩, hf⟩

theorem inFlight_modifySlot_of_eq {f : Slot → Slot} (hn : s.slots[n]? = some slot)
    (hf : (f slot).inFlight = slot.inFlight) : (s.modifySlot n f).InFlight m ↔ s.InFlight m := by
  rw [inFlight_modifySlot hn, hf]
  by_cases hm : m = n
  · subst hm
    simp [InFlight, hn]
  · simp [hm]

theorem inFlight_register (s : Session) (id text : String) :
    (s.register id text).InFlight m ↔ s.InFlight m := by
  simp only [InFlight, getElem?_register_eq_some]
  constructor
  · rintro ⟨b, ⟨-, rfl⟩ | ⟨-, hb⟩, hf⟩
    · cases hf
    · exact ⟨b, hb, hf⟩
  · rintro ⟨b, hb, hf⟩
    exact ⟨b, .inr ⟨(List.getElem?_eq_some_iff.1 hb).1.ne, hb⟩, hf⟩

theorem Echo.inFlight (h : Echo s s') : s'.InFlight m ↔ s.InFlight m := by
  rcases h.slots with hs | ⟨n, slot, f, ho, hs, hf⟩
  · exact inFlight_congr hs
  · refine (inFlight_congr hs).trans (inFlight_modifySlot_of_eq ho.get ?_)
    rcases hf with rfl | rfl <;> rfl

/-- The slots that are being analysed are those with an analysis under way, each with one. What has
been read of them or published is past. -/
structure Tended (s : Session) (tasks : List Task) : Prop where
  nodup : (tasks.map Task.slot).Nodup
  inFlight : ∀ n, n ∈ tasks.map Task.slot ↔ s.InFlight n
  read : ∀ t ∈ tasks, ∀ r, t.read? = some r → ∃ slot, s.slots[t.slot]? = some slot ∧ slot.Past r.1 r.2
  published : ∀ (n : Nat) (slot : Slot) p, s.slots[n]? = some slot → slot.published? = some p →
    slot.Past p.snapshot p.epoch

theorem tended_start (settings : Settings) (host? : Option Host) : (start settings host?).Tended [] := by
  refine ⟨List.nodup_nil, fun n => ?_, fun t ht => ?_, fun n slot p hn => ?_⟩
  · simp [InFlight, start]
  · cases ht
  · cases hn

namespace Tended
variable (h : s.Tended tasks)
include h

theorem inFlight_of_turn (hturn : Turn s tasks s' tasks') :
    (tasks'.map Task.slot).Nodup ∧ ∀ m, m ∈ tasks'.map Task.slot ↔ s'.InFlight m := by
  have hkeep : (∀ m, s'.InFlight m ↔ s.InFlight m) → tasks'.map Task.slot = tasks.map Task.slot →
      (tasks'.map Task.slot).Nodup ∧ ∀ m, m ∈ tasks'.map Task.slot ↔ s'.InFlight m := by
    intro hs ht
    rw [ht]
    exact ⟨h.nodup, fun m => (h.inFlight m).trans (hs m).symm⟩
  cases hturn with
  | pass hslots => exact hkeep (fun m => inFlight_congr hslots) rfl
  | retext ho text =>
    exact hkeep (fun m => inFlight_modifySlot_of_eq (f := (·.setText text)) ho.get rfl) rfl
  | register _ text => exact hkeep (fun m => inFlight_register s _ text) rfl
  | read => exact hkeep (fun m => inFlight_congr (slots_readSlot _ _ _ _ _)) rfl
  | discard => exact hkeep (fun m => Iff.rfl) rfl
  | publish ho => exact hkeep (fun m => inFlight_modifySlot_of_eq ho.get rfl) rfl
  | @takeUp n slot _ ho hrest =>
    have hn : n ∉ tasks.map Task.slot := by
      rw [h.inFlight]
      rintro ⟨b, hb, hf⟩
      rw [ho.get, Option.some.injEq] at hb
      rw [← hb, hrest] at hf
      cases hf
    refine ⟨List.nodup_cons.2 ⟨hn, h.nodup⟩, fun m => ?_⟩
    rw [inFlight_modifySlot ho.get, List.map_cons, List.mem_cons, h.inFlight]
    by_cases hm : m = n <;> simp [hm]
  | @release n slot rest hn =>
    obtain ⟨hni, hrest⟩ := List.nodup_cons.1 h.nodup
    refine ⟨hrest, fun m => ?_⟩
    have hm := h.inFlight m
    rw [List.map_cons, List.mem_cons] at hm
    rw [inFlight_modifySlot hn, ← hm]
    constructor
    · rintro hr
      exact .inr ⟨fun he => hni (he ▸ hr), .inr hr⟩
    · rintro (⟨-, hf⟩ | ⟨hne, hr⟩)
      · cases hf
      · exact hr.resolve_left hne
  | @lose task rest hn =>
    obtain ⟨b, hb, -⟩ := (h.inFlight task.slot).1 (.head _)
    rw [hn] at hb
    cases hb

/-- A newly published analysis is of the text and epoch that the slot had just then. -/
theorem published_of_turn (hturn : Turn s tasks s' tasks') {p : Analysis}
    (hb : s'.slots[m]? = some b) (hp : b.published? = some p) :
    ∃ a, s.slots[m]? = some a ∧ (a.published? = some p ∨ a.latest = p.snapshot ∧ a.epoch = p.epoch) := by
  have hmodify : ∀ {n : Nat} {slot : Slot} {f : Slot → Slot}, s.slots[n]? = some slot →
      (f slot).published? = slot.published? → (s.modifySlot n f).slots[m]? = some b →
      ∃ a, s.slots[m]? = some a ∧ (a.published? = some p ∨ a.latest = p.snapshot ∧ a.epoch = p.epoch) := by
    intro n slot f hn hf hb
    rcases (getElem?_modifySlot_eq_some hn f).1 hb with ⟨rfl, rfl⟩ | ⟨-, hb⟩
    · exact ⟨slot, hn, .inl (hf.symm.trans hp)⟩
    · exact ⟨b, hb, .inl hp⟩
  cases hturn with
  | pass hslots => exact ⟨b, hslots ▸ hb, .inl hp⟩
  | retext ho text => exact hmodify (f := (·.setText text)) ho.get rfl hb
  | register _ text =>
    rcases (getElem?_register_eq_some s _ text).1 hb with ⟨-, rfl⟩ | ⟨-, hb⟩
    · cases hp
    · exact ⟨b, hb, .inl hp⟩
  | takeUp ho => exact hmodify ho.get rfl hb
  | read => exact ⟨b, slots_readSlot _ _ _ _ _ ▸ hb, .inl hp⟩
  | @publish n slot rest an ho hversion hepoch =>
    rcases (getElem?_modifySlot_eq_some ho.get _).1 hb with ⟨rfl, rfl⟩ | ⟨-, hb⟩
    · -- What it has read is past, and the version is still the same, so the text is.
      obtain ⟨a, ha, hpast⟩ := h.read _ (.head _) _ rfl
      obtain rfl : slot = a := Option.some.inj (ho.get.symm.trans ha)
      obtain rfl : an = p := Option.some.inj hp
      exact ⟨slot, ho.get, .inr ⟨(hpast.text hversion.symm).symm, hepoch⟩⟩
    · exact ⟨b, hb, .inl hp⟩
  | release hn => exact hmodify hn rfl hb
  | discard | lose => exact ⟨b, hb, .inl hp⟩

theorem turn (hturn : Turn s tasks s' tasks') : s'.Tended tasks' := by
  have hsucceeds := hturn.succeeds
  have hold : ∀ {t : Task} {r : Snapshot × Nat}, t ∈ tasks → t.read? = some r →
      ∃ slot, s'.slots[t.slot]? = some slot ∧ slot.Past r.1 r.2 := by
    intro t r ht hr
    obtain ⟨a, ha, hpast⟩ := h.read t ht r hr
    obtain ⟨b, hb, hab⟩ := hsucceeds _ a ha
    exact ⟨b, hb, hpast.mono hab⟩
  obtain ⟨hnodup, hflight⟩ := h.inFlight_of_turn hturn
  refine ⟨hnodup, hflight, fun t ht r hr => ?_, fun m b p hb hp => ?_⟩
  · cases hturn with
    | pass | retext | register => exact hold ht hr
    | takeUp =>
      rcases List.mem_cons.1 ht with rfl | ht
      · cases hr
      · exact hold ht hr
    | @read n slot _ ho =>
      rcases List.mem_cons.1 ht with rfl | ht
      · obtain rfl := Option.some.inj hr
        exact ⟨slot, by rw [slots_readSlot, ho.get], slot.past_latest⟩
      · exact hold (.tail _ ht) hr
    | discard | publish =>
      rcases List.mem_cons.1 ht with rfl | ht
      · cases hr
      · exact hold (.tail _ ht) hr
    | release | lose => exact hold (.tail _ ht) hr
  · obtain ⟨a, ha, hcase⟩ := h.published_of_turn hturn hb hp
    obtain ⟨b', hb', hab⟩ := hsucceeds m a ha
    obtain rfl : b = b' := Option.some.inj (hb.symm.trans hb')
    rcases hcase with hpa | ⟨hsnap, hepoch⟩
    · exact (h.published m a p ha hpa).mono hab
    · rw [← hsnap, ← hepoch]
      exact a.past_latest.mono hab

theorem echo (hecho : Echo s s') : s'.Tended tasks := by
  refine ⟨h.nodup, fun m => (h.inFlight m).trans hecho.inFlight.symm, fun t ht r hr => ?_,
    fun m b p hb hp => ?_⟩
  · obtain ⟨a, ha, hpast⟩ := h.read t ht r hr
    obtain ⟨b, hb, hab⟩ := hecho.succeeds _ a ha
    exact ⟨b, hb, hpast.mono hab⟩
  · obtain ⟨a, ha, hpa⟩ := hecho.published hb
    obtain ⟨b', hb', hab⟩ := hecho.succeeds m a ha
    obtain rfl : b = b' := Option.some.inj (hb.symm.trans hb')
    exact (h.published m a p ha (hpa.trans hp)).mono hab

end Tended

theorem Live.tended (h : Live settings host? x) : x.1.Tended x.2.tasks :=
  Goes.keeps (P := Tended) Tended.turn Tended.echo h (tended_start settings host?)

/-- What is published was the latest text of the slot at some moment. -/
theorem Live.published_text (h : Live settings host? x) {p : Analysis} (hb : x.1.slots[n]? = some b)
    (hp : b.published? = some p) :
    ∃ z a, Live settings host? z ∧ Goes z x ∧ z.1.slots[n]? = some a ∧ a.latest = p.snapshot := by
  induction h generalizing b with
  | refl => cases hb
  | @tail y x hy hmove ih =>
    obtain ⟨s₁, hturn, hechoes⟩ := hmove.comes
    have hback : ∀ b, x.1.slots[n]? = some b → b.published? = some p →
        ∃ a, s₁.slots[n]? = some a ∧ a.published? = some p := by
      refine hechoes.keeps (P := fun s => ∀ b : Slot, s.slots[n]? = some b → b.published? = some p →
        ∃ a, s₁.slots[n]? = some a ∧ a.published? = some p) (fun hs hecho b hb hp => ?_)
        (fun b hb hp => ⟨b, hb, hp⟩)
      obtain ⟨a, ha, hpa⟩ := hecho.published hb
      exact hs a ha (hpa.trans hp)
    obtain ⟨b₁, hb₁, hp₁⟩ := hback b hb hp
    obtain ⟨a, ha, hpa | ⟨hsnap, -⟩⟩ := (Live.tended hy).published_of_turn hturn hb₁ hp₁
    · obtain ⟨z, c, hz, hzy, hc, hlatest⟩ := ih ha hpa
      exact ⟨z, c, hz, hzy.tail hmove, hc, hlatest⟩
    · exact ⟨y, a, hy, .single hmove, ha, hsnap⟩

/-- Nothing new is begun on a closed slot: what is under way was, and at most has its reading put
aside. -/
theorem Turn.of_closed (h : Turn s tasks s' tasks') {t : Task} (ht : t ∈ tasks')
    (hn : s.slots[t.slot]? = some slot) (hc : slot.closed = true) :
    ∃ t' ∈ tasks, t'.slot = t.slot ∧ (t = t' ∨ t.read? = none) := by
  have hopen : ∀ {a}, ¬ s.IsOpen t.slot a := by
    intro a ho
    obtain rfl : slot = a := Option.some.inj (hn.symm.trans ho.get)
    rw [ho.opened] at hc
    cases hc
  cases h with
  | pass | retext | register => exact ⟨t, ht, rfl, .inl rfl⟩
  | takeUp ho =>
    rcases List.mem_cons.1 ht with rfl | ht
    · exact absurd ho hopen
    · exact ⟨t, ht, rfl, .inl rfl⟩
  | read ho =>
    rcases List.mem_cons.1 ht with rfl | ht
    · exact absurd ho hopen
    · exact ⟨t, .tail _ ht, rfl, .inl rfl⟩
  | discard | publish =>
    rcases List.mem_cons.1 ht with rfl | ht
    · exact ⟨_, .head _, rfl, .inr rfl⟩
    · exact ⟨t, .tail _ ht, rfl, .inl rfl⟩
  | release | lose => exact ⟨t, .tail _ ht, rfl, .inl rfl⟩

theorem parses_readSlot (s : Session) (n : Nat) (slot : Slot) (requester? : Option String)
    (changed : Bool) : (s.readSlot n slot requester? changed).1.parses = s.parses + 1 := by
  rw [readSlot]

/-- A text is parsed for the innermost analysis only, and if its slot is open. -/
theorem Turn.parses (h : Turn s tasks s' tasks') :
    s'.parses = s.parses ∨ s'.parses = s.parses + 1 ∧ ∃ n slot rest, s.IsOpen n slot ∧
      tasks = ⟨n, none⟩ :: rest ∧ tasks' = ⟨n, some (slot.latest, slot.epoch)⟩ :: rest := by
  cases h with
  | pass _ _ hparses => exact .inl hparses
  | read ho => exact .inr ⟨parses_readSlot _ _ _ _ _, _, _, _, ho, rfl, rfl⟩
  | retext | register | takeUp | discard | publish | release | lose => exact .inl rfl

theorem Echo.parses (h : Echo s s') : s'.parses = s.parses := by
  cases h with
  | invalidate id =>
    rw [Session.invalidate]
    split <;> rfl
  | drop id =>
    rw [dropNamed]
    split <;> rfl

theorem Moves.parses (h : Moves x y) :
    y.1.parses = x.1.parses ∨ y.1.parses = x.1.parses + 1 ∧ ∃ n slot rest, x.1.IsOpen n slot ∧
      x.2.tasks = ⟨n, none⟩ :: rest ∧ y.2.tasks = ⟨n, some (slot.latest, slot.epoch)⟩ :: rest := by
  obtain ⟨s₁, hturn, hechoes⟩ := h.comes
  have hsame : y.1.parses = s₁.parses :=
    hechoes.keeps (P := fun s => s.parses = s₁.parses) (fun hs hecho => hecho.parses.trans hs) rfl
  rw [hsame]
  exact hturn.parses

/-! ## The life of a slot -/

/-- What becomes of slots between two moments of a session, and what is under way at the second. -/
theorem slots_evolve (hx : Live settings host? x) (hxy : Goes x y) :
    (∀ (n : Nat) (a : Slot), x.1.slots[n]? = some a → ∃ b, y.1.slots[n]? = some b ∧ a.Becomes b) ∧
    ((y.2.tasks.map Task.slot).Nodup ∧
      ∀ n, n ∈ y.2.tasks.map Task.slot ↔ ∃ b, y.1.slots[n]? = some b ∧ b.inFlight = true) ∧
    (∀ (n : Nat) (b : Slot) p, y.1.slots[n]? = some b → b.published? = some p →
      p.version ≤ b.latest.version ∧ p.epoch ≤ b.epoch ∧
      ∃ z a, Live settings host? z ∧ Goes z y ∧ z.1.slots[n]? = some a ∧ a.latest = p.snapshot) ∧
    (∀ z, Moves y z → ∀ t ∈ z.2.tasks, ∀ a : Slot, x.1.slots[t.slot]? = some a → a.closed = true →
      ∃ t' ∈ y.2.tasks, t'.slot = t.slot ∧ (t = t' ∨ t.read? = none)) ∧
    (∀ z, Moves y z → z.1.parses = y.1.parses ∨ z.1.parses = y.1.parses + 1 ∧
      ∃ n slot rest, y.1.IsOpen n slot ∧ y.2.tasks = ⟨n, none⟩ :: rest ∧
        z.2.tasks = ⟨n, some (slot.latest, slot.epoch)⟩ :: rest) ∧
    (∀ r, y.2 = .replied r .stop → ∀ b ∈ y.1.slots, b.inFlight = false) := by
  have hy : Live settings host? y := hx.trans hxy
  have htended := hy.tended
  refine ⟨hxy.succeeds, ⟨htended.nodup, htended.inFlight⟩, fun n b p hb hp => ?_,
    fun z hz t ht a ha hc => ?_, fun z hz => hz.parses, fun r hr b hb => ?_⟩
  · have hpast := htended.published n b p hb hp
    exact ⟨hpast.version, hpast.epoch, hy.published_text hb hp⟩
  · obtain ⟨b, hb, hab⟩ := hxy.succeeds _ a ha
    obtain ⟨s₁, hturn, -⟩ := hz.comes
    exact hturn.of_closed ht hb (hab.closed hc).1
  · rw [Bool.eq_false_iff]
    intro hf
    obtain ⟨n, hn⟩ := List.getElem?_of_mem hb
    have hmem := (htended.inFlight n).2 ⟨b, hn, hf⟩
    rw [hr] at hmem
    cases hmem

/-- A document of which the second version is published and the third is being analysed is closed by
the host, which has been asked for an import, and registered anew. -/
theorem slots_evolve_closed_midway :
    ∃ host x y r a, Live {} (some host) x ∧ Goes x y ∧ y.2 = .replied r .stop ∧
      x.1.slots[0]? = some a ∧ x.2.tasks.map Task.slot = [0] ∧ a.closed = true ∧
      a.latest.version = 3 ∧ a.published?.map Analysis.version = some 2 ∧
      ∃ b, y.1.slots[0]? = some b ∧ a.Becomes b ∧ b.published? = a.published? ∧ b.inFlight = false := by
  have hend : ∃ u, u ∈ performAll 60 [] (start {} (some ⟨[("H", .empty)],
        [⟨"H", [.update "a.g4" "grammar A;\nimport H;\nb : h ;\n"]⟩, ⟨"H", []⟩,
          ⟨"H", [.query "a.g4" none .analysis, .close "a.g4", .update "a.g4" "grammar A;\n"]⟩]⟩))
        [.update "a.g4" "grammar A;\nimport H;\na : h ;\n", .query "a.g4" none .analysis,
          .update "a.g4" "grammar A;\nimport H;\nc : h ;\n"] ∧
      ∃ x, x ∈ some (onward^[13] (u.2, .perform (.query "a.g4" none .analysis) .stop)) ∧
        x.2.tasks.map Task.slot = [0] ∧ ∃ a, a ∈ x.1.slots[0]? ∧ a.closed = true ∧
        a.latest.version = 3 ∧ a.published?.map Analysis.version = some 2 ∧
        (runFor 60 x.1 x.2).isSome := by
    decide +kernel
  obtain ⟨⟨ledger, s⟩, hs, x, hx, htasks, a, ha, hclosed, hversion, hpublished, hrun⟩ := hend
  obtain ⟨⟨r, s'⟩, hrun⟩ := Option.isSome_iff_exists.1 hrun
  obtain ⟨r', hlive⟩ := (live_start _ _).performAll hs
  have hx : Live _ _ x := Option.some.inj hx ▸ (hlive.tail (.ask s r' _)).trans (goes_onward _ 13)
  have hy := goes_runFor hrun
  obtain ⟨hbecomes, -, -, -, -, hrest⟩ := slots_evolve hx hy
  obtain ⟨b, hb, hab⟩ := hbecomes 0 a ha
  exact ⟨_, x, _, r, a, hx, hy, rfl, ha, htasks, hclosed, hversion, hpublished, b, hb, hab,
    (hab.closed hclosed).2, hrest r rfl b (List.mem_of_getElem? hb)⟩

end Session

end GrammarAtlas
