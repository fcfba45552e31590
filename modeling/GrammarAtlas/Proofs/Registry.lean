import GrammarAtlas.Atlas.Machine
import GrammarAtlas.Proofs.Dependents
import GrammarAtlas.Proofs.SymbolTable

/-! # Registered documents

A document is registered while one of its slots is open. `Session.Coherent` says that each document
has one open slot at most, and that the import graph files exactly the names that the latest texts
of the registered documents declare. The lemmas here read off the state who a document is and who
provides a grammar, and say what the single changes of the state do to that. -/

namespace GrammarAtlas

-- Irreducible, so that no comparison of states ever goes into a text.
@[irreducible] def SymbolTable.ofText (text : String) : SymbolTable :=
  ofTree (Grammar.parse text).tree

theorem SymbolTable.ofText_eq (text : String) : ofText text = ofTree (Grammar.parse text).tree := by
  unfold ofText; rfl

theorem SymbolTable.alike_ofText {t t' : String} (h : (ofText t).symbols = (ofText t').symbols) :
    Alike (ofText t) (ofText t') := by
  rw [ofText_eq, ofText_eq] at h ⊢
  exact alike_of_symbols_eq h

namespace Slot
variable {slot : Slot}

/-- The published analysis is of the latest text, if not of the latest epoch. -/
def IsCurrent (slot : Slot) : Prop := ∃ a, slot.published? = some a ∧ a.snapshot = slot.latest

/-- The published analysis is one of a text that the document had or has. -/
structure Orderly (slot : Slot) : Prop where
  version : ∀ a, slot.published? = some a → a.version ≤ slot.latest.version
  latest : ∀ a, slot.published? = some a → a.version = slot.latest.version → a.snapshot = slot.latest
  epoch : ∀ a, slot.published? = some a → a.epoch ≤ slot.epoch
  table : ∀ a, slot.published? = some a → a.table = .ofText a.snapshot.text

theorem orderly_new (id text : String) : (new id text).Orderly := by
  constructor <;> simp [new]

theorem isFresh_iff :
    slot.isFresh = true ↔
      ∃ a, slot.published? = some a ∧ a.snapshot = slot.latest ∧ a.epoch = slot.epoch := by
  rw [isFresh]
  cases slot.published? with
  | none => simp
  | some a => simp

theorem isCurrent_of_isFresh (h : slot.isFresh = true) : slot.IsCurrent := by
  obtain ⟨a, ha, hs, -⟩ := isFresh_iff.1 h
  exact ⟨a, ha, hs⟩

theorem freshness_eq_fresh_iff : slot.freshness = .fresh ↔ slot.isFresh = true := by
  rw [freshness]
  cases hp : slot.published? with
  | none => simp [isFresh, hp]
  | some a => cases hf : slot.isFresh <;> simp

theorem Orderly.not_isFresh_invalidate (h : slot.Orderly) : slot.invalidate.isFresh = false := by
  rw [Bool.eq_false_iff, Ne, isFresh_iff]
  rintro ⟨a, ha, -, he⟩
  have := h.epoch a ha
  simp only [invalidate] at he
  omega

theorem Orderly.isNewer (h : slot.Orderly) (hf : slot.isFresh = false) {a : Analysis}
    (ha : a.snapshot = slot.latest) (he : a.epoch = slot.epoch) : slot.isNewer a = true := by
  rw [Slot.isNewer]
  cases hp : slot.published? with
  | none => rfl
  | some p =>
    have hv := h.version p hp
    have hav : a.version = slot.latest.version := by rw [Analysis.version, ha]
    by_cases heq : p.version = slot.latest.version
    · have hpe := h.epoch p hp
      have hne : p.epoch ≠ slot.epoch := fun hne =>
        Bool.eq_false_iff.1 hf (isFresh_iff.2 ⟨p, hp, h.latest p hp heq, hne⟩)
      simp only [Bool.or_eq_true, decide_eq_true_eq, Bool.and_eq_true, beq_iff_eq]
      omega
    · simp only [Bool.or_eq_true, decide_eq_true_eq]
      omega

theorem Orderly.setText (h : slot.Orderly) (text : String) : (slot.setText text).Orderly := by
  refine ⟨fun a ha => ?_, fun a ha hv => ?_, h.epoch, h.table⟩ <;> have := h.version a ha
  · exact this.trans (Nat.le_succ _)
  · simp only [Slot.setText] at hv
    omega

theorem Orderly.not_isCurrent_setText (h : slot.Orderly) (text : String) :
    ¬ (slot.setText text).IsCurrent := by
  rintro ⟨a, ha, hal⟩
  have := h.version a ha
  rw [Analysis.version, hal] at this
  simp only [Slot.setText] at this
  omega

/-- What makes up a registration. -/
def tag (slot : Slot) : String × Bool × Snapshot := (slot.id, slot.closed, slot.latest)

/-- The slot once `ids` have been invalidated. -/
def bump (ids : List String) (slot : Slot) : Slot :=
  if slot.closed = false ∧ slot.id ∈ ids then slot.invalidate else slot

variable {ids : List String}

@[simp] theorem id_bump : (slot.bump ids).id = slot.id := by rw [bump]; split <;> rfl

@[simp] theorem latest_bump : (slot.bump ids).latest = slot.latest := by rw [bump]; split <;> rfl

@[simp] theorem closed_bump : (slot.bump ids).closed = slot.closed := by rw [bump]; split <;> rfl

@[simp] theorem inFlight_bump : (slot.bump ids).inFlight = slot.inFlight := by
  rw [bump]; split <;> rfl

@[simp] theorem published?_bump : (slot.bump ids).published? = slot.published? := by
  rw [bump]; split <;> rfl

theorem epoch_le_bump : slot.epoch ≤ (slot.bump ids).epoch := by
  rw [bump]; split <;> simp [invalidate]

theorem bump_of_not_mem (h : slot.id ∉ ids) : slot.bump ids = slot := by
  rw [bump, if_neg fun h' => h h'.2]

theorem bump_nil (slot : Slot) : slot.bump [] = slot := bump_of_not_mem (by simp)

theorem Orderly.not_isFresh_bump (h : slot.Orderly) (hc : slot.closed = false) (hi : slot.id ∈ ids) :
    (slot.bump ids).isFresh = false := by
  rw [bump, if_pos ⟨hc, hi⟩]
  exact h.not_isFresh_invalidate

/-- Whoever is still fresh has not been informed. -/
theorem Orderly.not_mem_of_isFresh_bump (h : slot.Orderly) (hc : slot.closed = false)
    (hf : (slot.bump ids).isFresh) : slot.id ∉ ids := by
  intro hi
  rw [h.not_isFresh_bump hc hi] at hf
  cases hf

theorem Orderly.bump (h : slot.Orderly) : (slot.bump ids).Orderly := by
  refine ⟨?_, ?_, ?_, ?_⟩ <;> simp only [published?_bump, latest_bump]
  · exact h.version
  · exact h.latest
  · exact fun a ha => (h.epoch a ha).trans epoch_le_bump
  · exact h.table

end Slot

namespace Session
variable {s s' : Session} {n m : Nat} {slot slot' : Slot} {id g : String}

/-- Slot `n` is that of a registered document. -/
structure IsOpen (s : Session) (n : Nat) (slot : Slot) : Prop where
  get : s.slots[n]? = some slot
  opened : slot.closed = false

/-- No document is registered twice. -/
def Unique (s : Session) : Prop :=
  ∀ ⦃n m : Nat⦄ ⦃a b : Slot⦄, s.IsOpen n a → s.IsOpen m b → a.id = b.id → n = m

def text? (s : Session) (id : String) : Option String :=
  (s.slotOf? id).bind fun n => s.slots[n]?.map (·.latest.text)

/-- The grammar that a registered document declares. -/
def declared (s : Session) (id : String) : Option String := (s.text? id).bind Grammar.sniffName?

theorem isOpen_of_slotOf? (h : s.slotOf? id = some n) : ∃ slot, s.IsOpen n slot ∧ slot.id = id := by
  obtain ⟨hn, hp, -⟩ := List.findIdx?_eq_some_iff_getElem.1 h
  simp only [Bool.and_eq_true, beq_iff_eq, Bool.not_eq_true'] at hp
  exact ⟨s.slots[n], ⟨List.getElem?_eq_getElem hn, hp.2⟩, hp.1⟩

theorem exists_slotOf? (h : s.IsOpen n slot) : ∃ m, s.slotOf? slot.id = some m := by
  rw [← Option.isSome_iff_exists, slotOf?, List.findIdx?_isSome, List.any_eq_true]
  exact ⟨slot, List.mem_of_getElem? h.get, by simp [h.opened]⟩

theorem Unique.slotOf? (hu : s.Unique) (h : s.IsOpen n slot) : s.slotOf? slot.id = some n := by
  obtain ⟨m, hm⟩ := exists_slotOf? h
  obtain ⟨b, hb, hid⟩ := isOpen_of_slotOf? hm
  rw [hm, hu hb h hid]

theorem slotOf?_eq_none (h : ∀ n slot, s.IsOpen n slot → slot.id ≠ id) : s.slotOf? id = none := by
  cases hs : s.slotOf? id with
  | none => rfl
  | some n =>
    obtain ⟨slot, ho, hid⟩ := isOpen_of_slotOf? hs
    exact absurd hid (h n slot ho)

theorem IsOpen.eq (h : s.IsOpen n slot) (h' : s.IsOpen n slot') : slot = slot' := by
  have := h.get.symm.trans h'.get
  exact Option.some.inj this

theorem Unique.text? (hu : s.Unique) (h : s.IsOpen n slot) : s.text? slot.id = some slot.latest.text := by
  rw [Session.text?, hu.slotOf? h]
  simp [h.get]

theorem Unique.declared (hu : s.Unique) (h : s.IsOpen n slot) :
    s.declared slot.id = Grammar.sniffName? slot.latest.text := by
  rw [Session.declared, hu.text? h]; rfl

theorem isOpen_of_declared (h : s.declared id = some g) :
    ∃ n slot, s.IsOpen n slot ∧ slot.id = id ∧ Grammar.sniffName? slot.latest.text = some g := by
  obtain ⟨t, ht, hg⟩ := Option.bind_eq_some_iff.1 h
  obtain ⟨n, hn, ht⟩ := Option.bind_eq_some_iff.1 ht
  obtain ⟨slot, ho, hid⟩ := isOpen_of_slotOf? hn
  rw [ho.get] at ht
  obtain rfl : slot.latest.text = t := by simpa using ht
  exact ⟨n, slot, ho, hid, hg⟩

/-! ## States with the same documents -/

theorem slotOf?_congr (h : s'.slots.map Slot.tag = s.slots.map Slot.tag) (id : String) :
    s'.slotOf? id = s.slotOf? id := by
  have htag : ∀ s : Session, s.slotOf? id =
      (s.slots.map Slot.tag).findIdx? fun t => t.1 == id && !t.2.1 := by
    intro s
    rw [List.findIdx?_map]
    rfl
  rw [htag, htag, h]

theorem getElem?_tag_congr (h : s'.slots.map Slot.tag = s.slots.map Slot.tag) (n : Nat) :
    s'.slots[n]?.map Slot.tag = s.slots[n]?.map Slot.tag := by
  rw [← List.getElem?_map, ← List.getElem?_map, h]

theorem IsOpen.of_tag (h : s'.slots.map Slot.tag = s.slots.map Slot.tag) (ho : s.IsOpen n slot) :
    ∃ slot', s'.IsOpen n slot' ∧ slot'.tag = slot.tag := by
  have := getElem?_tag_congr h n
  rw [ho.get, Option.map_some, Option.map_eq_some_iff] at this
  obtain ⟨slot', hs', ht⟩ := this
  have hc : slot'.closed = slot.closed := congrArg (·.2.1) ht
  exact ⟨slot', ⟨hs', hc.trans ho.opened⟩, ht⟩

theorem text?_congr (h : s'.slots.map Slot.tag = s.slots.map Slot.tag) (id : String) :
    s'.text? id = s.text? id := by
  rw [text?, text?, slotOf?_congr h]
  congr 1
  funext n
  have := congrArg (Option.map fun t => t.2.2.text) (getElem?_tag_congr h n)
  simpa [Option.map_map, Function.comp_def, Slot.tag] using this

theorem declared_congr (h : s'.slots.map Slot.tag = s.slots.map Slot.tag) :
    s'.declared = s.declared := by
  funext id
  rw [declared, declared, text?_congr h]

theorem Unique.of_tag (hu : s.Unique) (h : s'.slots.map Slot.tag = s.slots.map Slot.tag) :
    s'.Unique := by
  intro n m a b ha hb hid
  obtain ⟨a', ha', hta⟩ := ha.of_tag h.symm
  obtain ⟨b', hb', htb⟩ := hb.of_tag h.symm
  refine hu ha' hb' ?_
  have h₁ : a'.id = a.id := congrArg (·.1) hta
  have h₂ : b'.id = b.id := congrArg (·.1) htb
  rw [h₁, h₂, hid]

theorem map_tag_modifySlot {f : Slot → Slot} (hf : ∀ slot, (f slot).tag = slot.tag) (n : Nat) :
    (s.modifySlot n f).slots.map Slot.tag = s.slots.map Slot.tag := by
  refine List.ext_getElem? fun m => ?_
  rw [List.getElem?_map, List.getElem?_map, modifySlot, List.getElem?_modify]
  cases s.slots[m]? with
  | none => rfl
  | some slot =>
    by_cases h : n = m <;> simp [h, hf]

theorem map_tag_bump (ids : List String) :
    (s.slots.map (Slot.bump ids)).map Slot.tag = s.slots.map Slot.tag := by
  rw [List.map_map]
  refine List.map_congr_left fun slot _ => ?_
  simp [Slot.tag]

theorem get?_modifySlot (f : Slot → Slot) : (s.modifySlot n f).slots[n]? = s.slots[n]?.map f := by
  rw [modifySlot, List.getElem?_modify_eq, Option.map_eq_map]

theorem get?_modifySlot_of_ne (f : Slot → Slot) (h : n ≠ m) :
    (s.modifySlot n f).slots[m]? = s.slots[m]? :=
  List.getElem?_modify_ne f s.slots h

/-- The state once `ids` have been invalidated. -/
def bump (s : Session) (ids : List String) : Session :=
  { s with slots := s.slots.map (Slot.bump ids) }

theorem invalidate_eq (hu : s.Unique) (id : String) : s.invalidate id = s.bump [id] := by
  rw [invalidate]
  cases hn : s.slotOf? id with
  | none =>
    have hne : ∀ slot ∈ s.slots, slot.bump [id] = slot := by
      intro slot hs
      rw [Slot.bump, if_neg]
      rintro ⟨hc, hid⟩
      rw [List.mem_singleton] at hid
      have := List.findIdx?_eq_none_iff.1 hn slot hs
      simp [hid, hc] at this
    simp only [bump, List.map_congr_left hne, List.map_id']
  | some n =>
    obtain ⟨slot, ho, hid⟩ := isOpen_of_slotOf? hn
    have : s.slots.modify n Slot.invalidate = s.slots.map (Slot.bump [id]) := by
      refine List.ext_getElem? fun m => ?_
      rw [List.getElem?_modify, List.getElem?_map]
      cases hm : s.slots[m]? with
      | none => rfl
      | some b =>
        simp only [Option.map_eq_map, Option.map_some, Option.some.injEq, Slot.bump,
          List.mem_singleton]
        by_cases hnm : n = m
        · subst hnm
          obtain rfl : slot = b := Option.some.inj (ho.get.symm.trans hm)
          rw [if_pos rfl, if_pos ⟨ho.opened, hid⟩]
        · rw [if_neg hnm, if_neg]
          rintro ⟨hc, hb⟩
          exact hnm (hu ho ⟨hm, hc⟩ (hid.trans hb.symm))
    simp only [modifySlot, this, bump]

theorem bump_nil (s : Session) : s.bump [] = s := by
  have : s.slots.map (Slot.bump []) = s.slots := by
    simpa using List.map_congr_left (l := s.slots) fun slot _ => slot.bump_nil
  rw [bump, this]

theorem foldl_invalidate (hu : s.Unique) {ids : List String} (hd : ids.Nodup) :
    ids.foldl invalidate s = s.bump ids := by
  induction ids generalizing s with
  | nil => exact s.bump_nil.symm
  | cons id ids ih =>
    obtain ⟨hid, hd⟩ := List.nodup_cons.1 hd
    rw [List.foldl_cons, invalidate_eq hu, ih (hu.of_tag (map_tag_bump _)) hd]
    simp only [bump, List.map_map]
    congr 1
    refine List.map_congr_left fun slot _ => ?_
    simp only [Function.comp_apply]
    by_cases h : slot.closed = false ∧ slot.id = id
    · have hni : slot.id ∉ ids := h.2 ▸ hid
      rw [Slot.bump_of_not_mem (by simpa using hni)]
      simp [Slot.bump, h.1, h.2]
    · have : slot.bump [id] = slot := by
        rw [Slot.bump, if_neg (by simpa using h)]
      rw [this]
      simp only [Slot.bump, List.mem_cons]
      by_cases hc : slot.closed = false
      · simp only [hc, true_and] at h
        simp [hc, h]
      · simp [hc]

/-- Invalidation changes slots only. -/
theorem exists_foldl_invalidate (s : Session) (ids : List String) :
    ∃ slots, ids.foldl invalidate s = { s with slots } := by
  induction ids generalizing s with
  | nil => exact ⟨s.slots, rfl⟩
  | cons id ids ih =>
    obtain ⟨slots, hslots⟩ := ih (s.invalidate id)
    refine ⟨slots, ?_⟩
    rw [List.foldl_cons, hslots, invalidate]
    split <;> rfl

theorem nodup_reached (s : Session) (origin : String) (grammars : List String)
    (except? : Option String) : (s.reached origin grammars except?).Nodup := by
  refine List.Nodup.filter _ ((pairwise_ascending _).imp ?_)
  exact fun h => h.ne

theorem invalidateReached_eq (hu : s.Unique) (origin : String) (grammars : List String)
    (except? : Option String) :
    s.invalidateReached origin grammars except? =
      (s.bump (s.reached origin grammars except?),
        !(s.reached origin grammars except?).isEmpty) := by
  simp only [invalidateReached, foldl_invalidate hu (s.nodup_reached _ _ _)]

theorem mem_reached (hd : s.graph.imports.Distinct) {origin : String} {grammars : List String}
    {except? : Option String} :
    id ∈ s.reached origin grammars except? ↔
      s.graph.Draws origin grammars id ∧ except? ≠ some id ∧ ∃ n, s.slotOf? id = some n := by
  rw [reached, List.mem_filter, ImportGraph.mem_dependents_iff hd, ← Option.isSome_iff_exists]
  simp

structure Coherent (s : Session) : Prop where
  unique : s.Unique
  mirrors : s.graph.Mirrors s.declared
  distinct : s.graph.imports.Distinct

namespace Coherent

theorem start (settings : Settings) (host? : Option Host) : (Session.start settings host?).Coherent := by
  refine ⟨fun n m a b ha => ?_, ?_, Directory.distinct_nil⟩
  · cases ha.get
  · exact ImportGraph.Mirrors.empty

theorem congr (h : s.Coherent) (ht : s'.slots.map Slot.tag = s.slots.map Slot.tag)
    (hn : s'.graph.names = s.graph.names) (hp : s'.graph.providers = s.graph.providers)
    (hd : s'.graph.imports.Distinct) : s'.Coherent := by
  refine ⟨h.unique.of_tag ht, ?_, hd⟩
  rw [declared_congr ht]
  exact h.mirrors.congr_graph hn hp

end Coherent

/-- The slot of the document that provides a grammar to another one, as `askFor` looks it up. -/
def source? (s : Session) (id grammar : String) : Option Nat :=
  ((s.graph.provider? grammar).filter (· != id)).bind s.slotOf?

theorem Coherent.isOpen_of_source? (h : s.Coherent) (hs : s.source? id g = some m) :
    ∃ slot, s.IsOpen m slot ∧ slot.id ≠ id ∧ s.graph.provider? g = some slot.id ∧
      Grammar.sniffName? slot.latest.text = some g := by
  obtain ⟨d, hd, hm⟩ := Option.bind_eq_some_iff.1 hs
  obtain ⟨hp, hne⟩ := Option.filter_eq_some_iff.1 hd
  obtain ⟨slot, ho, rfl⟩ := isOpen_of_slotOf? hm
  refine ⟨slot, ho, by simpa using hne, hp, ?_⟩
  rw [← h.unique.declared ho]
  exact h.mirrors.declared_of_provider? hp

theorem Coherent.exists_source? (h : s.Coherent) {d : String} (hp : s.graph.provider? g = some d)
    (hne : d ≠ id) : ∃ m, s.source? id g = some m := by
  obtain ⟨n, slot, ho, rfl, -⟩ := isOpen_of_declared (h.mirrors.declared_of_provider? hp)
  refine ⟨n, ?_⟩
  rw [source?, hp, Option.filter_some, if_pos (by simpa using hne)]
  exact h.unique.slotOf? ho

theorem source?_congr (ht : s'.slots.map Slot.tag = s.slots.map Slot.tag)
    (hp : s'.graph.providers = s.graph.providers) (id g : String) :
    s'.source? id g = s.source? id g := by
  rw [source?, source?, ImportGraph.provider?, ImportGraph.provider?, hp]
  congr 1
  funext d
  exact slotOf?_congr ht d

end Session

end GrammarAtlas
