import GrammarAtlas.Proofs.Backing

/-! # What the work on one document preserves

While a query is under way the documents stay the same (`SameDocuments`), and the state changes in
two ways only. A document is taken up and its imports are recorded (`takeUp`); or its analysis is
published, the document is let go, and whoever has seen an outdated table of it is invalidated
(`conclude`). Both preserve `Session.Sound`. -/

namespace GrammarAtlas

namespace Run

/-- What the run comes to if it resolves to `r`. -/
def analysis (run : Run) (r : Resolution) : Analysis :=
  .assemble run.snapshot run.epoch run.grammar run.table r

/-- The publication of that, for the given slot and by the given graph. -/
def publication (run : Run) (slot : Slot) (graph : ImportGraph) (r : Resolution) : Publication :=
  ⟨run.slot, slot.id, run.analysis r, run.known, graph⟩

end Run

/-- The slot once `a` has been published and the slot has been let go. -/
def Slot.conclude (slot : Slot) (a : Analysis) : Slot :=
  { slot with published? := some a, inFlight := false }

namespace Session
variable {s s' s'' : Session} {n m : Nat} {slot slot' a b : Slot} {id d e g : String}
  {ledger : List Publication} {p : Publication}

theorem Recorded.of_tag (h : s.Recorded slot) (ht : slot'.tag = slot.tag) : s.Recorded slot' := by
  have hid : slot'.id = slot.id := congrArg (·.1) ht
  have hl : slot'.latest = slot.latest := congrArg (·.2.2) ht
  rw [Recorded, hid, hl]
  exact h

/-- The documents are the same, and no more is forgotten about their imports. -/
structure SameDocuments (s s' : Session) : Prop where
  tags : s'.slots.map Slot.tag = s.slots.map Slot.tag
  names : s'.graph.names = s.graph.names
  providers : s'.graph.providers = s.graph.providers
  settings : s'.settings = s.settings
  host : s'.host? = s.host?
  recorded : ∀ n slot, s.IsOpen n slot → s.Recorded slot → s'.Recorded slot

namespace SameDocuments

theorem refl (s : Session) : SameDocuments s s := ⟨rfl, rfl, rfl, rfl, rfl, fun _ _ _ h => h⟩

theorem trans (h : SameDocuments s s') (h' : SameDocuments s' s'') : SameDocuments s s'' := by
  refine ⟨h'.tags.trans h.tags, h'.names.trans h.names, h'.providers.trans h.providers,
    h'.settings.trans h.settings, h'.host.trans h.host, fun n slot ho hr => ?_⟩
  obtain ⟨slot', ho', ht⟩ := ho.of_tag h.tags
  exact (h'.recorded n slot' ho' ((h.recorded n slot ho hr).of_tag ht)).of_tag ht.symm

theorem provider? (h : SameDocuments s s') (g : String) :
    s'.graph.provider? g = s.graph.provider? g := by
  rw [ImportGraph.provider?, h.providers, ImportGraph.provider?]

theorem source? (h : SameDocuments s s') (id g : String) : s'.source? id g = s.source? id g :=
  source?_congr h.tags h.providers id g

theorem hostTable? (h : SameDocuments s s') (g : String) : s'.hostTable? g = s.hostTable? g := by
  rw [Session.hostTable?, h.host, Session.hostTable?]

theorem actual? (h : SameDocuments s s') (id g : String) : s'.actual? id g = s.actual? id g := by
  rw [Session.actual?, Session.actual?, h.settings, h.source?, h.hostTable?]
  cases s.source? id g with
  | none => rfl
  | some m =>
    have := congrArg (Option.map fun t => SymbolTable.ofText t.2.2.text) (getElem?_tag_congr h.tags m)
    simp only [Option.map_map] at this
    exact congrArg (fun t => if s.settings.resolveImports then t else none) this

theorem linked (h : SameDocuments s s') (hl : s.Linked id g) : s'.Linked id g := by
  refine hl.mono (fun _ => True) (fun n slot ho hr _ => ?_) (fun d _ => ?_)
    (fun _ _ _ _ _ _ _ _ _ => trivial) trivial
  · obtain ⟨slot', ho', ht⟩ := ho.of_tag h.tags
    exact ⟨n, slot', ho', congrArg (·.1) ht, congrArg (·.2.2) ht,
      (h.recorded n slot ho hr).of_tag ht⟩
  · rw [declared_congr h.tags]

theorem backed (h : SameDocuments s s') (hb : s.Backed p) : s'.Backed p := by
  refine ⟨fun g hg => h.linked (hb.linked g hg), fun g hg => ?_, fun g t? hg hk => ?_⟩
  · rw [h.provider?]; exact hb.source g hg
  · rw [h.actual?]; exact hb.answers g t? hg hk

theorem coherent (h : SameDocuments s s') (hc : s.Coherent) (hd : s'.graph.imports.Distinct) :
    s'.Coherent :=
  hc.congr h.tags h.names h.providers hd

end SameDocuments

theorem Sound.congr (h : s.Sound ledger) (hsame : SameDocuments s s') (hslots : s'.slots = s.slots)
    (hgraph : s'.graph = s.graph) (hq : s'.Quiet) : s'.Sound ledger := by
  have hopen : ∀ {m b}, s'.IsOpen m b → s.IsOpen m b := fun hb => ⟨hslots ▸ hb.get, hb.opened⟩
  refine ⟨hsame.coherent h.coherent (by rw [hgraph]; exact h.coherent.distinct), hq,
    fun m b hb => h.orderly m b (hopen hb),
    fun m b hb hc => hsame.recorded m b (hopen hb) (h.recorded m b (hopen hb) hc),
    fun m b a hb hp hfl => by rw [hgraph]; exact h.noted m b a (hopen hb) hp hfl,
    fun m b a hb hp => ?_, fun m b p hb hf hfl hp => ?_⟩
  · rw [hsame.settings, hsame.host]
    exact h.published m b a (hopen hb) hp
  · rcases h.backed m b p (hopen hb) hf hfl hp with ⟨k, c, g, hc, hcf, hcd, hcg, hl⟩ | hb
    · exact .inl ⟨k, c, g, ⟨hslots.symm ▸ hc.get, hc.opened⟩, hcf, hcd, hcg, hsame.linked hl⟩
    · exact .inr (hsame.backed hb)

section pointwise
variable {F : Nat → Slot → Slot} (hs : ∀ m, s'.slots[m]? = s.slots[m]?.map (F m))
  (hF : ∀ m a, (F m a).tag = a.tag)
include hs hF

theorem map_tag_of_getElem? : s'.slots.map Slot.tag = s.slots.map Slot.tag := by
  refine List.ext_getElem? fun m => ?_
  rw [List.getElem?_map, List.getElem?_map, hs m, Option.map_map]
  cases s.slots[m]? with
  | none => rfl
  | some a => exact congrArg some (hF m a)

theorem IsOpen.of_getElem? (h : s'.IsOpen m b) : ∃ a, s.IsOpen m a ∧ b = F m a := by
  have hget := h.get
  rw [hs m, Option.map_eq_some_iff] at hget
  obtain ⟨a, ha, rfl⟩ := hget
  have hc : (F m a).closed = a.closed := congrArg (·.2.1) (hF m a)
  exact ⟨a, ⟨ha, hc ▸ h.opened⟩, rfl⟩

theorem IsOpen.map_getElem? (h : s.IsOpen m a) : s'.IsOpen m (F m a) := by
  have hc : (F m a).closed = a.closed := congrArg (·.2.1) (hF m a)
  exact ⟨by rw [hs m, h.get, Option.map_some], hc.trans h.opened⟩

end pointwise

/-- The state once slot `n` has been taken up and its text has been read. -/
def takeUp (s : Session) (n : Nat) (slot : Slot) : Session :=
  { s.modifySlot n ({ · with inFlight := true }) with
    parses := s.parses + 1
    graph := s.graph.setImports slot.id (SymbolTable.ofText slot.latest.text).importNames }

theorem getElem?_takeUp (s : Session) (n : Nat) (slot : Slot) (m : Nat) :
    (s.takeUp n slot).slots[m]? =
      s.slots[m]?.map fun a => if n = m then { a with inFlight := true } else a := by
  simp only [takeUp, modifySlot, List.getElem?_modify, Option.map_eq_map]

theorem tag_takeUp (m : Nat) (a : Slot) :
    (if n = m then { a with inFlight := true } else a).tag = a.tag := by
  split <;> rfl

theorem recorded_takeUp_self (s : Session) (n : Nat) (slot : Slot) :
    (s.takeUp n slot).Recorded slot := by
  rw [Recorded, takeUp, ImportGraph.importsOf_setImports_self]

theorem sameDocuments_takeUp (hu : s.Unique) (ho : s.IsOpen n slot) :
    SameDocuments s (s.takeUp n slot) := by
  refine ⟨map_tag_of_getElem? (s.getElem?_takeUp n slot) tag_takeUp, rfl, rfl, rfl, rfl,
    fun m a ha hr => ?_⟩
  by_cases hid : a.id = slot.id
  · obtain rfl := hu ha ho hid
    rw [ha.eq ho]
    exact recorded_takeUp_self s m slot
  · rw [Recorded, takeUp, ImportGraph.importsOf_setImports_of_ne hid]
    exact hr

theorem Sound.takeUp (h : s.Sound ledger) (ho : s.IsOpen n slot) : (s.takeUp n slot).Sound ledger := by
  have hsame := sameDocuments_takeUp h.coherent.unique ho
  have hopen : ∀ {m b}, (s.takeUp n slot).IsOpen m b → ∃ a, s.IsOpen m a ∧
      b = if n = m then { a with inFlight := true } else a := fun hb =>
    hb.of_getElem? (s.getElem?_takeUp n slot) tag_takeUp
  refine ⟨hsame.coherent h.coherent (ImportGraph.distinct_setImports h.coherent.distinct _ _),
    ⟨h.quiet.scripts, h.quiet.hooks⟩, fun m b hb => ?_, fun m b hb hc => ?_,
    fun m b an hb hp hfl => ?_, fun m b an hb hp => ?_, fun m b p hb hf hfl hp => ?_⟩ <;>
    obtain ⟨a, ha, rfl⟩ := hopen hb
  · have := h.orderly m a ha
    split
    · exact ⟨this.version, this.latest, this.epoch, this.table⟩
    · exact this
  · by_cases hnm : n = m
    · subst hnm
      rw [if_pos rfl, ha.eq ho]
      exact (recorded_takeUp_self s n slot).of_tag rfl
    · rw [if_neg hnm] at hc ⊢
      exact hsame.recorded m a ha (h.recorded m a ha hc)
  · by_cases hnm : n = m
    · rw [if_pos hnm] at hfl
      cases hfl
    rw [if_neg hnm] at hp hfl ⊢
    have hne : a.id ≠ slot.id := fun hid => hnm (h.coherent.unique ho ha hid.symm)
    rw [Session.takeUp, ImportGraph.importsOf_setImports_of_ne hne]
    exact h.noted m a an ha hp hfl
  · have hp' : a.published? = some an := by split at hp <;> exact hp
    obtain ⟨p, hl, hpa, hpd, hg⟩ := h.published m a an ha hp'
    exact ⟨p, hl, hpa, by rw [hpd]; split <;> rfl, hg⟩
  · by_cases hnm : n = m
    · rw [if_pos hnm] at hfl
      cases hfl
    rw [if_neg hnm] at hf hfl ⊢
    rcases h.backed m a p ha hf hfl hp with ⟨k, c, g, hc, hcf, hcd, hcg, hlink⟩ | hb
    · refine .inl ⟨k, _, g, hc.map_getElem? (s.getElem?_takeUp n slot) tag_takeUp, ?_, ?_, ?_,
        hsame.linked hlink⟩
      · split
        · rfl
        · exact hcf
      · split <;> exact hcd
      · split <;> exact hcg
    · exact .inr (hsame.backed hb)

/-! ## An analysis under way -/

/-- The run is an analysis of the latest text of its slot. The answers it has got are those it would
get again. -/
structure Underway (s : Session) (run : Run) (slot : Slot) : Prop where
  isOpen : s.IsOpen run.slot slot
  inFlight : slot.inFlight = true
  stale : slot.isFresh = false
  snapshot : run.snapshot = slot.latest
  grammar : run.grammar = Grammar.parse slot.latest.text
  table : run.table = .ofText slot.latest.text
  epoch : run.epoch ≤ slot.epoch
  unchanged : run.changed = false
  asked : Resolution.Asked run.grammar.tree run.table s.settings.warnUnresolved
    (firstKnown s.settings run.table) run.known
  answers : ∀ g t?, (g, t?) ∈ run.known → t? = s.visible? slot.id g
  sources : s.settings.resolveImports = true → ∀ g t? m b, (g, t?) ∈ run.known →
    s.source? slot.id g = some m → s.slots[m]? = some b → b.inFlight = true ∨ b.IsCurrent

/-- An outdated table that the document of slot `n` can come upon, other than its own. -/
def Outdated (s : Session) (n : Nat) (id : String) : Prop :=
  ∃ m b g, s.IsOpen m b ∧ m ≠ n ∧ b.inFlight = true ∧ b.Dirty ∧
    Grammar.sniffName? b.latest.text = some g ∧ s.Linked id g

namespace Underway
variable {run : Run} {r : Resolution}

/-- Unless it is outdated, what was got for a grammar is what should have been. -/
theorem alike_of_linked (hs : s.Sound ledger) (h : s.Underway run slot)
    (hout : ¬ s.Outdated run.slot slot.id) (hl : s.Linked slot.id g) {t? : Option SymbolTable}
    (hk : (g, t?) ∈ run.known) : AlikeAnswers t? (s.actual? slot.id g) := by
  rw [h.answers g t? hk, visible?, actual?]
  split
  · rename_i hres
    cases hm : s.source? slot.id g with
    | none => exact .refl _
    | some m =>
      obtain ⟨b, hb, hne, -, hg⟩ := hs.coherent.isOpen_of_source? hm
      have hord := hs.orderly m b hb
      -- Either way there is a table, with the symbols of the latest one.
      have hex : ∃ a, b.published? = some a ∧
          a.table.symbols = (SymbolTable.ofText b.latest.text).symbols := by
        rcases h.sources hres g t? m b hk hm hb.get with hf | ⟨a, ha, hal⟩
        · by_contra hno
          refine hout ⟨m, b, g, hb, ?_, hf, fun a ha he => hno ⟨a, ha, he⟩, hg, hl⟩
          rintro rfl
          exact hne (congrArg Slot.id (hb.eq h.isOpen))
        · exact ⟨a, ha, by rw [hord.table a ha, hal]⟩
      obtain ⟨a, ha, hsym⟩ := hex
      simp only [hb.get, Option.bind_some, ha, Option.map_some]
      rw [hord.table a ha] at hsym ⊢
      exact .some (SymbolTable.alike_ofText hsym)
  · exact .none

/-- Unless there is an outdated table, the imports that the analysis followed are recorded. -/
theorem linked_of_through (hs : s.Sound ledger) (h : s.Underway run slot)
    (hout : ¬ s.Outdated run.slot slot.id) (hg : (run.publication slot s.graph r).Through g) :
    s.Linked slot.id g := by
  induction hg with
  | own hg =>
    have htable : run.table = .ofText slot.latest.text := h.table
    refine .direct h.isOpen (hs.recorded _ _ h.isOpen (.inl h.inFlight)) ?_
    rw [← htable]
    exact hg
  | @step e g t _ hsrc hk hg ih =>
    have hk : (e, some t) ∈ run.known := hk
    obtain ⟨d, hd⟩ := Option.isSome_iff_exists.1 hsrc
    obtain ⟨hp, hne⟩ := Option.filter_eq_some_iff.1 hd
    have hne : d ≠ slot.id := by simpa [Run.publication] using hne
    obtain ⟨m, hm⟩ : ∃ m, s.source? slot.id e = some m := hs.coherent.exists_source? hp hne
    obtain ⟨b, hb, -, hpb, -⟩ := hs.coherent.isOpen_of_source? hm
    have halike := h.alike_of_linked hs hout ih hk
    rw [actual?, hm] at halike
    split at halike
    · rename_i hres
      simp only [hb.get, Option.map_some] at halike
      cases halike with
      | some halike =>
        refine ih.snoc hb (hs.recorded m b hb (h.sources hres e _ m b hk hm hb.get)) ?_ ?_
        · exact hs.coherent.mirrors.declared_of_provider? hpb
        · rw [← halike.importNames]; exact hg
    · cases halike

theorem genuine (h : s.Underway run slot)
    (hr : Resolution.attempt run.known run.grammar.tree run.table s.settings.warnUnresolved = .ok r) :
    (run.publication slot s.graph r).Genuine s.settings s.host? := by
  have htext : (run.publication slot s.graph r).analysis.snapshot.text = slot.latest.text :=
    congrArg Snapshot.text h.snapshot
  have htable := h.table
  have hgrammar := h.grammar
  refine ⟨?_, ⟨r, ?_, ?_⟩, fun g t hk => ?_⟩
  · rw [htext, ← htable, ← hgrammar]; exact h.asked
  · rw [htext, ← htable, ← hgrammar]; exact hr
  · rw [htext, ← htable, ← hgrammar]; rfl
  · have hv := h.answers g (some t) hk
    rw [visible?] at hv
    split at hv
    · cases hm : s.source? slot.id g with
      | some m =>
        obtain ⟨d, hd, -⟩ := Option.bind_eq_some_iff.1 hm
        exact .inl (Option.isSome_iff_exists.2 ⟨d, hd⟩)
      | none =>
        rw [hm] at hv
        obtain ⟨host, hh, ht⟩ := Option.bind_eq_some_iff.1 hv.symm
        exact .inr ⟨host, hh, ht⟩
    · cases hv

end Underway

/-- The documents that learn of the publication of `a` in place of what `slot` has. -/
def informed (s : Session) (slot : Slot) (requester? : Option String) (a : Analysis) : List String :=
  if slot.showsChange a then s.reached slot.id (s.graph.name? slot.id).toList requester? else []

/-- The state once `a` has been published for slot `n` and the slot has been let go. -/
def conclude (s : Session) (n : Nat) (slot : Slot) (requester? : Option String) (a : Analysis) :
    Session :=
  ((s.modifySlot n (·.conclude a)).bump (s.informed slot requester? a)).heard
    (if slot.showsChange a then s.subscribers else [])

section conclude
variable {requester? : Option String} {an : Analysis}

theorem getElem?_conclude (s : Session) (n : Nat) (slot : Slot) (requester? : Option String)
    (an : Analysis) (m : Nat) :
    (s.conclude n slot requester? an).slots[m]? = s.slots[m]?.map fun b =>
      Slot.bump (s.informed slot requester? an)
        (if n = m then b.conclude an else b) := by
  simp only [conclude, bump, heard_slots, List.getElem?_map, modifySlot, List.getElem?_modify,
    Option.map_eq_map, Option.map_map, Function.comp_def]

theorem tag_conclude {ids : List String} (m : Nat) (b : Slot) :
    (Slot.bump ids (if n = m then b.conclude an else b)).tag = b.tag := by
  simp only [Slot.tag, Slot.id_bump, Slot.closed_bump, Slot.latest_bump]
  split <;> rfl

theorem sameDocuments_conclude : SameDocuments s (s.conclude n slot requester? an) := by
  have hg : (s.conclude n slot requester? an).graph = s.graph := by simp [conclude, bump, modifySlot]
  refine ⟨map_tag_of_getElem? (s.getElem?_conclude n slot requester? an) tag_conclude,
    by rw [hg], by rw [hg], by simp [conclude, bump, modifySlot], by simp [conclude, bump, modifySlot],
    fun m b hb hr => ?_⟩
  rw [Recorded, hg]
  exact hr

theorem not_mem_informed (hd : s.graph.imports.Distinct) : slot.id ∉ s.informed slot requester? an := by
  rw [informed]
  split
  · intro h
    exact ((mem_reached hd).1 h).1.ne rfl
  · simp

/-- Whoever has seen an outdated table learns that it has been replaced. -/
theorem mem_informed (hc : s.Coherent) (ho : s.IsOpen n slot) (hd : slot.Dirty)
    (han : an.table = .ofText slot.latest.text) (hg : Grammar.sniffName? slot.latest.text = some g)
    (hb : s.IsOpen m b) (hl : s.Linked b.id g) (hne : b.id ≠ slot.id) (hreq : requester? ≠ some b.id) :
    b.id ∈ s.informed slot requester? an := by
  have hshow : slot.showsChange an = true := by
    rw [Slot.showsChange]
    split
    · rename_i a ha
      have := hd a ha
      rw [← han] at this
      simp [Analysis.sameView, this]
    · rfl
  have hname : s.graph.name? slot.id = some g := by
    rw [hc.mirrors.name, hc.unique.declared ho, hg]
  rw [informed, if_pos hshow, mem_reached hc.distinct, hname]
  refine ⟨?_, hreq, m, hc.unique.slotOf? hb⟩
  refine hl.draws (fun _ _ => rfl) (fun d _ => hc.mirrors.name d) (fun e he => ?_) (by simp) hne
  rw [← hc.mirrors.name, hname] at he
  simpa using he.symm

theorem IsOpen.of_conclude (hb : (s.conclude n slot requester? an).IsOpen m b)
    (hd : s.graph.imports.Distinct) (ho : s.IsOpen n slot) :
    (m = n ∧ b = slot.conclude an) ∨
      m ≠ n ∧ ∃ a, s.IsOpen m a ∧ b = a.bump (s.informed slot requester? an) := by
  obtain ⟨a, ha, rfl⟩ := hb.of_getElem? (s.getElem?_conclude n slot requester? an) tag_conclude
  by_cases hnm : n = m
  · subst hnm
    rw [if_pos rfl, ha.eq ho]
    exact .inl ⟨rfl, Slot.bump_of_not_mem (not_mem_informed hd)⟩
  · rw [if_neg hnm]
    exact .inr ⟨Ne.symm hnm, a, ha, rfl⟩

theorem isOpen_conclude_self (hd : s.graph.imports.Distinct) (ho : s.IsOpen n slot) :
    (s.conclude n slot requester? an).IsOpen n (slot.conclude an) := by
  have := ho.map_getElem? (s.getElem?_conclude n slot requester? an) tag_conclude
  rcases this.of_conclude hd ho with ⟨-, h⟩ | ⟨h, -⟩
  · rwa [h] at this
  · exact absurd rfl h

theorem isOpen_conclude_of_ne (hne : m ≠ n) (hb : s.IsOpen m b) :
    (s.conclude n slot requester? an).IsOpen m (b.bump (s.informed slot requester? an)) := by
  have := hb.map_getElem? (s.getElem?_conclude n slot requester? an) tag_conclude
  rwa [if_neg (Ne.symm hne)] at this

/-- Another document that shows an outdated table goes on showing it. -/
theorem pending_conclude (hne : m ≠ n) (hb : s.IsOpen m b) (hf : b.inFlight = true) (hd : b.Dirty)
    (hg : Grammar.sniffName? b.latest.text = some g) (hl : s.Linked id g) :
    (s.conclude n slot requester? an).Pending id := by
  refine ⟨m, _, g, isOpen_conclude_of_ne hne hb, ?_, ?_, ?_, sameDocuments_conclude.linked hl⟩
  · rw [Slot.inFlight_bump]; exact hf
  · rw [Slot.Dirty, Slot.published?_bump, Slot.latest_bump]; exact hd
  · rw [Slot.latest_bump]; exact hg

end conclude

section
variable {run : Run} {r : Resolution} {requester? : Option String}

/-- The published analysis is backed, or its document has seen an outdated table. -/
theorem Underway.backed (hs : s.Sound ledger) (h : s.Underway run slot) :
    (s.conclude run.slot slot requester? (run.analysis r)).Pending slot.id ∨
      (s.conclude run.slot slot requester? (run.analysis r)).Backed
        (run.publication slot s.graph r) := by
  have hsame : SameDocuments s (s.conclude run.slot slot requester? (run.analysis r)) :=
    sameDocuments_conclude
  by_cases hout : s.Outdated run.slot slot.id
  · obtain ⟨m, b, g, hb, hne, hf, hdirty, hg, hl⟩ := hout
    exact .inl (pending_conclude hne hb hf hdirty hg hl)
  · have hlink : ∀ g, (run.publication slot s.graph r).Through g → s.Linked slot.id g :=
      fun g hg => h.linked_of_through hs hout hg
    refine .inr (hsame.backed ⟨hlink, fun _ _ => rfl, fun g t? hg hk => ?_⟩)
    exact h.alike_of_linked hs hout (hlink g hg) hk

/-- Another document that is still fresh has not been informed, so what it shows is as well founded
as before. -/
theorem Underway.backed_other (hs : s.Sound ledger) (hu : s.Underway run slot)
    (hreq : ∀ id, requester? = some id → ∃ k c, s.IsOpen k c ∧ c.id = id ∧ c.inFlight = true)
    (hne : m ≠ run.slot) (ha : s.IsOpen m a)
    (hf : (a.bump (s.informed slot requester? (run.analysis r))).isFresh) (hfl : a.inFlight = false)
    (hp : Publication.last? ledger m = some p) :
    (s.conclude run.slot slot requester? (run.analysis r)).Pending a.id ∨
      (s.conclude run.slot slot requester? (run.analysis r)).Backed p := by
  have hsame : SameDocuments s (s.conclude run.slot slot requester? (run.analysis r)) :=
    sameDocuments_conclude
  have hni := (hs.orderly m a ha).not_mem_of_isFresh_bump ha.opened hf
  rw [Slot.bump_of_not_mem hni] at hf
  rcases hs.backed m a p ha hf hfl hp with ⟨k, c, g, hc, hcf, hcd, hcg, hl⟩ | hb
  · by_cases hk : k = run.slot
    · -- The outdated table was that of the published document: who has seen it is informed.
      subst hk
      obtain rfl := hc.eq hu.isOpen
      refine absurd (mem_informed hs.coherent hc hcd hu.table hcg ha hl (fun hid => ?_) ?_) hni
      · exact hne (hs.coherent.unique ha hc hid)
      · intro hreq'
        obtain ⟨k', c', hc', hid, hcf'⟩ := hreq _ hreq'
        obtain rfl := hs.coherent.unique hc' ha hid
        rw [hc'.eq ha, hfl] at hcf'
        cases hcf'
    · exact .inl (pending_conclude hk hc hcf hcd hcg hl)
  · exact .inr (hsame.backed hb)

theorem Sound.conclude (h : s.Sound ledger) (hu : s.Underway run slot) (hepoch : slot.epoch = run.epoch)
    (hr : Resolution.attempt run.known run.grammar.tree run.table s.settings.warnUnresolved = .ok r)
    (hreq : ∀ id, requester? = some id → ∃ k c, s.IsOpen k c ∧ c.id = id ∧ c.inFlight = true) :
    (s.conclude run.slot slot requester? (run.analysis r)).Sound
      (ledger ++ [run.publication slot s.graph r]) := by
  have hsame : SameDocuments s (s.conclude run.slot slot requester? (run.analysis r)) :=
    sameDocuments_conclude
  have hd := h.coherent.distinct
  have hgraph : (s.conclude run.slot slot requester? (run.analysis r)).graph = s.graph := by
    simp [Session.conclude, bump, modifySlot]
  have hlast : Publication.last? (ledger ++ [run.publication slot s.graph r]) run.slot =
      some (run.publication slot s.graph r) :=
    Publication.last?_append_of_eq (p := run.publication slot s.graph r)
  have hlast' : ∀ m, m ≠ run.slot →
      Publication.last? (ledger ++ [run.publication slot s.graph r]) m =
        Publication.last? ledger m := fun m hm =>
    Publication.last?_append_of_ne (p := run.publication slot s.graph r) (Ne.symm hm)
  refine ⟨hsame.coherent h.coherent (by rw [hgraph]; exact hd), ?_, fun m b hb => ?_,
    fun m b hb hc => ?_, fun m b a hb hp hfl => ?_, fun m b a hb hp => ?_,
    fun m b p hb hf hfl hp => ?_⟩
  · exact Quiet.heard _ ⟨h.quiet.scripts, h.quiet.hooks⟩
  · rcases hb.of_conclude hd hu.isOpen with ⟨rfl, rfl⟩ | ⟨-, a, ha, rfl⟩
    · refine ⟨?_, ?_, ?_, ?_⟩ <;> rintro _ ⟨⟩
      · exact (congrArg Snapshot.version hu.snapshot).le
      · exact fun _ => hu.snapshot
      · exact hepoch.ge
      · exact hu.table.trans (by rw [← congrArg Snapshot.text hu.snapshot]; rfl)
    · exact (h.orderly m a ha).bump
  · rcases hb.of_conclude hd hu.isOpen with ⟨rfl, rfl⟩ | ⟨-, a, ha, rfl⟩
    · exact (hsame.recorded _ _ hu.isOpen (h.recorded _ _ hu.isOpen (.inl hu.inFlight))).of_tag rfl
    · have htag : (a.bump (s.informed slot requester? (run.analysis r))).tag = a.tag := by
        simp [Slot.tag]
      refine (hsame.recorded m a ha (h.recorded m a ha ?_)).of_tag htag
      simpa [Slot.IsCurrent] using hc
  · rw [hgraph]
    rcases hb.of_conclude hd hu.isOpen with ⟨rfl, rfl⟩ | ⟨-, a', ha, rfl⟩
    · cases hp
      exact (h.recorded _ _ hu.isOpen (.inl hu.inFlight)).trans (congrArg _ hu.table.symm)
    · rw [Slot.published?_bump] at hp
      rw [Slot.inFlight_bump] at hfl
      rw [Slot.id_bump]
      exact h.noted m a' a ha hp hfl
  · rcases hb.of_conclude hd hu.isOpen with ⟨rfl, rfl⟩ | ⟨hne, a', ha, rfl⟩
    · cases hp
      refine ⟨_, hlast, rfl, rfl, ?_⟩
      rw [hsame.settings, hsame.host]
      exact hu.genuine hr
    · rw [Slot.published?_bump] at hp
      rw [hlast' m hne, Slot.id_bump, hsame.settings, hsame.host]
      exact h.published m a' a ha hp
  · rcases hb.of_conclude hd hu.isOpen with ⟨rfl, rfl⟩ | ⟨hne, a, ha, rfl⟩
    · rw [hlast] at hp
      cases hp
      exact hu.backed h
    · rw [hlast' m hne] at hp
      rw [Slot.inFlight_bump] at hfl
      rw [Slot.id_bump]
      exact hu.backed_other h hreq hne ha hf hfl hp

end

end Session

end GrammarAtlas
