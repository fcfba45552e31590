import GrammarAtlas.Proofs.Errands

/-! # One stage of an errand

Each stage of an errand preserves `Session.InHand`, whatever other errands there are. The lemmas here
have one stage each; how the stages follow each other is in `Proofs.Progress`. -/

namespace GrammarAtlas

namespace Session
variable {s s' : Session} {n m : Nat} {slot a b : Slot} {id g : String} {ledger : List Publication}
  {e o : Errand} {es : List Errand} {run : Run} {r : Resolution} {stage : Stage} {move : Move}

theorem Linked.exists_isOpen (h : s.Linked id g) : ∃ n slot, s.IsOpen n slot ∧ slot.id = id := by
  cases h with
  | direct ho => exact ⟨_, _, ho, rfl⟩
  | through ho => exact ⟨_, _, ho, rfl⟩

/-- Whoever an errand warns, it still warns at a stage with as much left to do. -/
theorem Warns.restage (hlisted : ∀ ids a, e.stage ≠ .invalidate ids a)
    (hchanged : e.stage.changed = true → stage.changed = true)
    (hholds : e.stage.holds = true → stage.holds = true) (hw : s.Warns id e) :
    s.Warns id { e with stage } := by
  cases hw with
  | news ho hg hl hne hreq hnews =>
    exact .news ho hg hl hne hreq (hnews.imp hchanged (And.imp_left hholds))
  | listed hs => exact absurd hs (hlisted _ _)

namespace InHand

/-- A stage that changes neither slots nor graph. -/
theorem restage (h : s.InHand ledger (e :: es)) (hsame : SameDocuments s s')
    (hslots : s'.slots = s.slots) (hgraph : s'.graph = s.graph) (hq : s'.Quiet)
    (hwarn : ∀ id, s.Warns id e → s.Warns id { e with stage })
    (hholds : stage.holds = e.stage.holds)
    (hfits : ∀ slot, s'.IsOpen e.slot slot → s.Fits (e :: es) e slot →
      (∀ run, s.Traces (e :: es) e.slot slot run → s'.Traces ({ e with stage } :: es) e.slot slot run) →
      s'.Fits ({ e with stage } :: es) { e with stage } slot) :
    s'.InHand ledger ({ e with stage } :: es) := by
  have hp := Passes.of_slots_eq hsame hslots
  have hopen : ∀ {m b}, s'.IsOpen m b → s.IsOpen m b := fun hb => ⟨hslots ▸ hb.get, hb.opened⟩
  have hwarn : ∀ id, s.Warns id e → s'.Warns id { e with stage } := fun id hw =>
    hp.warns (fun _ => nofun) (hwarn id hw)
  show s'.InHand ledger ([{ e with stage }] ++ es)
  refine h.passes hp (fun _ _ _ => nofun) hq
    (by rw [hgraph]; exact h.coherent.distinct) (fun ha hb => ?_) (fun m a b ha hb => ?_)
    (fun m b x hb hx => ?_) (fun id hw => .inl ⟨_, .head _, hwarn id hw⟩) fun o ho => ?_
  · rw [hslots, ha] at hb
    rw [Option.some.inj hb]
  · rw [hslots, ha] at hb
    rw [Option.some.inj hb]
    simp [Errand.holders, hholds]
  · exact (h.noted m b x (hopen hb) hx).imp (by rw [hgraph]; exact id)
      (And.imp_right fun hr => hsame.recorded m b (hopen hb) hr)
  · rw [List.mem_singleton.1 ho]
    obtain ⟨slot, ho, hf⟩ := h.carries e (.head _)
    have ho' : s'.IsOpen e.slot slot := ⟨hslots.symm ▸ ho.get, ho.opened⟩
    refine ⟨slot, ho', hfits slot ho' hf fun run ht => ?_⟩
    refine hp.traces ho ho' nofun (h.orderly _ _ ho) (fun hw => ?_) ht
    exact hp.warned_of_cons (fun _ _ _ => nofun)
      (fun id hw => .inl ⟨_, List.mem_singleton_self _, hwarn id hw⟩) hw

/-- An errand that has nothing to warn of comes to an end. -/
theorem dismiss (h : s.InHand ledger (e :: es)) (hsame : SameDocuments s s')
    (hslots : s'.slots = s.slots) (hgraph : s'.graph = s.graph) (hq : s'.Quiet)
    (hwarn : ∀ id, ¬ s.Warns id e) (hholds : e.stage.holds = false) : s'.InHand ledger es := by
  have hp := Passes.of_slots_eq hsame hslots
  have hopen : ∀ {m b}, s'.IsOpen m b → s.IsOpen m b := fun hb => ⟨hslots ▸ hb.get, hb.opened⟩
  show s'.InHand ledger ([] ++ es)
  refine h.passes hp (fun _ _ _ => nofun) hq
    (by rw [hgraph]; exact h.coherent.distinct) (fun ha hb => ?_) (fun m a b ha hb => ?_)
    (fun m b x hb hx => ?_) (fun id hw => absurd hw (hwarn id)) nofun
  · rw [hslots, ha] at hb
    rw [Option.some.inj hb]
  · rw [hslots, ha] at hb
    rw [Option.some.inj hb]
    simp [Errand.holders, hholds]
  · exact (h.noted m b x (hopen hb) hx).imp (by rw [hgraph]; exact id)
      (And.imp_right fun hr => hsame.recorded m b (hopen hb) hr)

/-- A document that is not behind has its imports recorded. -/
theorem recorded_of_not_dirty (h : s.InHand ledger es) (ho : s.IsOpen n slot) (hd : ¬ slot.Dirty) :
    s.Recorded slot := by
  obtain ⟨x, hx, hsym⟩ : ∃ x, slot.published? = some x ∧
      x.table.symbols = (SymbolTable.ofText slot.latest.text).symbols := by
    simpa [Slot.Dirty] using hd
  rcases h.noted n slot x ho hx with hn | ⟨-, hr⟩
  · have htable := (h.orderly n slot ho).table x hx
    rw [htable] at hsym
    rw [Recorded, hn, htable]
    exact (SymbolTable.alike_ofText hsym).importNames
  · exact hr

end InHand

/-- The state once the imports of the document have been recorded. -/
def enterImports (s : Session) (id : String) (grammars : List String) : Session :=
  { s with graph := s.graph.setImports id grammars }

theorem recorded_enterImports_self (s : Session) (slot : Slot) :
    (s.enterImports slot.id (SymbolTable.ofText slot.latest.text).importNames).Recorded slot :=
  ImportGraph.importsOf_setImports_self _ _

theorem passes_enterImports (hu : s.Unique) (ho : s.IsOpen n slot) :
    Passes none [] s (s.enterImports slot.id (SymbolTable.ofText slot.latest.text).importNames) := by
  refine .of_slots_eq ⟨rfl, rfl, rfl, rfl, rfl, fun m a ha hr => ?_⟩ rfl
  by_cases hid : a.id = slot.id
  · obtain rfl := hu ha ho hid
    rw [ha.eq ho]
    exact s.recorded_enterImports_self slot
  · rw [Recorded, enterImports, ImportGraph.importsOf_setImports_of_ne hid]
    exact hr

/-- Without questions, nothing has been answered wrong. -/
theorem faithful_firstKnown (ho : s.IsOpen n slot) (hr : s.Recorded slot) :
    s.Faithful slot.id (firstKnown s.settings (.ofText slot.latest.text)) := by
  intro g t? hk
  rw [firstKnown] at hk
  split at hk
  · cases hk
  · rename_i hres
    have hg : g ∈ (SymbolTable.ofText slot.latest.text).importNames := by
      rw [← Resolution.map_fst_closedBook]
      exact List.mem_map_of_mem hk
    obtain rfl : t? = none := Resolution.snd_of_mem_closedBook hk
    refine ⟨.direct ho hr hg, ?_, nofun⟩
    rw [actual?, if_neg hres]
    exact .none

theorem supplied_firstKnown {settings : Settings} {own t : SymbolTable}
    (h : (g, some t) ∈ firstKnown settings own) : False := by
  rw [firstKnown] at h
  split at h
  · cases h
  · cases Resolution.snd_of_mem_closedBook h

theorem InHand.record (h : s.InHand ledger (e :: es)) (hs : e.stage = .record run)
    (ho : s.IsOpen e.slot slot) :
    (s.enterImports slot.id (run.table.imports.map Import.grammar)).InHand ledger
      ({ e with stage := .resolve run } :: es) := by
  obtain ⟨slot', ho', hfits⟩ := h.carries e (.head _)
  obtain rfl := ho'.eq ho
  simp only [Fits, hs] at hfits
  obtain ⟨hreads, hknown⟩ := hfits
  have htable : run.table.imports.map Import.grammar =
      (SymbolTable.ofText slot'.latest.text).importNames := by rw [hreads.table]; rfl
  rw [htable]
  have hp := passes_enterImports h.coherent.unique ho
  have hrec := s.recorded_enterImports_self slot'
  have ho₁ : (s.enterImports slot'.id (SymbolTable.ofText slot'.latest.text).importNames).IsOpen
      e.slot slot' := ⟨ho.get, ho.opened⟩
  have hwarn : ∀ id, s.Warns id e → (s.enterImports slot'.id
      (SymbolTable.ofText slot'.latest.text).importNames).Warns id { e with stage := .resolve run } :=
    fun id hw => hp.warns (fun _ hn => by cases hn)
      (hw.restage (by simp [hs]) (by simp [hs, Stage.changed]) (fun _ => rfl))
  show (s.enterImports slot'.id (SymbolTable.ofText slot'.latest.text).importNames).InHand ledger
    ([{ e with stage := .resolve run }] ++ es)
  refine h.passes hp (fun _ _ _ hn => by cases hn)
    ⟨h.quiet.scripts, h.quiet.hooks⟩ (ImportGraph.distinct_setImports h.coherent.distinct _ _)
    (fun ha hb => ?_) (fun m a b ha hb => ?_) (fun m b x hb hx => ?_)
    (fun id hw => .inl ⟨_, List.mem_singleton_self _, hwarn id hw⟩) fun o hmem => ?_
  · rw [Option.some.inj (ha.symm.trans hb)]
  · rw [Option.some.inj (ha.symm.trans hb)]
    simp [Errand.holders, hs, Stage.holds]
  · have hb' : s.IsOpen m b := ⟨hb.get, hb.opened⟩
    by_cases hid : b.id = slot'.id
    · obtain rfl := h.coherent.unique hb' ho hid
      obtain rfl := hb'.eq ho
      exact .inr ⟨h.inFlight_of_holds (by rw [hs]; rfl) ho, hrec⟩
    · rw [enterImports, ImportGraph.importsOf_setImports_of_ne hid]
      exact (h.noted m b x hb' hx).imp_right (And.imp_right (hp.recorded m b hb'))
  · rw [List.mem_singleton.1 hmem]
    have hread := hp.reads ho ho₁ (Option.some_ne_none _).symm (h.orderly _ _ ho) hreads
    refine ⟨slot', ho₁, ⟨hread, hrec, ?_, fun g t hk => ?_, .inr (.inr ?_)⟩⟩
    · rw [hknown]
      exact .start
    · rw [hknown] at hk
      exact (supplied_firstKnown hk).elim
    · rw [hknown, hreads.table]
      exact faithful_firstKnown ho₁ hrec

/-! ## Answers -/

theorem actual?_of_source? (hres : s.settings.resolveImports = true) (hm : s.source? id g = some m)
    (ho : s.IsOpen m b) : s.actual? id g = some (.ofText b.latest.text) := by
  rw [actual?, if_pos hres, hm]
  simp only [ho.get, Option.map_some]

theorem actual?_of_no_source (hh : s.host? = none) (hm : s.source? id g = none) :
    s.actual? id g = none := by
  rw [actual?, hm, hostTable?, hh]
  exact ite_self none

namespace Traces

theorem resolveImports (h : s.Traces es n slot run)
    (hg : Resolution.attempt run.known run.grammar.tree run.table s.settings.warnUnresolved =
      .error g) : s.settings.resolveImports = true := by
  by_contra hno
  have hasked := h.asked
  rw [firstKnown, if_neg hno] at hasked
  obtain ⟨r, hr⟩ := Resolution.attempt_closedBook run.grammar.tree run.table
    s.settings.warnUnresolved
  rw [hasked.eq_closedBook, hr] at hg
  cases hg

/-- As long as the answers are right, the graph knows the way to all that is named. -/
theorem linked (h : s.Traces es n slot run) (hc : s.Coherent) (hh : s.host? = none)
    (ho : s.IsOpen n slot) (hf : s.Faithful slot.id run.known) (hg : run.known.Names run.table g)
    (hres : s.settings.resolveImports = true) : s.Linked slot.id g := by
  rcases hg with hg | ⟨e, t, hk, hg⟩
  · rw [h.table] at hg
    exact .direct ho h.recorded hg
  · obtain ⟨hl, ha, hr⟩ := hf e (some t) hk
    cases hm : s.source? slot.id e with
    | none =>
      rw [actual?_of_no_source hh hm] at ha
      cases ha
    | some m =>
      obtain ⟨b, hb, -, hp, -⟩ := hc.isOpen_of_source? hm
      rw [actual?_of_source? hres hm hb] at ha
      cases ha with
      | some ha =>
        refine hl.snoc hb (hr m b hm hb rfl) (hc.mirrors.declared_of_provider? hp) ?_
        rw [← ha.importNames]
        exact hg

theorem learn (h : s.Traces es n slot run) (hc : s.Coherent) (hh : s.host? = none)
    (ho : s.IsOpen n slot)
    (hg : Resolution.attempt run.known run.grammar.tree run.table s.settings.warnUnresolved =
      .error g) {t? : Option SymbolTable}
    (hsource : ∀ t, t? = some t → (s.source? slot.id g).isSome = true)
    (hanswer : s.Linked slot.id g → s.Warned es slot.id ∨ AlikeAnswers t? (s.actual? slot.id g) ∧
      ∀ m b, s.source? slot.id g = some m → s.IsOpen m b → s.Recorded b) :
    s.Traces es n slot (run.learn g t?) := by
  refine ⟨⟨h.place, h.snapshot, h.grammar, h.table, h.epoch, h.stale⟩, h.recorded, .ask h.asked hg,
    fun e t hk => ?_, ?_⟩
  · rcases List.mem_append.1 hk with hk | hk
    · exact h.supplied e t hk
    · obtain ⟨rfl, ht⟩ : e = g ∧ some t = t? := by simpa using hk
      exact hsource t ht.symm
  · rcases h.answers with hlt | hw | hf
    · exact .inl hlt
    · exact .inr (.inl hw)
    · have hl := h.linked hc hh ho hf (Resolution.attempt_error hg).2 (h.resolveImports hg)
      rcases hanswer hl with hw | ⟨ha, hr⟩
      · exact .inr (.inl hw)
      · refine .inr (.inr fun e t?' hk => ?_)
        rcases List.mem_append.1 hk with hk | hk
        · exact hf e t?' hk
        · obtain ⟨rfl, rfl⟩ : e = g ∧ t?' = t? := by simpa using hk
          exact ⟨hl, ha, fun m b hm hb _ => hr m b hm hb⟩

end Traces

/-- What is published for a document that is not behind is as good as its latest table. -/
theorem alike_of_not_dirty (horderly : b.Orderly) (hd : ¬ b.Dirty) :
    AlikeAnswers (b.published?.map Analysis.table) (some (.ofText b.latest.text)) := by
  obtain ⟨x, hx, hsym⟩ : ∃ x, b.published? = some x ∧
      x.table.symbols = (SymbolTable.ofText b.latest.text).symbols := by
    simpa [Slot.Dirty] using hd
  rw [hx, Option.map_some]
  rw [horderly.table x hx] at hsym ⊢
  exact .some (SymbolTable.alike_ofText hsym)

/-- The table of a document that is behind, and in flight on another errand, will be replaced. -/
theorem InHand.warned_of_dirty (h : s.InHand ledger (e :: es)) (hl : s.Linked slot.id g)
    (ho : s.IsOpen e.slot slot) (hm : s.source? slot.id g = some m) (hb : s.IsOpen m b)
    (hd : b.Dirty) (hf : b.inFlight = true)
    (hreq : ∀ o ∈ es, o.requester? ≠ some slot.id) : s.Warned (e :: es) slot.id := by
  obtain ⟨c, hc, hne, -, hg⟩ := h.coherent.isOpen_of_source? hm
  obtain rfl := hc.eq hb
  have hpos : 0 < Errand.holders (e :: es) m := by
    rw [h.held m c hb.get, hf]
    decide
  obtain ⟨o, hmem, hho⟩ := List.countP_pos_iff.1 hpos
  obtain ⟨rfl, hh⟩ : o.slot = m ∧ o.stage.holds = true := by simpa using hho
  refine ⟨o, hmem, .news hb hg hl (Ne.symm hne) (fun hr => ?_) (.inr ⟨hh, hd⟩)⟩
  rcases List.mem_cons.1 hmem with rfl | hmem
  · exact hne (congrArg Slot.id (hb.eq ho))
  · exact hreq o hmem hr

theorem InHand.takeTable (h : s.InHand ledger (e :: es)) (hs : e.stage = .takeTable run g m)
    (hreq : ∀ slot, s.IsOpen e.slot slot → ∀ o ∈ es, o.requester? ≠ some slot.id) :
    s.InHand ledger
      ({ e with stage := .resolve (run.learn g ((s.slots[m]?.bind Slot.published?).map Analysis.table)) }
        :: es) := by
  refine h.restage (.refl s) rfl rfl h.quiet
    (fun _ hw => hw.restage (by simp [hs]) (by simp [hs, Stage.changed, Run.learn]) (fun _ => rfl))
    (by simp [hs, Stage.holds]) fun slot ho hf hkeep => ?_
  simp only [Fits, hs] at hf ⊢
  obtain ⟨ht, hasks, hsettled⟩ := hf
  obtain ⟨b, hb, -⟩ := h.coherent.isOpen_of_source? hasks.source
  have hres := ht.resolveImports hasks.attempt
  refine hkeep _ (ht.learn h.coherent h.host ho hasks.attempt (fun _ _ => by rw [hasks.source]; rfl)
    fun hl => ?_)
  by_cases hd : b.Dirty
  · exact .inl (h.warned_of_dirty hl ho hasks.source hb hd ((hsettled b hb).resolve_right (not_not.2 hd))
      (hreq slot ho))
  · refine .inr ⟨?_, fun k c hk hc => ?_⟩
    · rw [actual?_of_source? hres hasks.source hb, hb.get, Option.bind_some]
      exact alike_of_not_dirty (h.orderly m b hb) hd
    · obtain rfl := Option.some.inj (hasks.source.symm.trans hk)
      obtain rfl := hb.eq hc
      exact h.recorded_of_not_dirty hb hd

/-- An import that no other document provides is unknown. -/
theorem InHand.learnNone (h : s.InHand ledger (e :: es)) (hs : e.stage = .resolve run)
    (ho : s.IsOpen e.slot slot)
    (hg : Resolution.attempt run.known run.grammar.tree run.table s.settings.warnUnresolved =
      .error g) (hm : s.source? slot.id g = none) :
    s.InHand ledger ({ e with stage := .resolve (run.learn g none) } :: es) := by
  refine h.restage (.refl s) rfl rfl h.quiet
    (fun _ hw => hw.restage (by simp [hs]) (by simp [hs, Stage.changed, Run.learn]) (fun _ => rfl))
    (by simp [hs, Stage.holds]) fun slot' ho' hf hkeep => ?_
  obtain rfl := ho'.eq ho
  simp only [Fits, hs] at hf ⊢
  refine hkeep _ (hf.learn h.coherent h.host ho hg (fun _ ht => by cases ht) fun _ =>
    .inr ⟨?_, fun k c hk => ?_⟩)
  · rw [actual?_of_no_source h.host hm]
    exact .none
  · rw [hm] at hk
    cases hk

/-- The state once a worker has taken slot `n` up. -/
def hold (s : Session) (n : Nat) : Session :=
  { s.modifySlot n ({ · with inFlight := true }) with parses := s.parses + 1 }

theorem known_readSlot (s : Session) (n : Nat) (slot : Slot) (requester? : Option String)
    (changed : Bool) :
    (s.readSlot n slot requester? changed).2.known =
      firstKnown s.settings (.ofText slot.latest.text) := by
  rw [SymbolTable.ofText_eq]
  rfl

theorem reads_readSlot (hf : slot.isFresh = false) (requester? : Option String) (changed : Bool) :
    s.Reads n slot (s.readSlot n slot requester? changed).2 :=
  ⟨rfl, rfl, rfl, (SymbolTable.ofText_eq _).symm, le_rfl, hf⟩

theorem not_dirty_of_isFresh (horderly : slot.Orderly) (hf : slot.isFresh = true) : ¬ slot.Dirty := by
  obtain ⟨x, hx, hl, -⟩ := Slot.isFresh_iff.1 hf
  refine fun hd => hd x hx ?_
  rw [horderly.table x hx, hl]

theorem getElem?_hold (ho : s.IsOpen n slot) :
    (s.hold n).slots[m]? = some b ↔
      m = n ∧ b = { slot with inFlight := true } ∨ m ≠ n ∧ s.slots[m]? = some b :=
  getElem?_modifySlot_eq_some ho.get _

theorem passes_hold (ho : s.IsOpen n slot) : Passes (some n) [] s (s.hold n) := by
  have hp : Passes (some n) [] s (s.modifySlot n ({ · with inFlight := true })) :=
    passes_modifySlot (fun _ => rfl) (fun _ => rfl) ho (fun hc => hc) (fun _ => .inl rfl)
  exact ⟨⟨hp.tags, rfl, rfl, rfl, rfl, fun _ _ _ hr => hr⟩, hp.epoch, hp.informed, hp.kept, hp.clean,
    hp.settled⟩

namespace InHand

theorem holders_eq_zero (h : s.InHand ledger es) (ho : s.IsOpen n slot) (hf : slot.inFlight = false) :
    ∀ o ∈ es, o.stage.holds = true → some n ≠ some o.slot := by
  intro o hmem hh heq
  have hpos : 0 < Errand.holders es n :=
    List.countP_pos_iff.2 ⟨o, hmem, by simp [← Option.some.inj heq, hh]⟩
  rw [h.held _ _ ho.get, hf] at hpos
  exact absurd hpos (by decide)

theorem takeUp (h : s.InHand ledger (e :: es)) (hs : e.stage = .claim ∨ e.stage = .wait)
    (ho : s.IsOpen e.slot slot) (hfresh : slot.isFresh = false) (hf : slot.inFlight = false) :
    (s.hold e.slot).InHand ledger
      ({ e with stage := .extract (s.readSlot e.slot slot e.requester? false).2 } :: es) := by
  have hidle : e.stage.holds = false := by rcases hs with hs | hs <;> rw [hs] <;> rfl
  have hwarn : ∀ id, ¬ s.Warns id e := by
    rintro id (⟨-, -, -, -, -, hnews⟩ | ⟨hl, -⟩) <;> rcases hs with hs | hs
    · simp [hs, Stage.changed, Stage.holds] at hnews
    · simp [hs, Stage.changed, Stage.holds] at hnews
    · simp [hs] at hl
    · simp [hs] at hl
  show (s.hold e.slot).InHand ledger ([_] ++ es)
  refine h.passes (passes_hold ho) (fun o hmem => h.holders_eq_zero ho hf o (.tail _ hmem))
    ⟨h.quiet.scripts, h.quiet.hooks⟩
    h.coherent.distinct (fun {m a b} ha hb => ?_) (fun m a b ha hb => ?_) (fun m b x hb hx => ?_)
    (fun id hw => absurd hw (hwarn id)) fun o hmem => ?_
  · rcases (getElem?_hold ho).1 hb with ⟨rfl, rfl⟩ | ⟨-, hb⟩
    · rw [Option.some.inj (ha.symm.trans ho.get)]
    · rw [Option.some.inj (ha.symm.trans hb)]
  · rcases (getElem?_hold ho).1 hb with ⟨rfl, rfl⟩ | ⟨hm, hb⟩
    · have hnone : Errand.holders [e] e.slot = 0 := by simp [Errand.holders, hidle]
      rw [Option.some.inj (ha.symm.trans ho.get), hf, hnone]
      simp [Errand.holders, Stage.holds]
    · rw [Option.some.inj (ha.symm.trans hb)]
      simp [Errand.holders, Ne.symm hm]
  · rcases (getElem?_hold ho).1 hb.get with ⟨rfl, rfl⟩ | ⟨-, hb'⟩
    · refine (h.noted _ slot x ho hx).imp (fun hn => hn) fun hr => ?_
      rw [hf] at hr
      cases hr.1
    · exact h.noted m b x ⟨hb', hb.opened⟩ hx
  · rw [List.mem_singleton.1 hmem]
    refine ⟨{ slot with inFlight := true }, ⟨(getElem?_hold ho).2 (.inl ⟨rfl, rfl⟩), ho.opened⟩, ?_⟩
    have hr : s.Reads e.slot slot (s.readSlot e.slot slot e.requester? false).2 :=
      reads_readSlot hfresh _ _
    refine ⟨⟨hr.place, hr.snapshot, hr.grammar, hr.table, hr.epoch, hfresh⟩, ?_⟩
    rw [hr.table]
    exact known_readSlot s e.slot slot e.requester? false

theorem beginAgain {changed : Bool} (h : s.InHand ledger (e :: es)) (hs : e.stage = .reread changed)
    (ho : s.IsOpen e.slot slot) (hfresh : slot.isFresh = false) :
    { s with parses := s.parses + 1 }.InHand ledger
      ({ e with stage := .extract (s.readSlot e.slot slot e.requester? changed).2 } :: es) := by
  have hsame : SameDocuments s { s with parses := s.parses + 1 } :=
    ⟨rfl, rfl, rfl, rfl, rfl, fun _ _ _ hr => hr⟩
  refine h.restage hsame rfl rfl ⟨h.quiet.scripts, h.quiet.hooks⟩
    (fun _ hw => hw.restage (by simp [hs]) (by simp [hs, Stage.changed, readSlot]) (fun _ => rfl))
    (by simp [hs, Stage.holds]) fun slot' ho' _ _ => ?_
  obtain rfl : slot = slot' := Option.some.inj (ho.get.symm.trans ho'.get)
  have hr : s.Reads e.slot slot (s.readSlot e.slot slot e.requester? changed).2 := reads_readSlot hfresh _ _
  refine ⟨⟨hr.place, hr.snapshot, hr.grammar, hr.table, hr.epoch, hfresh⟩, ?_⟩
  rw [hr.table]
  exact known_readSlot s e.slot slot e.requester? changed

end InHand

/-! ## Publishing -/

namespace Traces

theorem resolveImports_of_mem (h : s.Traces es n slot run) {t : SymbolTable}
    (hk : (g, some t) ∈ run.known) : s.settings.resolveImports = true := by
  by_contra hno
  have hasked := h.asked
  rw [firstKnown, if_neg hno] at hasked
  rw [hasked.eq_closedBook] at hk
  cases Resolution.snd_of_mem_closedBook hk

theorem genuine (h : s.Traces es n slot run)
    (hr : Resolution.attempt run.known run.grammar.tree run.table s.settings.warnUnresolved = .ok r) :
    (run.publication slot s.graph r).Genuine s.settings s.host? := by
  have htext : (run.publication slot s.graph r).analysis.snapshot.text = slot.latest.text :=
    congrArg Snapshot.text h.snapshot
  have htable := h.table
  have hgrammar := h.grammar
  refine ⟨?_, ⟨r, ?_, ?_⟩, fun g t hk => .inl ?_⟩
  · rw [htext, ← htable, ← hgrammar]; exact h.asked
  · rw [htext, ← htable, ← hgrammar]; exact hr
  · rw [htext, ← htable, ← hgrammar]; rfl
  · obtain ⟨m, hm⟩ := Option.isSome_iff_exists.1 (h.supplied g t hk)
    obtain ⟨d, hd, -⟩ := Option.bind_eq_some_iff.1 hm
    exact Option.isSome_iff_exists.2 ⟨d, hd⟩

/-- With right answers, the analysis is backed. -/
theorem backed (h : s.Traces es n slot run) (hc : s.Coherent) (hh : s.host? = none)
    (ho : s.IsOpen n slot) (hf : s.Faithful slot.id run.known) :
    s.Backed (run.publication slot s.graph r) := by
  have hown : ∀ {g}, g ∈ (run.publication slot s.graph r).analysis.table.importNames →
      s.Linked slot.id g := by
    intro g hg
    have htable : run.table = .ofText slot.latest.text := h.table
    refine .direct ho h.recorded ?_
    rw [← htable]
    exact hg
  refine ⟨fun g hg => ?_, fun _ _ => rfl, fun g t? _ hk => (hf g t? hk).2.1⟩
  cases hg with
  | own hg => exact hown hg
  | step _ _ hk hg =>
    exact h.linked hc hh ho hf (.inr ⟨_, _, hk, hg⟩) (h.resolveImports_of_mem hk)

end Traces

theorem showsChange_of_dirty {an : Analysis} (hd : slot.Dirty)
    (han : an.table = .ofText slot.latest.text) : slot.showsChange an = true := by
  rw [Slot.showsChange]
  split
  · rename_i a ha
    have := hd a ha
    rw [← han] at this
    simp [Analysis.sameView, this]
  · rfl

theorem InHand.publish (h : s.InHand ledger (e :: es)) (hs : e.stage = .publish run r)
    (ho : s.IsOpen e.slot slot) :
    (s.modifySlot e.slot (·.publish (run.analysis r))).InHand
      (ledger ++ [run.publication slot s.graph r])
      ({ e with stage := .reread (run.changed || slot.showsChange (run.analysis r)) } :: es) := by
  obtain ⟨slot', ho', hfits⟩ := h.carries e (.head _)
  obtain rfl := ho'.eq ho
  simp only [Fits, hs] at hfits
  obtain ⟨ht, hr⟩ := hfits
  have hfree := h.ne_of_holds (by rw [hs]; rfl)
  have hflight := h.inFlight_of_holds (by rw [hs]; rfl) ho
  have hclean : ¬ (slot'.publish (run.analysis r)).Dirty := fun hd =>
    hd _ rfl (congrArg SymbolTable.symbols ht.table)
  have hp : Passes (some e.slot) [] s (s.modifySlot e.slot (·.publish (run.analysis r))) :=
    passes_modifySlot (fun _ => rfl) (fun _ => rfl) ho (fun _ => hclean) (fun _ => .inr hclean)
  have hopen : ∀ {m b}, (s.modifySlot e.slot (·.publish (run.analysis r))).IsOpen m b →
      m = e.slot ∧ b = slot'.publish (run.analysis r) ∨ m ≠ e.slot ∧ s.IsOpen m b := fun hb =>
    ((getElem?_modifySlot_eq_some ho.get _).1 hb.get).imp id (And.imp_right fun hg => ⟨hg, hb.opened⟩)
  have hlast : Publication.last? (ledger ++ [run.publication slot' s.graph r]) e.slot =
      some (run.publication slot' s.graph r) := by
    rw [← ht.place]
    exact Publication.last?_append_of_eq (p := run.publication slot' s.graph r)
  have hlast' : ∀ m, m ≠ e.slot → Publication.last? (ledger ++ [run.publication slot' s.graph r]) m =
      Publication.last? ledger m := fun m hm =>
    Publication.last?_append_of_ne (p := run.publication slot' s.graph r)
      (Ne.symm (hm.trans_eq ht.place.symm))
  -- If the errand has something to warn of, the publication shows a change.
  have hwarn : ∀ id, s.Warns id e → (s.modifySlot e.slot (·.publish (run.analysis r))).Warned
      [{ e with stage := .reread (run.changed || slot'.showsChange (run.analysis r)) }] id ∨
        id ∈ ([] : List String) := by
    refine fun id hw => .inl ⟨_, List.mem_singleton_self _, ?_⟩
    cases hw with
    | @news b g hb hg hl hne hreq hnews =>
      obtain rfl := hb.eq ho
      have ho' : (s.modifySlot e.slot (·.publish (run.analysis r))).IsOpen e.slot
          (b.publish (run.analysis r)) :=
        ⟨(getElem?_modifySlot_eq_some ho.get _).2 (.inl ⟨rfl, rfl⟩), ho.opened⟩
      refine .news ho' hg (hp.linked hl) hne hreq (.inl ?_)
      show (run.changed || b.showsChange (run.analysis r)) = true
      rw [Bool.or_eq_true]
      refine hnews.imp (fun hc => ?_) fun hd => showsChange_of_dirty hd.2 ht.table
      simpa [hs, Stage.changed] using hc
    | listed hl => simp [hs] at hl
  refine ⟨hp.coherent h.coherent h.coherent.distinct, ⟨h.quiet.scripts, h.quiet.hooks⟩, h.host,
    fun m b hb => ?_, fun m b hb => ?_, fun m b x hb hx => ?_, fun m b x hb hx => ?_, fun o hmem => ?_,
    fun m b p hb hf hl => ?_⟩
  · rcases hopen hb with ⟨rfl, rfl⟩ | ⟨-, hb⟩
    · refine ⟨?_, ?_, ?_, ?_⟩ <;> rintro _ ⟨⟩
      · exact (congrArg Snapshot.version ht.snapshot).le
      · exact fun _ => ht.snapshot
      · exact ht.epoch
      · exact ht.table.trans (by rw [← congrArg Snapshot.text ht.snapshot]; rfl)
    · exact h.orderly m b hb
  · have hheld : ∀ {m : Nat} {a : Slot}, s.slots[m]? = some a →
        Errand.holders ({ e with stage := .reread (run.changed || slot'.showsChange (run.analysis r)) }
          :: es) m = a.inFlight.toNat := by
      intro m a ha
      rw [← h.held m a ha, Errand.holders, Errand.holders, List.countP_cons, List.countP_cons]
      simp [hs, Stage.holds]
    rcases (getElem?_modifySlot_eq_some ho.get _).1 hb with ⟨rfl, rfl⟩ | ⟨-, hb⟩
    · show _ = slot'.inFlight.toNat
      exact hheld ho.get
    · exact hheld hb
  · rcases hopen hb with ⟨rfl, rfl⟩ | ⟨-, hb⟩
    · exact .inr ⟨hflight, ht.recorded⟩
    · exact h.noted m b x hb hx
  · rcases hopen hb with ⟨rfl, rfl⟩ | ⟨hm, hb⟩
    · cases hx
      exact ⟨_, hlast, rfl, rfl, ht.genuine hr⟩
    · rw [hlast' m hm]
      exact h.published m b x hb hx
  · rcases List.mem_cons.1 hmem with rfl | hmem
    · exact ⟨slot'.publish (run.analysis r),
        ⟨(getElem?_modifySlot_eq_some ho.get _).2 (.inl ⟨rfl, rfl⟩), ho.opened⟩, trivial⟩
    · obtain ⟨a, ha, hfa⟩ := h.carries o (.tail _ hmem)
      obtain ⟨b, hb, -⟩ := hp.isOpen ha
      exact ⟨b, hb, hp.fits ha hb (hfree o hmem) rfl (h.orderly _ _ ha)
        (hp.warned_of_cons hfree hwarn) hfa⟩
  · rcases hopen hb with ⟨rfl, rfl⟩ | ⟨hm, hb⟩
    · obtain rfl := Option.some.inj (hl.symm.trans hlast)
      obtain ⟨x, ⟨⟩, -, hxe⟩ := Slot.isFresh_iff.1 hf
      have hxe : run.epoch = slot'.epoch := hxe
      rcases ht.answers with hlt | hw | hfaithful
      · omega
      · refine .inl ?_
        exact (hp.warned_of_cons hfree hwarn hw).resolve_right List.not_mem_nil
      · exact .inr (hp.backed (ht.backed h.coherent h.host ho hfaithful))
    · rw [hlast' m hm] at hl
      refine (h.backed m b p hb hf hl).imp (fun hw => ?_) hp.backed
      exact (hp.warned_of_cons hfree hwarn hw).resolve_right List.not_mem_nil

/-- The state once slot `n` has been let go. -/
def letGo (s : Session) (n : Nat) : Session := s.modifySlot n ({ · with inFlight := false })

theorem getElem?_letGo (ho : s.IsOpen n slot) :
    (s.letGo n).slots[m]? = some b ↔
      m = n ∧ b = { slot with inFlight := false } ∨ m ≠ n ∧ s.slots[m]? = some b :=
  getElem?_modifySlot_eq_some ho.get _

theorem passes_letGo (ho : s.IsOpen n slot) (hd : ¬ slot.Dirty) : Passes (some n) [] s (s.letGo n) :=
  passes_modifySlot (fun _ => rfl) (fun _ => rfl) ho (fun _ => hd) (fun _ => .inr hd)

namespace InHand

/-- A slot is let go as fresh. What is left to do on the errand, if anything, has the warnings. -/
theorem letGo {changed : Bool} (h : s.InHand ledger (e :: es)) (new : List Errand)
    (hs : e.stage = .reread changed) (ho : s.IsOpen e.slot slot) (hfresh : slot.isFresh = true)
    (hholds : Errand.holders new = fun _ => 0)
    (hwarn : changed = true → ∀ id, s.Warns id e → (s.letGo e.slot).Warned new id)
    (hnew : ∀ o ∈ new, (s.letGo e.slot).Carries (new ++ es) o) :
    (s.letGo e.slot).InHand ledger (new ++ es) := by
  have hd := not_dirty_of_isFresh (h.orderly _ _ ho) hfresh
  have hflight := h.inFlight_of_holds (by rw [hs]; rfl) ho
  refine h.passes (passes_letGo ho hd) (h.ne_of_holds (by rw [hs]; rfl))
    ⟨h.quiet.scripts, h.quiet.hooks⟩ h.coherent.distinct (fun {m a b} ha hb => ?_) (fun m a b ha hb => ?_)
    (fun m b x hb hx => ?_) (fun id hw => .inl (hwarn ?_ id hw)) hnew
  · rcases (getElem?_letGo ho).1 hb with ⟨rfl, rfl⟩ | ⟨-, hb⟩
    · rw [Option.some.inj (ha.symm.trans ho.get)]
    · rw [Option.some.inj (ha.symm.trans hb)]
  · rw [hholds]
    rcases (getElem?_letGo ho).1 hb with ⟨rfl, rfl⟩ | ⟨hm, hb⟩
    · have hone : Errand.holders [e] e.slot = 1 := by simp [Errand.holders, hs, Stage.holds]
      rw [Option.some.inj (ha.symm.trans ho.get), hflight, hone]
      rfl
    · have hnone : Errand.holders [e] m = 0 := by simp [Errand.holders, Ne.symm hm]
      rw [Option.some.inj (ha.symm.trans hb), hnone]
  · rcases (getElem?_letGo ho).1 hb.get with ⟨rfl, rfl⟩ | ⟨-, hb'⟩
    · -- The analysis is of the latest text, whose imports are recorded.
      obtain ⟨y, hy, hyl, -⟩ := Slot.isFresh_iff.1 hfresh
      obtain rfl : y = x := Option.some.inj (hy.symm.trans hx)
      refine .inl ((h.noted _ slot y ho hy).elim id fun hr => ?_)
      rw [(h.orderly _ slot ho).table y hy, hyl]
      exact hr.2
    · exact h.noted m b x ⟨hb', hb.opened⟩ hx
  · cases hw with
    | news ho' _ _ _ _ hnews =>
      obtain rfl := ho'.eq ho
      rcases hnews with hc | ⟨-, hdirty⟩
      · simpa [hs, Stage.changed] using hc
      · exact absurd hdirty hd
    | listed hl => simp [hs] at hl

theorem reports (h : s.InHand ledger es) (ho : s.IsOpen n slot) {x : Analysis}
    (hx : slot.published? = some x) (hl : x.snapshot = slot.latest) : s.Reports slot x := by
  obtain ⟨p, -, hpx, -, hg⟩ := h.published n slot x ho hx
  exact ⟨hl, p, hpx, hg⟩

theorem current_eq_of_isFresh (hf : slot.isFresh = true) :
    slot.published? = some slot.current ∧ slot.current.snapshot = slot.latest := by
  obtain ⟨x, hx, hl, -⟩ := Slot.isFresh_iff.1 hf
  rw [Slot.current, hx]
  exact ⟨rfl, hl⟩

theorem answerFresh (h : s.InHand ledger (e :: es)) (hs : e.stage = .reread false)
    (ho : s.IsOpen e.slot slot) (hfresh : slot.isFresh = true) : (s.letGo e.slot).InHand ledger es :=
  h.letGo [] hs ho hfresh rfl nofun nofun

theorem informFresh (h : s.InHand ledger (e :: es)) (hs : e.stage = .reread true)
    (ho : s.IsOpen e.slot slot) (hfresh : slot.isFresh = true) :
    (s.letGo e.slot).InHand ledger ({ e with stage := .inform slot.current } :: es) := by
  have hd := not_dirty_of_isFresh (h.orderly _ _ ho) hfresh
  have hp := passes_letGo ho hd
  have ho' : (s.letGo e.slot).IsOpen e.slot { slot with inFlight := false } :=
    ⟨(getElem?_letGo ho).2 (.inl ⟨rfl, rfl⟩), ho.opened⟩
  refine h.letGo [_] hs ho hfresh (funext fun m => by simp [Errand.holders, Stage.holds])
    (fun _ id hw => ⟨_, List.mem_singleton_self _, ?_⟩) fun o hmem => ?_
  · cases hw with
    | news hb hg hl hne hreq _ =>
      obtain rfl := hb.eq ho
      exact .news ho' hg (hp.linked hl) hne hreq (.inl rfl)
    | listed hl => simp [hs] at hl
  · rw [List.mem_singleton.1 hmem]
    obtain ⟨hx, hl⟩ := current_eq_of_isFresh hfresh
    exact ⟨_, ho', hd, h.reports ho hx hl⟩

/-- Whoever is linked to the new view is on the list of those to be invalidated. -/
theorem inform {a : Analysis} {ids : List String} (h : s.InHand ledger (e :: es))
    (hs : e.stage = .inform a) (ho : s.IsOpen e.slot slot)
    (hids : ids = s.reached slot.id (s.graph.name? slot.id).toList e.requester?) :
    s.InHand ledger ({ e with stage := .invalidate ids a } :: es) := by
  subst hids
  refine h.restage (.refl s) rfl rfl h.quiet (fun id hw => .listed rfl ?_) (by rw [hs]; rfl)
    fun slot' ho' hf _ => ?_
  · cases hw with
    | news hb hg hl hne hreq _ =>
      obtain rfl := ho.eq hb
      have hc := h.coherent
      have hname := (hc.mirrors.name slot.id).trans ((hc.unique.declared ho).trans hg)
      obtain ⟨k, c, hck, rfl⟩ := hl.exists_isOpen
      rw [mem_reached hc.distinct, hname]
      refine ⟨?_, hreq, k, hc.unique.slotOf? hck⟩
      refine hl.draws (fun _ _ => rfl) (fun d _ => hc.mirrors.name d) (fun e he => ?_) (by simp) hne
      rw [← hc.mirrors.name, hname] at he
      simpa using he.symm
    | listed hl => simp [hs] at hl
  · simpa only [Fits, hs] using hf

theorem invalidate {a : Analysis} {ids : List String} (h : s.InHand ledger (e :: es))
    (hs : e.stage = .invalidate (id :: ids) a) :
    (s.bump [id]).InHand ledger ({ e with stage := .invalidate ids a } :: es) := by
  have hp := s.passes_bump [id]
  have heq : ∀ {m b}, (s.bump [id]).IsOpen m b → ∃ a, s.IsOpen m a ∧ b = a.bump [id] := fun hb =>
    hb.of_bump
  show (s.bump [id]).InHand ledger ([_] ++ es)
  refine h.passes hp (fun _ _ _ => nofun) ⟨h.quiet.scripts, h.quiet.hooks⟩ h.coherent.distinct
    (fun {m a b} ha hb => ?_) (fun m a b ha hb => ?_) (fun m b x hb hx => ?_) (fun id' hw => ?_)
    fun o hmem => ?_
  · rw [bump, List.getElem?_map, ha] at hb
    rw [← Option.some.inj hb, Slot.published?_bump]
  · rw [bump, List.getElem?_map, ha] at hb
    rw [← Option.some.inj hb, Slot.inFlight_bump]
    simp [Errand.holders, hs, Stage.holds]
  · obtain ⟨c, hc, rfl⟩ := heq hb
    rw [Slot.published?_bump] at hx
    rw [Slot.id_bump, Slot.inFlight_bump]
    exact (h.noted m c x hc hx).imp_right (And.imp_right fun hr => hr.of_tag (by simp [Slot.tag]))
  · cases hw with
    | news _ _ _ _ _ hnews => simp [hs, Stage.changed, Stage.holds] at hnews
    | listed hl hmem =>
      obtain ⟨rfl, -⟩ : id :: ids = _ ∧ a = _ := by simpa [hs] using hl
      rcases List.mem_cons.1 hmem with rfl | hmem
      · exact .inr (List.mem_singleton_self _)
      · exact .inl ⟨_, List.mem_singleton_self _, .listed rfl hmem⟩
  · rw [List.mem_singleton.1 hmem]
    obtain ⟨slot, ho, hf⟩ := h.carries e (.head _)
    obtain ⟨slot', ho', htag⟩ := hp.isOpen ho
    simp only [Fits, hs] at hf
    exact ⟨slot', ho', hp.clean ho.get ho'.get hf.1, hp.reports htag hf.2⟩

end InHand

end Session

end GrammarAtlas
