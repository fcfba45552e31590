import GrammarAtlas.Proofs.Upkeep

/-! # Replacing and dropping documents

What an operation does to the documents before any analysis: a text is replaced, or a document is
registered or dropped (`Session.Replaces`), and the documents that draw on its old name or its new
one are invalidated. A document that is still fresh after that draws on neither, so its analysis
rests on nothing that has changed: `Session.Sound.replace`. -/

namespace GrammarAtlas

namespace Session
variable {s s' : Session} {n m : Nat} {slot a b : Slot} {id d e g : String} {t? : Option String}
  {ledger : List Publication} {grammars : List String}

def AtRest (s : Session) : Prop := ∀ slot ∈ s.slots, slot.inFlight = false

theorem AtRest.isOpen (h : s.AtRest) (ho : s.IsOpen n slot) : slot.inFlight = false :=
  h slot (List.mem_of_getElem? ho.get)

theorem AtRest.not_pending (h : s.AtRest) : ¬ s.Pending id := by
  rintro ⟨m, slot, g, ho, hf, -⟩
  rw [h.isOpen ho] at hf
  cases hf

theorem slotOf?_eq_some_iff (hu : s.Unique) :
    s.slotOf? id = some n ↔ ∃ slot, s.IsOpen n slot ∧ slot.id = id := by
  refine ⟨isOpen_of_slotOf?, ?_⟩
  rintro ⟨slot, ho, rfl⟩
  exact hu.slotOf? ho

/-- In `s'`, the document `id` has another text than in `s`, or has come or gone: it has the text `t?`
now. -/
structure Exchanges (s s' : Session) (id : String) (t? : Option String) : Prop where
  unique : s'.Unique
  others : ∀ n slot, slot.id ≠ id → (s'.IsOpen n slot ↔ s.IsOpen n slot)
  text : s'.text? id = t?
  mirrors : s'.graph.Mirrors (Function.update s.declared id (t?.bind Grammar.sniffName?))
  distinct : s'.graph.imports.Distinct
  imports : ∀ d, d ≠ id → s'.graph.importsOf d = s.graph.importsOf d

namespace Exchanges
variable (h : Exchanges s s' id t?)
include h

theorem slotOf?_eq (hu : s.Unique) (hd : d ≠ id) : s'.slotOf? d = s.slotOf? d := by
  ext n
  rw [slotOf?_eq_some_iff h.unique, slotOf?_eq_some_iff hu]
  constructor <;> rintro ⟨slot, ho, rfl⟩
  · exact ⟨slot, (h.others n slot hd).1 ho, rfl⟩
  · exact ⟨slot, (h.others n slot hd).2 ho, rfl⟩

theorem text?_eq (hu : s.Unique) : s'.text? = Function.update s.text? id t? := by
  funext d
  by_cases hd : d = id
  · rw [hd, Function.update_self, h.text]
  · rw [Function.update_of_ne hd, Session.text?, Session.text?, h.slotOf?_eq hu hd]
    cases hn : s.slotOf? d with
    | none => rfl
    | some n =>
      obtain ⟨slot, ho, rfl⟩ := isOpen_of_slotOf? hn
      rw [Option.bind_some, Option.bind_some, ho.get, ((h.others n slot hd).2 ho).get]

theorem declared_eq (hu : s.Unique) :
    s'.declared = Function.update s.declared id (t?.bind Grammar.sniffName?) := by
  funext d
  rw [Session.declared, h.text?_eq hu]
  by_cases hd : d = id
  · rw [hd, Function.update_self, Function.update_self]
  · rw [Function.update_of_ne hd, Function.update_of_ne hd, Session.declared]

theorem declared_of_ne (hu : s.Unique) (hd : d ≠ id) : s'.declared d = s.declared d := by
  rw [h.declared_eq hu, Function.update_of_ne hd]

theorem coherent (hu : s.Unique) : s'.Coherent := by
  refine ⟨h.unique, ?_, h.distinct⟩
  rw [h.declared_eq hu]
  exact h.mirrors

theorem recorded (hr : s.Recorded slot) (hne : slot.id ≠ id) : s'.Recorded slot := by
  rw [Recorded, h.imports _ hne]
  exact hr

theorem provider?_eq (hc : s.Coherent) (hold : s.declared id ≠ some g) (hnew : t?.bind Grammar.sniffName? ≠ some g) :
    s'.graph.provider? g = s.graph.provider? g := by
  refine hc.mirrors.provider?_congr h.mirrors fun d => ?_
  by_cases hd : d = id
  · subst hd
    rw [Function.update_self]
    exact iff_of_false hnew hold
  · rw [Function.update_of_ne hd]

end Exchanges

/-- `Exchanges`, between two operations: nothing is under way, and `id` is not up to date now. -/
structure Replaces (s s' : Session) (id : String) (t? : Option String) : Prop
    extends Exchanges s s' id t? where
  orderly : ∀ n slot, s'.IsOpen n slot → slot.id = id → slot.Orderly
  outdated : ∀ n slot, s'.IsOpen n slot → slot.id = id → ¬ slot.IsCurrent
  atRest : s.AtRest → s'.AtRest
  published : ∀ n slot an, s'.IsOpen n slot → slot.published? = some an →
    ∃ slot', s.IsOpen n slot' ∧ slot'.id = slot.id ∧ slot'.published? = some an ∧
      s'.graph.importsOf slot.id = s.graph.importsOf slot.id
  settings : s'.settings = s.settings
  host : s'.host? = s.host?
  quiet : s'.Quiet

namespace Replaces
variable (h : Replaces s s' id t?)
include h

theorem actual?_eq (hc : s.Coherent) (hold : s.declared id ≠ some g) (hnew : t?.bind Grammar.sniffName? ≠ some g) :
    s'.actual? d g = s.actual? d g := by
  have hsource : s'.source? d g = s.source? d g := by
    rw [Session.source?, Session.source?, h.provider?_eq hc hold hnew]
    cases hp : (s.graph.provider? g).filter (· != d) with
    | none => rfl
    | some e =>
      refine h.slotOf?_eq hc.unique ?_
      rintro rfl
      exact hold (hc.mirrors.declared_of_provider? (Option.filter_eq_some_iff.1 hp).1)
  have hhost : s'.hostTable? g = s.hostTable? g := by rw [Session.hostTable?, h.host, Session.hostTable?]
  rw [Session.actual?, Session.actual?, h.settings, hsource, hhost]
  cases hm : s.source? d g with
  | none => rfl
  | some m =>
    obtain ⟨a, ha, -, hp, -⟩ := hc.isOpen_of_source? hm
    have hne : a.id ≠ id := by
      intro hid
      exact hold (hid ▸ hc.mirrors.declared_of_provider? hp)
    simp only [ha.get, ((h.others m a hne).2 ha).get]

variable (hg : ∀ e, s.declared id = some e ∨ t?.bind Grammar.sniffName? = some e → e ∈ grammars)
include hg

/-- Whoever does not draw on the old name or the new one has the links it had. -/
theorem linked (hc : s.Coherent) (hl : s.Linked d g) (hd : ¬ s'.graph.Draws id grammars d) (hne : d ≠ id) :
    s'.Linked d g := by
  have himports : ∀ {n slot e}, s.IsOpen n slot → s.Recorded slot → slot.id ≠ id →
      e ∈ (SymbolTable.ofText slot.latest.text).importNames → s'.graph.Imports slot.id e := by
    intro n slot e _ hr hne he
    rw [ImportGraph.imports_iff, h.imports _ hne, hr]
    exact he
  refine hl.mono (fun d => ¬ s'.graph.Draws id grammars d ∧ d ≠ id) (fun n slot ho hr hp => ?_)
    (fun d hp => h.declared_of_ne hc.unique hp.2) (fun n slot d e ho hr hp he hde => ?_) ⟨hd, hne⟩
  · exact ⟨n, slot, (h.others n slot hp.2).2 ho, rfl, rfl, h.recorded hr hp.2⟩
  · have hi := himports ho hr hp.2 he
    have hdne : d ≠ id := by
      rintro rfl
      exact hp.1 (.direct hp.2 hi (hg e (.inl hde)))
    refine ⟨fun hdraws => hp.1 (.through hp.2 hi ?_ hdraws), hdne⟩
    rw [h.mirrors.name, Function.update_of_ne hdne, hde]

/-- What a document is linked to, and does not draw on as changed, has not changed. -/
theorem not_mem_of_linked (hl : s.Linked d g) (hd : ¬ s'.graph.Draws id grammars d)
    (hne : d ≠ id) : g ∉ grammars := by
  intro hmem
  refine hd (hl.draws h.imports (fun e he => ?_) (fun e he => hg e (.inl he)) hmem hne)
  rw [h.mirrors.name, Function.update_of_ne he]

theorem backed (hc : s.Coherent) {p : Publication} (hb : s.Backed p)
    (hd : ¬ s'.graph.Draws id grammars p.document) (hne : p.document ≠ id) : s'.Backed p := by
  have hsame : ∀ g, p.Through g → s.declared id ≠ some g ∧ t?.bind Grammar.sniffName? ≠ some g := by
    intro g ht
    have hnot := h.not_mem_of_linked hg (hb.linked g ht) hd hne
    exact ⟨fun he => hnot (hg g (.inl he)), fun he => hnot (hg g (.inr he))⟩
  refine ⟨fun g ht => h.linked hg hc (hb.linked g ht) hd hne, fun g ht => ?_, fun g t? ht hk => ?_⟩
  · rw [h.provider?_eq hc (hsame g ht).1 (hsame g ht).2]
    exact hb.source g ht
  · rw [h.actual?_eq hc (hsame g ht).1 (hsame g ht).2]
    exact hb.answers g t? ht hk

end Replaces

theorem sameDocuments_bump (s : Session) (ids : List String) : SameDocuments s (s.bump ids) :=
  ⟨map_tag_bump ids, rfl, rfl, rfl, rfl, fun _ _ _ hr => hr⟩

theorem IsOpen.of_bump {ids : List String} (hb : (s.bump ids).IsOpen m b) :
    ∃ a, s.IsOpen m a ∧ b = a.bump ids := by
  refine hb.of_getElem? (F := fun _ a => a.bump ids) (fun m => ?_) (fun m a => by simp [Slot.tag])
  rw [bump, List.getElem?_map]

theorem AtRest.bump (h : s.AtRest) (ids : List String) : (s.bump ids).AtRest := by
  intro b hb
  obtain ⟨a, ha, rfl⟩ := List.mem_map.1 hb
  rw [Slot.inFlight_bump]
  exact h a ha

theorem AtRest.modifySlot (h : s.AtRest) {f : Slot → Slot} (hf : ∀ a, (f a).inFlight = a.inFlight)
    (n : Nat) : (s.modifySlot n f).AtRest := by
  intro b hb
  obtain ⟨m, hm⟩ := List.getElem?_of_mem hb
  rw [Session.modifySlot, List.getElem?_modify, Option.map_eq_map, Option.map_eq_some_iff] at hm
  obtain ⟨a, ha, rfl⟩ := hm
  have := h a (List.mem_of_getElem? ha)
  split
  · rw [hf, this]
  · exact this

theorem Replaces.orderly_of_sound (hr : Replaces s s' id t?) (h : s.Sound ledger)
    (ha : s'.IsOpen m a) : a.Orderly := by
  by_cases hid : a.id = id
  · exact hr.orderly m a ha hid
  · exact h.orderly m a ((hr.others m a hid).1 ha)

/-- A document that is still fresh has not been replaced, and has not been reached. -/
theorem Replaces.isOpen_of_isFresh (hr : Replaces s s' id t?) (h : s.Sound ledger) {ids : List String}
    (hb : (s'.bump ids).IsOpen m b) (hf : b.isFresh = true) :
    s.IsOpen m b ∧ b.id ≠ id ∧ b.id ∉ ids := by
  obtain ⟨a, ha, rfl⟩ := hb.of_bump
  have hni := (hr.orderly_of_sound h ha).not_mem_of_isFresh_bump ha.opened hf
  rw [Slot.bump_of_not_mem hni] at hf ⊢
  have hne : a.id ≠ id := fun hid => hr.outdated m a ha hid (Slot.isCurrent_of_isFresh hf)
  exact ⟨(hr.others m a hne).1 ha, hne, hni⟩

theorem Sound.replace (h : s.Sound ledger) (hrest : s.AtRest) (hr : Replaces s s' id t?)
    (hg : ∀ e, s.declared id = some e ∨ t?.bind Grammar.sniffName? = some e → e ∈ grammars) :
    (s'.bump (s'.reached id grammars none)).Sound ledger ∧
      (s'.bump (s'.reached id grammars none)).AtRest := by
  have hsame := s'.sameDocuments_bump (s'.reached id grammars none)
  have hc' := hr.coherent h.coherent.unique
  have hrest' := hr.atRest hrest
  refine ⟨⟨hsame.coherent hc' hr.distinct, ⟨hr.quiet.scripts, hr.quiet.hooks⟩, fun m b hb => ?_,
    fun m b hb hcur => ?_, fun m b an hb hp _ => ?_, fun m b an hb hp => ?_,
    fun m b p hb hf _ hp => ?_⟩, hrest'.bump _⟩
  · obtain ⟨a, ha, rfl⟩ := hb.of_bump
    exact (hr.orderly_of_sound h ha).bump
  · obtain ⟨a, ha, rfl⟩ := hb.of_bump
    rw [Slot.inFlight_bump, hrest'.isOpen ha, Slot.IsCurrent, Slot.published?_bump, Slot.latest_bump] at hcur
    have hcur : a.IsCurrent := by simpa [Slot.IsCurrent] using hcur
    have hne : a.id ≠ id := fun hid => hr.outdated m a ha hid hcur
    have ho := (hr.others m a hne).1 ha
    exact (hr.recorded (h.recorded m a ho (.inr hcur)) hne).of_tag (by simp [Slot.tag])
  · obtain ⟨a, ha, rfl⟩ := hb.of_bump
    rw [Slot.published?_bump] at hp
    obtain ⟨a', ho, hid, hp', himports⟩ := hr.published m a an ha hp
    rw [Slot.id_bump]
    refine himports.trans ?_
    rw [← hid]
    exact h.noted m a' an ho hp' (hrest.isOpen ho)
  · obtain ⟨a, ha, rfl⟩ := hb.of_bump
    rw [Slot.published?_bump] at hp
    obtain ⟨a', ho, hid, hp', -⟩ := hr.published m a an ha hp
    obtain ⟨p, hl, hpa, hpd, hgen⟩ := h.published m a' an ho hp'
    refine ⟨p, hl, hpa, by rw [hpd, hid, Slot.id_bump], ?_⟩
    rw [hsame.settings, hsame.host, hr.settings, hr.host]
    exact hgen
  · -- Still fresh means not reached, and so not dependent on what has changed.
    obtain ⟨ho, hne, hni⟩ := hr.isOpen_of_isFresh h hb hf
    have hdraws : ¬ s'.graph.Draws id grammars b.id := fun hd =>
      hni ((mem_reached hr.distinct).2
        ⟨hd, by simp, m, hr.unique.slotOf? ((hr.others m b hne).2 ho)⟩)
    obtain ⟨x, hx, -⟩ := Slot.isFresh_iff.1 hf
    obtain ⟨q, hq, -, hqd, -⟩ := h.published m b x ho hx
    obtain rfl := Option.some.inj (hp.symm.trans hq)
    rcases h.backed m b p ho hf (hrest.isOpen ho) hp with hpend | hb
    · exact absurd hpend hrest.not_pending
    · rw [← hqd] at hdraws hne
      exact .inr (hsame.backed (hr.backed hg h.coherent hb hdraws hne))

/-! ## The ways to replace a document -/

theorem getElem?_modifySlot_eq_some (hn : s.slots[n]? = some slot) (f : Slot → Slot) :
    (s.modifySlot n f).slots[m]? = some b ↔
      m = n ∧ b = f slot ∨ m ≠ n ∧ s.slots[m]? = some b := by
  by_cases hm : m = n
  · subst hm
    rw [get?_modifySlot, hn]
    simp [eq_comm]
  · rw [get?_modifySlot_of_ne f (Ne.symm hm)]
    simp [hm]

def retext (s : Session) (n : Nat) (id text : String) : Session :=
  { s.modifySlot n (·.setText text) with graph := s.graph.setName id (Grammar.sniffName? text) }

def register (s : Session) (id text : String) : Session :=
  { s with
    slots := s.slots ++ [.new id text]
    graph := s.graph.setName id (Grammar.sniffName? text) }

theorem isOpen_retext (ho : s.IsOpen n slot) (text : String) :
    (s.retext n slot.id text).IsOpen m b ↔
      m = n ∧ b = slot.setText text ∨ m ≠ n ∧ s.IsOpen m b := by
  have hget := getElem?_modifySlot_eq_some (m := m) (b := b) ho.get (·.setText text)
  constructor
  · intro hb
    rcases hget.1 hb.get with ⟨hm, hs⟩ | ⟨hm, hs⟩
    · exact .inl ⟨hm, hs⟩
    · exact .inr ⟨hm, hs, hb.opened⟩
  · rintro (⟨hm, rfl⟩ | ⟨hm, hb⟩)
    · exact ⟨hget.2 (.inl ⟨hm, rfl⟩), ho.opened⟩
    · exact ⟨hget.2 (.inr ⟨hm, hb.get⟩), hb.opened⟩

theorem getElem?_register_eq_some (s : Session) (id text : String) :
    (s.register id text).slots[m]? = some b ↔
      m = s.slots.length ∧ b = .new id text ∨ m ≠ s.slots.length ∧ s.slots[m]? = some b := by
  rw [register]
  by_cases hm : m = s.slots.length
  · simp [hm, eq_comm]
  · rcases Nat.lt_or_gt_of_ne hm with hlt | hgt
    · rw [List.getElem?_append_left hlt]
      simp [hm]
    · rw [List.getElem?_eq_none (by simp; omega), List.getElem?_eq_none (by omega)]
      simp [hm]

theorem isOpen_register (s : Session) (id text : String) :
    (s.register id text).IsOpen m b ↔
      m = s.slots.length ∧ b = .new id text ∨ m ≠ s.slots.length ∧ s.IsOpen m b := by
  have hget := getElem?_register_eq_some (m := m) (b := b) s id text
  constructor
  · intro hb
    rcases hget.1 hb.get with hs | ⟨hm, hs⟩
    · exact .inl hs
    · exact .inr ⟨hm, hs, hb.opened⟩
  · rintro (⟨hm, rfl⟩ | ⟨hm, hb⟩)
    · exact ⟨hget.2 (.inl ⟨hm, rfl⟩), rfl⟩
    · exact ⟨hget.2 (.inr ⟨hm, hb.get⟩), hb.opened⟩

theorem isOpen_drop (ho : s.IsOpen n slot) :
    (s.drop n slot.id).IsOpen m b ↔ m ≠ n ∧ s.IsOpen m b := by
  have hget := getElem?_modifySlot_eq_some (m := m) (b := b) ho.get Slot.close
  constructor
  · intro hb
    rcases hget.1 hb.get with ⟨hm, rfl⟩ | ⟨hm, hs⟩
    · cases hb.opened
    · exact ⟨hm, hs, hb.opened⟩
  · rintro ⟨hm, hb⟩
    exact ⟨hget.2 (.inr ⟨hm, hb.get⟩), hb.opened⟩

theorem isOpen_retext_self (ho : s.IsOpen n slot) (text : String) :
    (s.retext n slot.id text).IsOpen n (slot.setText text) :=
  (isOpen_retext ho text).2 (.inl ⟨rfl, rfl⟩)

theorem exchanges_retext (hc : s.Coherent) (ho : s.IsOpen n slot) (text : String) :
    Exchanges s (s.retext n slot.id text) slot.id (some text) := by
  have hunique : (s.retext n slot.id text).Unique := by
    intro m k a b ha hb hid
    rcases (isOpen_retext ho text).1 ha with ⟨rfl, rfl⟩ | ⟨-, ha'⟩ <;>
      rcases (isOpen_retext ho text).1 hb with ⟨rfl, rfl⟩ | ⟨-, hb'⟩
    · rfl
    · exact hc.unique ho hb' hid
    · exact hc.unique ha' ho hid
    · exact hc.unique ha' hb' hid
  refine ⟨hunique, fun m b hne => ⟨fun hb => ?_, fun hb => ?_⟩,
    hunique.text? (isOpen_retext_self ho text), hc.mirrors.setName _ _, ?_, fun d hd => ?_⟩
  · rcases (isOpen_retext ho text).1 hb with ⟨-, rfl⟩ | ⟨-, hb⟩
    · exact absurd rfl hne
    · exact hb
  · refine (isOpen_retext ho text).2 (.inr ⟨?_, hb⟩)
    rintro rfl
    exact hne (congrArg Slot.id (hb.eq ho))
  · exact (s.graph.setName_imports slot.id (Grammar.sniffName? text)).symm ▸ hc.distinct
  · exact ImportGraph.importsOf_setName _ _ _

theorem replaces_retext (h : s.Sound ledger) (ho : s.IsOpen n slot) (text : String) :
    Replaces s (s.retext n slot.id text) slot.id (some text) := by
  have hx := exchanges_retext h.coherent ho text
  have heq : ∀ {m b}, (s.retext n slot.id text).IsOpen m b → b.id = slot.id →
      b = slot.setText text := by
    intro m b hb hid
    obtain rfl := hx.unique hb (isOpen_retext_self ho text) hid
    exact hb.eq (isOpen_retext_self ho text)
  have hord := (h.orderly n slot ho).setText text
  have hcur := (h.orderly n slot ho).not_isCurrent_setText text
  refine ⟨hx, fun m b hb hid => heq hb hid ▸ hord, fun m b hb hid => heq hb hid ▸ hcur,
    fun hrest => hrest.modifySlot (f := (·.setText text)) (fun _ => rfl) n,
    fun m b an hb hp => ?_, rfl, rfl, ⟨h.quiet.scripts, h.quiet.hooks⟩⟩
  rcases (isOpen_retext ho text).1 hb with ⟨rfl, rfl⟩ | ⟨-, hb⟩
  · exact ⟨slot, ho, rfl, hp, ImportGraph.importsOf_setName _ _ _⟩
  · exact ⟨b, hb, rfl, hp, ImportGraph.importsOf_setName _ _ _⟩

theorem isOpen_register_self (s : Session) (id text : String) :
    (s.register id text).IsOpen s.slots.length (.new id text) :=
  (isOpen_register s id text).2 (.inl ⟨rfl, rfl⟩)

theorem exchanges_register (hc : s.Coherent) (hnew : s.slotOf? id = none) (text : String) :
    Exchanges s (s.register id text) id (some text) := by
  have habsent : ∀ {m b}, s.IsOpen m b → b.id ≠ id := by
    rintro m b hb rfl
    rw [hc.unique.slotOf? hb] at hnew
    cases hnew
  have hunique : (s.register id text).Unique := by
    intro m k a b ha hb hid
    rcases (isOpen_register s id text).1 ha with ⟨rfl, rfl⟩ | ⟨-, ha'⟩ <;>
      rcases (isOpen_register s id text).1 hb with ⟨rfl, rfl⟩ | ⟨-, hb'⟩
    · rfl
    · exact absurd hid.symm (habsent hb')
    · exact absurd hid (habsent ha')
    · exact hc.unique ha' hb' hid
  refine ⟨hunique, fun m b hne => ⟨fun hb => ?_, fun hb => ?_⟩,
    hunique.text? (isOpen_register_self s id text), hc.mirrors.setName _ _, ?_, fun d hd => ?_⟩
  · rcases (isOpen_register s id text).1 hb with ⟨-, rfl⟩ | ⟨-, hb⟩
    · exact absurd rfl hne
    · exact hb
  · exact (isOpen_register s id text).2
      (.inr ⟨((List.getElem?_eq_some_iff.1 hb.get).1).ne, hb⟩)
  · exact (s.graph.setName_imports id (Grammar.sniffName? text)).symm ▸ hc.distinct
  · exact ImportGraph.importsOf_setName _ _ _

theorem replaces_register (h : s.Sound ledger) (hnew : s.slotOf? id = none) (text : String) :
    Replaces s (s.register id text) id (some text) := by
  have hx := exchanges_register h.coherent hnew text
  have heq : ∀ {m b}, (s.register id text).IsOpen m b → b.id = id → b = .new id text := by
    intro m b hb hid
    obtain rfl := hx.unique hb (isOpen_register_self s id text) hid
    exact hb.eq (isOpen_register_self s id text)
  refine ⟨hx, fun m b hb hid => heq hb hid ▸ Slot.orderly_new id text, fun m b hb hid => ?_,
    fun hrest => ?_, fun m b an hb hp => ?_, rfl, rfl, ⟨h.quiet.scripts, h.quiet.hooks⟩⟩
  · rw [heq hb hid]
    rintro ⟨a, ha, -⟩
    cases ha
  · intro b hb
    rcases List.mem_append.1 hb with hb | hb
    · exact hrest b hb
    · rw [List.mem_singleton.1 hb]
      rfl
  · rcases (isOpen_register s id text).1 hb with ⟨-, rfl⟩ | ⟨-, hb⟩
    · cases hp
    · exact ⟨b, hb, rfl, hp, ImportGraph.importsOf_setName _ _ _⟩

theorem unique_drop (hu : s.Unique) (ho : s.IsOpen n slot) : (s.drop n slot.id).Unique := by
  intro m k a b ha hb hid
  exact hu ((isOpen_drop ho).1 ha).2 ((isOpen_drop ho).1 hb).2 hid

theorem ne_of_isOpen_drop (hu : s.Unique) (ho : s.IsOpen n slot)
    (hb : (s.drop n slot.id).IsOpen m b) : b.id ≠ slot.id := by
  obtain ⟨hm, hb⟩ := (isOpen_drop ho).1 hb
  exact fun hid => hm (hu hb ho hid)

theorem exchanges_drop (hc : s.Coherent) (ho : s.IsOpen n slot) :
    Exchanges s (s.drop n slot.id) slot.id none := by
  refine ⟨unique_drop hc.unique ho, fun m b hid => ⟨fun hb => ((isOpen_drop ho).1 hb).2,
    fun hb => ?_⟩, ?_, hc.mirrors.erase _, hc.distinct.erase,
    fun d hd => ImportGraph.importsOf_erase_of_ne hd⟩
  · refine (isOpen_drop ho).2 ⟨?_, hb⟩
    rintro rfl
    exact hid (congrArg Slot.id (hb.eq ho))
  · rw [text?, slotOf?_eq_none fun _ _ => ne_of_isOpen_drop hc.unique ho]
    rfl

theorem replaces_drop (hc : s.Coherent) (hq : s.Quiet) (ho : s.IsOpen n slot) :
    Replaces s (s.drop n slot.id) slot.id none := by
  have hne : ∀ {m b}, (s.drop n slot.id).IsOpen m b → b.id ≠ slot.id :=
    ne_of_isOpen_drop hc.unique ho
  refine ⟨exchanges_drop hc ho, fun m b hb hid => absurd hid (hne hb),
    fun m b hb hid => absurd hid (hne hb),
    fun hrest => hrest.modifySlot (f := Slot.close) (fun _ => rfl) n, fun m b an hb hp => ?_, rfl, rfl,
    ⟨hq.scripts, hq.hooks⟩⟩
  have hid : b.id ≠ slot.id := hne hb
  exact ⟨b, ((isOpen_drop ho).1 hb).2, rfl, hp, ImportGraph.importsOf_erase_of_ne hid⟩

/-- What is kept when documents are dropped one after the other, and nobody is invalidated. -/
structure Emptied (s s' : Session) (ids : List String) : Prop where
  coherent : s'.Coherent
  quiet : s'.Quiet
  atRest : s.AtRest → s'.AtRest
  settings : s'.settings = s.settings
  host : s'.host? = s.host?
  isOpen : ∀ n slot, s'.IsOpen n slot → s.IsOpen n slot ∧ slot.id ∉ ids

theorem coherent_dropNamed (hc : s.Coherent) (id : String) : (s.dropNamed id).Coherent := by
  rw [dropNamed]
  cases hn : s.slotOf? id with
  | none =>
    -- The graph has nothing on a document that is not registered.
    have hnone : s.declared id = none := by rw [declared, text?, hn]; rfl
    refine ⟨fun _ _ _ _ ha hb => hc.unique ⟨ha.get, ha.opened⟩ ⟨hb.get, hb.opened⟩, ?_,
      hc.distinct.erase⟩
    have := hc.mirrors.erase id
    rwa [Function.update_eq_self_iff.2 hnone.symm] at this
  | some n =>
    obtain ⟨slot, ho, rfl⟩ := isOpen_of_slotOf? hn
    exact (exchanges_drop hc ho).coherent hc.unique

theorem isOpen_dropNamed (hu : s.Unique) :
    (s.dropNamed id).IsOpen m b ↔ s.IsOpen m b ∧ b.id ≠ id := by
  rw [dropNamed]
  cases hn : s.slotOf? id with
  | none =>
    constructor
    · intro hb
      refine ⟨⟨hb.get, hb.opened⟩, ?_⟩
      rintro rfl
      obtain ⟨k, hk⟩ := exists_slotOf? (s := s) ⟨hb.get, hb.opened⟩
      rw [hn] at hk
      cases hk
    · rintro ⟨hb, -⟩
      exact ⟨hb.get, hb.opened⟩
  | some n =>
    obtain ⟨slot, ho, rfl⟩ := isOpen_of_slotOf? hn
    refine (isOpen_drop ho).trans ⟨fun ⟨hm, hb⟩ => ⟨hb, fun hid => hm (hu hb ho hid)⟩, ?_⟩
    rintro ⟨hb, hne⟩
    refine ⟨?_, hb⟩
    rintro rfl
    exact hne (congrArg Slot.id (hb.eq ho))

theorem emptied_dropNamed (hc : s.Coherent) (hq : s.Quiet) (id : String) :
    Emptied s (s.dropNamed id) [id] := by
  refine ⟨coherent_dropNamed hc id, ?_, fun hrest => ?_, ?_, ?_, fun n slot ho => ?_⟩
  · rw [dropNamed]
    split <;> exact ⟨hq.scripts, hq.hooks⟩
  · rw [dropNamed]
    split
    · exact hrest.modifySlot (f := Slot.close) (fun _ => rfl) _
    · exact hrest
  · rw [dropNamed]
    split <;> rfl
  · rw [dropNamed]
    split <;> rfl
  · obtain ⟨ho, hne⟩ := (isOpen_dropNamed hc.unique).1 ho
    exact ⟨ho, by simpa using hne⟩

theorem emptied_foldl (hc : s.Coherent) (hq : s.Quiet) (ids : List String) :
    Emptied s (ids.foldl dropNamed s) ids := by
  induction ids generalizing s with
  | nil => exact ⟨hc, hq, fun h => h, rfl, rfl, fun m b hb => ⟨hb, by simp⟩⟩
  | cons id ids ih =>
    have h₁ := emptied_dropNamed hc hq id
    have h₂ := ih h₁.coherent h₁.quiet
    refine ⟨h₂.coherent, h₂.quiet, h₂.atRest ∘ h₁.atRest, h₂.settings.trans h₁.settings,
      h₂.host.trans h₁.host, fun m b hb => ?_⟩
    obtain ⟨hb, hni⟩ := h₂.isOpen m b hb
    obtain ⟨hb, hne⟩ := h₁.isOpen m b hb
    rw [List.mem_singleton] at hne
    exact ⟨hb, by simp [hne, hni]⟩

theorem mem_documents : id ∈ s.documents ↔ ∃ n slot, s.IsOpen n slot ∧ slot.id = id := by
  rw [documents, mem_ascending, List.mem_map]
  constructor
  · rintro ⟨slot, hs, rfl⟩
    obtain ⟨hs, hc⟩ := List.mem_filter.1 hs
    obtain ⟨n, hn⟩ := List.getElem?_of_mem hs
    exact ⟨n, slot, ⟨hn, by simpa using hc⟩, rfl⟩
  · rintro ⟨n, slot, ho, rfl⟩
    exact ⟨slot, List.mem_filter.2 ⟨List.mem_of_getElem? ho.get, by simp [ho.opened]⟩, rfl⟩

end Session

end GrammarAtlas
