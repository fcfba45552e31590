import GrammarAtlas.Proofs.Unrest

/-! # Making a document fresh

`Session.leads_refresh`: making a document fresh comes to an end, whatever imports whatever. It
leaves the document fresh, unless it is being analysed further down, and preserves `Session.Sound`.

The proof is by three inductions, one inside the other. A document that is taken up for another one
is one document less that can be taken up; an analysis that starts again does so with less unrest;
and an analysis that asks for a table has one table less to ask for. What the work done for another
document means to an analysis under way is said by `Session.Later`. -/

namespace GrammarAtlas

namespace Session
variable {s s' s'' : Session} {n m : Nat} {slot slot' a b : Slot} {id g : String}
  {ledger : List Publication} {run : Run} {r : Resolution} {requester? : Option String}
  {n? : Option Nat} {U : List String}

/-- What the state is later on in a query, while the documents that are in flight wait, apart from
`n?`. -/
structure Later (n? : Option Nat) (s s' : Session) : Prop extends SameDocuments s s' where
  epoch : ∀ {m : Nat} {a b : Slot}, s.slots[m]? = some a → s'.slots[m]? = some b → a.epoch ≤ b.epoch
  published : ∀ {m : Nat} {a b : Slot}, s.slots[m]? = some a → s'.slots[m]? = some b →
    b.published? = a.published? ∨ b.IsCurrent
  inFlight : ∀ {m : Nat} {a b : Slot}, n? ≠ some m → s.slots[m]? = some a → s'.slots[m]? = some b →
    b.inFlight = a.inFlight
  waiting : ∀ {m : Nat} {a b : Slot}, n? ≠ some m → s.slots[m]? = some a → s'.slots[m]? = some b →
    a.inFlight = true → b.published? = a.published?
  unrest : s'.unrest ≤ s.unrest
  /-- An invalidation takes away from the unrest. -/
  steady : ∀ {m : Nat} {a b : Slot}, s.slots[m]? = some a → s'.slots[m]? = some b → a.epoch ≠ b.epoch →
    s'.unrest < s.unrest

namespace Later

theorem isOpen (h : Later n? s s') (ho : s.IsOpen m a) : ∃ b, s'.IsOpen m b ∧ b.tag = a.tag :=
  ho.of_tag h.tags

theorem of_slots_eq (h : SameDocuments s s') (hs : s'.slots = s.slots) : Later none s s' := by
  have heq : ∀ {m : Nat} {a b : Slot}, s.slots[m]? = some a → s'.slots[m]? = some b → b = a := by
    intro m a b ha hb
    rw [hs, ha] at hb
    exact (Option.some.inj hb).symm
  refine ⟨h, fun ha hb => ?_, fun ha hb => ?_, fun _ ha hb => ?_, fun _ ha hb _ => ?_,
    h.unrest_le fun m => by rw [hs], fun ha hb hne => ?_⟩
  · rw [heq ha hb]
  · rw [heq ha hb]; exact .inl rfl
  · rw [heq ha hb]
  · rw [heq ha hb]
  · exact absurd (by rw [heq ha hb]) hne

theorem refl (s : Session) : Later none s s := of_slots_eq (.refl s) rfl

theorem excepting (h : Later none s s') (n? : Option Nat) : Later n? s s' :=
  ⟨h.toSameDocuments, h.epoch, h.published, fun _ => h.inFlight (by simp),
    fun _ => h.waiting (by simp), h.unrest, h.steady⟩

theorem trans (h : Later n? s s') (h' : Later n? s' s'') : Later n? s s'' := by
  have hmid : ∀ {m : Nat} {a : Slot}, s.slots[m]? = some a → ∃ b, s'.slots[m]? = some b := by
    intro m a ha
    have := getElem?_tag_congr h.tags m
    rw [ha, Option.map_some, Option.map_eq_some_iff] at this
    obtain ⟨b, hb, -⟩ := this
    exact ⟨b, hb⟩
  refine ⟨h.toSameDocuments.trans h'.toSameDocuments, fun ha hc => ?_, fun {m _ _} ha hc => ?_,
    fun hn ha hc => ?_, fun hn ha hc hf => ?_, h'.unrest.trans h.unrest, fun {_ a _} ha hc hne => ?_⟩ <;>
    obtain ⟨b, hb⟩ := hmid ha
  · exact (h.epoch ha hb).trans (h'.epoch hb hc)
  · rcases h'.published hb hc with hp | hp
    · rcases h.published ha hb with hq | ⟨x, hx, hxl⟩
      · exact .inl (hp.trans hq)
      · have htag := getElem?_tag_congr h'.tags m
        rw [hb, hc] at htag
        have hl := congrArg (·.2.2) (Option.some.inj htag)
        exact .inr ⟨x, hp.trans hx, hxl.trans hl.symm⟩
    · exact .inr hp
  · rw [h'.inFlight hn hb hc, h.inFlight hn ha hb]
  · rw [h'.waiting hn hb hc (by rw [h.inFlight hn ha hb, hf]), h.waiting hn ha hb hf]
  · by_cases hab : a.epoch = b.epoch
    · have := h'.steady hb hc (by rwa [← hab])
      exact this.trans_le h.unrest
    · exact h'.unrest.trans_lt (h.steady ha hb hab)

theorem all (h : Later (some n) s s')
    (hn : ∀ {a b : Slot}, s.slots[n]? = some a → s'.slots[n]? = some b → a.inFlight = false ∧
      b.inFlight = false) : Later none s s' := by
  refine ⟨h.toSameDocuments, h.epoch, h.published, fun {m a b} _ ha hb => ?_,
    fun {m a b} _ ha hb hf => ?_, h.unrest, h.steady⟩ <;> by_cases hnm : n = m
  · subst hnm
    rw [(hn ha hb).1, (hn ha hb).2]
  · exact h.inFlight (by simpa using hnm) ha hb
  · subst hnm
    rw [(hn ha hb).1] at hf
    cases hf
  · exact h.waiting (by simpa using hnm) ha hb hf

end Later

theorem later_takeUp (hu : s.Unique) (ho : s.IsOpen n slot) : Later (some n) s (s.takeUp n slot) := by
  have hget : ∀ {m : Nat} {a b : Slot}, s.slots[m]? = some a → (s.takeUp n slot).slots[m]? = some b →
      b = if n = m then { a with inFlight := true } else a := by
    intro m a b ha hb
    rw [getElem?_takeUp, ha] at hb
    exact (Option.some.inj hb).symm
  have hpub : ∀ {m : Nat} {a b : Slot}, s.slots[m]? = some a →
      (s.takeUp n slot).slots[m]? = some b → b.published? = a.published? := by
    intro m a b ha hb
    rw [hget ha hb]
    split <;> rfl
  have hepoch : ∀ {m : Nat} {a b : Slot}, s.slots[m]? = some a →
      (s.takeUp n slot).slots[m]? = some b → a.epoch = b.epoch := by
    intro m a b ha hb
    rw [hget ha hb]
    split <;> rfl
  have hsame := sameDocuments_takeUp hu ho
  refine ⟨hsame, fun ha hb => (hepoch ha hb).le, fun ha hb => .inl (hpub ha hb),
    fun hn ha hb => ?_, fun _ ha hb _ => hpub ha hb, hsame.unrest_le published_takeUp,
    fun ha hb hne => absurd (hepoch ha hb) hne⟩
  rw [hget ha hb, if_neg fun h => hn (congrArg some h)]

theorem later_conclude (h : s.Sound ledger) (hu : s.Underway run slot)
    (hr : Resolution.attempt run.known run.grammar.tree run.table s.settings.warnUnresolved = .ok r) :
    Later (some run.slot) s (s.conclude run.slot slot requester? (run.analysis r)) := by
  have hget : ∀ {m : Nat} {a b : Slot}, s.slots[m]? = some a →
      (s.conclude run.slot slot requester? (run.analysis r)).slots[m]? = some b →
        b = Slot.bump (s.informed slot requester? (run.analysis r))
          (if run.slot = m then a.conclude (run.analysis r) else a) := by
    intro m a b ha hb
    rw [getElem?_conclude, ha] at hb
    exact (Option.some.inj hb).symm
  have hepoch : ∀ {m : Nat} {a : Slot},
      (if run.slot = m then a.conclude (run.analysis r) else a).epoch = a.epoch := by
    intro m a
    split <;> rfl
  obtain ⟨hle, hlt⟩ : _ ∧ (_ → (s.conclude run.slot slot requester? (run.analysis r)).unrest < _) :=
    h.unrest_conclude hu hr
  refine ⟨sameDocuments_conclude, fun ha hb => ?_, fun {m a b} ha hb => ?_, fun hn ha hb => ?_,
    fun hn ha hb _ => ?_, hle, fun {m a b} ha hb hne => hlt ?_⟩
  · rw [hget ha hb, ← hepoch]
    exact Slot.epoch_le_bump
  · rw [hget ha hb, Slot.published?_bump, Slot.IsCurrent, Slot.published?_bump, Slot.latest_bump]
    by_cases hm : run.slot = m
    · subst hm
      obtain rfl := Option.some.inj (ha.symm.trans hu.isOpen.get)
      rw [if_pos rfl]
      exact .inr hu.isCurrent_conclude
    · rw [if_neg hm]
      exact .inl rfl
  · rw [hget ha hb, Slot.inFlight_bump, if_neg fun h => hn (congrArg some h)]
  · rw [hget ha hb, Slot.published?_bump, if_neg fun h => hn (congrArg some h)]
  · -- Somebody has been informed, so there was a change to show.
    by_contra hshow
    rw [hget ha hb, informed, if_neg hshow, Slot.bump_nil, hepoch] at hne
    exact hne rfl

namespace Underway

/-- An analysis under way is not disturbed by the work done for another document, other than by
invalidation. -/
theorem later (h : s.Underway run slot) (hs : s.Sound ledger) (hl : Later none s s')
    {ledger' : List Publication} (hs' : s'.Sound ledger') : ∃ slot', s'.Underway run slot' ∧ slot'.tag = slot.tag := by
  obtain ⟨slot', ho', htag⟩ := hl.isOpen h.isOpen
  have hid : slot'.id = slot.id := congrArg (·.1) htag
  have hlatest : slot'.latest = slot.latest := congrArg (·.2.2) htag
  have hget := h.isOpen.get
  -- What has been answered stays: it comes from a document that waits or has its latest text out.
  have hsource : s.settings.resolveImports = true → ∀ g t? m, (g, t?) ∈ run.known →
      s.source? slot.id g = some m → s'.table? m = s.table? m ∧
        ∀ b, s'.slots[m]? = some b → b.inFlight = true ∨ b.IsCurrent := by
    intro hres g t? m hk hm
    obtain ⟨a, ha, -⟩ := hs.coherent.isOpen_of_source? hm
    obtain ⟨b, hb, hbt⟩ := hl.isOpen ha
    have hbl : b.latest = a.latest := congrArg (·.2.2) hbt
    rw [table?, table?, hb.get, ha.get]
    simp only [Option.bind_some]
    rcases h.sources hres g t? m a hk hm ha.get with hf | hc
    · refine ⟨by rw [hl.waiting (by simp) ha.get hb.get hf], fun c hc => .inl ?_⟩
      rw [← Option.some.inj hc, hl.inFlight (by simp) ha.get hb.get, hf]
    · obtain ⟨x, hx, hxl⟩ := hc
      have hcb : b.IsCurrent := by
        rcases hl.published ha.get hb.get with hp | hp
        · exact ⟨x, hp.trans hx, hxl.trans hbl.symm⟩
        · exact hp
      refine ⟨?_, fun c hc => .inr (Option.some.inj hc ▸ hcb)⟩
      obtain ⟨y, hy, hyl⟩ := hcb
      rw [hx, hy, Option.map_some, Option.map_some, (hs.orderly m a ha).table x hx,
        (hs'.orderly m b hb).table y hy, hxl, hyl, hbl]
  refine ⟨slot', ⟨ho', ?_, ?_, ?_, ?_, ?_, ?_, h.unchanged, ?_, fun g t? hk => ?_,
    fun hres g t? m b hk hm hb => ?_⟩, htag⟩
  · rw [hl.inFlight (by simp) hget ho'.get, h.inFlight]
  · rw [Bool.eq_false_iff, Ne, Slot.isFresh_iff]
    rintro ⟨x, hx, hxl, hxe⟩
    rw [hl.waiting (by simp) hget ho'.get h.inFlight] at hx
    have h₁ := (hs.orderly _ _ h.isOpen).epoch x hx
    have h₂ := hl.epoch hget ho'.get
    refine Bool.eq_false_iff.1 h.stale (Slot.isFresh_iff.2 ⟨x, hx, hxl.trans hlatest, ?_⟩)
    omega
  · rw [hlatest]; exact h.snapshot
  · rw [hlatest]; exact h.grammar
  · rw [hlatest]; exact h.table
  · exact h.epoch.trans (hl.epoch hget ho'.get)
  · rw [hl.settings]; exact h.asked
  · rw [hid, h.answers g t? hk]
    by_cases hres : s.settings.resolveImports = true
    · exact (hl.visible? fun m hm => (hsource hres g t? m hk hm).1).symm
    · rw [visible?, visible?, hl.settings, if_neg hres, if_neg hres]
  · rw [hid, hl.source?] at hm
    rw [hl.settings] at hres
    exact (hsource hres g t? m hk hm).2 b hb

theorem learn (h : s.Underway run slot)
    (hg : Resolution.attempt run.known run.grammar.tree run.table s.settings.warnUnresolved =
      .error g) {t? : Option SymbolTable} (ht : t? = s.visible? slot.id g)
    (hsrc : ∀ m b, s.source? slot.id g = some m → s.slots[m]? = some b →
      b.inFlight = true ∨ b.IsCurrent) : s.Underway (run.learn g t?) slot := by
  refine ⟨h.isOpen, h.inFlight, h.stale, h.snapshot, h.grammar, h.table, h.epoch, h.unchanged,
    .ask h.asked hg, fun e t?' hk => ?_, fun hres e t?' m b hk hm hb => ?_⟩ <;>
    rcases List.mem_append.1 hk with hk | hk
  · exact h.answers e t?' hk
  · obtain ⟨rfl, rfl⟩ : e = g ∧ t?' = t? := by simpa using hk
    exact ht
  · exact h.sources hres e t?' m b hk hm hb
  · obtain ⟨rfl, rfl⟩ : e = g ∧ t?' = t? := by simpa using hk
    exact hsrc m b hm hb

theorem resolveImports (h : s.Underway run slot)
    (hg : Resolution.attempt run.known run.grammar.tree run.table s.settings.warnUnresolved =
      .error g) : s.settings.resolveImports = true := by
  by_contra hno
  have hasked := h.asked
  rw [firstKnown, if_neg hno] at hasked
  obtain ⟨r, hr⟩ := Resolution.attempt_closedBook run.grammar.tree run.table
    s.settings.warnUnresolved
  rw [hasked.eq_closedBook, hr] at hg
  cases hg

end Underway

/-- All grammars that a table names, of those that any document may come to see, are in `U`. -/
structure Bounded (s : Session) (U : List String) : Prop where
  latest : ∀ n slot, s.IsOpen n slot → ∀ g ∈ (SymbolTable.ofText slot.latest.text).importNames, g ∈ U
  published : ∀ n slot a, s.IsOpen n slot → slot.published? = some a → ∀ g ∈ a.table.importNames, g ∈ U
  host : ∀ e t, s.hostTable? e = some t → ∀ g ∈ t.importNames, g ∈ U

theorem exists_bounded (s : Session) : ∃ U, s.Bounded U := by
  refine ⟨(s.slots.flatMap fun slot => (SymbolTable.ofText slot.latest.text).importNames) ++
    (s.slots.flatMap fun slot => slot.published?.toList.flatMap (·.table.importNames)) ++
    s.host?.toList.flatMap fun host => host.library.flatMap (·.2.importNames), ?_, ?_, ?_⟩
  · intro n slot ho g hg
    refine List.mem_append_left _ (List.mem_append_left _ ?_)
    exact List.mem_flatMap.2 ⟨slot, List.mem_of_getElem? ho.get, hg⟩
  · intro n slot a ho ha g hg
    refine List.mem_append_left _ (List.mem_append_right _ ?_)
    refine List.mem_flatMap.2 ⟨slot, List.mem_of_getElem? ho.get, ?_⟩
    simpa [ha] using hg
  · intro e t ht g hg
    refine List.mem_append_right _ ?_
    obtain ⟨host, hh, ht⟩ := Option.bind_eq_some_iff.1 ht
    have hu := (Resolution.within_library host.library .empty).answers e t ht g hg
    simpa [hh, SymbolTable.importNames, SymbolTable.empty] using hu

theorem Bounded.later (h : s.Bounded U) (hl : Later none s s') (hs' : s'.Sound ledger) :
    s'.Bounded U := by
  have hback : ∀ {m b}, s'.IsOpen m b → ∃ a, s.IsOpen m a ∧ a.tag = b.tag := fun hb =>
    hb.of_tag hl.tags.symm
  have hlatest : ∀ n slot, s'.IsOpen n slot →
      ∀ g ∈ (SymbolTable.ofText slot.latest.text).importNames, g ∈ U := by
    intro m b hb g hg
    obtain ⟨a, ha, ht⟩ := hback hb
    have hal : a.latest = b.latest := congrArg (·.2.2) ht
    exact h.latest m a ha g (by rw [hal]; exact hg)
  refine ⟨hlatest, fun m b x hb hx g hg => ?_, fun e t ht => ?_⟩
  · obtain ⟨a, ha, -⟩ := hback hb
    rcases hl.published ha.get hb.get with hp | ⟨y, hy, hyl⟩
    · exact h.published m a x ha (hp ▸ hx) g hg
    · obtain rfl := Option.some.inj (hx.symm.trans hy)
      rw [(hs'.orderly m b hb).table x hx, hyl] at hg
      exact hlatest m b hb g hg
  · rw [hl.hostTable?] at ht
    exact h.host e t ht

theorem Bounded.visible? (h : s.Bounded U) (hc : s.Coherent) {e : String} {t : SymbolTable}
    (ht : s.visible? id e = some t) : ∀ g ∈ t.importNames, g ∈ U := by
  rw [Session.visible?] at ht
  split at ht
  · cases hm : s.source? id e with
    | none =>
      rw [hm] at ht
      exact h.host e t ht
    | some m =>
      obtain ⟨b, hb, -⟩ := hc.isOpen_of_source? hm
      simp only [hm, hb.get, Option.bind_some, Option.map_eq_some_iff] at ht
      obtain ⟨a, ha, rfl⟩ := ht
      exact h.published m b a hb ha
  · cases ht

theorem Underway.length_known_lt (h : s.Underway run slot) (hc : s.Coherent) (hU : s.Bounded U)
    (hg : Resolution.attempt run.known run.grammar.tree run.table s.settings.warnUnresolved =
      .error g) : run.known.length < U.length := by
  have hasked := h.asked
  rw [firstKnown, if_pos (h.resolveImports hg)] at hasked
  obtain ⟨hnd, hnames⟩ := hasked.nodup
  obtain ⟨hnew, hname⟩ := Resolution.attempt_error hg
  have hmem : ∀ e, run.known.Names run.table e → e ∈ U := by
    rintro e (he | ⟨e', t, hk, he⟩)
    · rw [h.table] at he
      exact hU.latest _ _ h.isOpen e he
    · exact hU.visible? hc (h.answers e' _ hk).symm e he
  have hnd' : (g :: run.known.map Prod.fst).Nodup :=
    List.nodup_cons.2 ⟨Known.lookup_eq_none.1 hnew, hnd⟩
  have hsub : ∀ e ∈ g :: run.known.map Prod.fst, e ∈ U := by
    intro e he
    rcases List.mem_cons.1 he with rfl | he
    · exact hmem e hname
    · exact hmem e (hnames e he)
  have := (List.subperm_of_subset hnd' hsub).length_le
  rwa [List.length_cons, List.length_map] at this

section idle
open scoped Classical

/-- The registered documents that are not in flight. -/
noncomputable def idle (s : Session) : Finset Nat :=
  {n ∈ Finset.range s.slots.length | ∃ slot, s.IsOpen n slot ∧ slot.inFlight = false}

theorem mem_idle : n ∈ s.idle ↔ ∃ slot, s.IsOpen n slot ∧ slot.inFlight = false := by
  rw [idle, Finset.mem_filter, Finset.mem_range, and_iff_right_iff_imp]
  rintro ⟨slot, ho, -⟩
  exact (List.getElem?_eq_some_iff.1 ho.get).1

end idle

theorem Later.idle_subset (h : Later none s s') : s'.idle ⊆ s.idle := by
  intro m hm
  obtain ⟨b, hb, hf⟩ := mem_idle.1 hm
  obtain ⟨a, ha, -⟩ := hb.of_tag h.tags.symm
  exact mem_idle.2 ⟨a, ha, by rw [← h.inFlight (by simp) ha.get hb.get, hf]⟩

theorem IsOpen.of_takeUp (hb : (s.takeUp n slot).IsOpen m b) (hf : b.inFlight = false) :
    m ≠ n ∧ s.IsOpen m b := by
  obtain ⟨a, ha, rfl⟩ := hb.of_getElem? (s.getElem?_takeUp n slot) tag_takeUp
  by_cases hnm : n = m
  · rw [if_pos hnm] at hf
    cases hf
  · rw [if_neg hnm]
    exact ⟨Ne.symm hnm, ha⟩

theorem idle_takeUp_subset : (s.takeUp n slot).idle ⊆ s.idle := by
  intro m hm
  obtain ⟨b, hb, hf⟩ := mem_idle.1 hm
  exact mem_idle.2 ⟨b, (hb.of_takeUp hf).2, hf⟩

theorem idle_takeUp_ssubset (ho : s.IsOpen n slot) (hf : slot.inFlight = false) :
    (s.takeUp n slot).idle ⊂ s.idle := by
  refine (Finset.ssubset_iff_of_subset idle_takeUp_subset).2
    ⟨n, mem_idle.2 ⟨slot, ho, hf⟩, fun hm => ?_⟩
  obtain ⟨b, hb, hbf⟩ := mem_idle.1 hm
  exact (hb.of_takeUp hbf).1 rfl

/-! ## Steps of the machine -/

/-- The run that begins when slot `n` is read. -/
def firstRun (s : Session) (n : Nat) (slot : Slot) (requester? : Option String) : Run where
  slot := n
  requester? := requester?
  changed := false
  snapshot := slot.latest
  epoch := slot.epoch
  grammar := .parse slot.latest.text
  table := .ofText slot.latest.text
  known := firstKnown s.settings (.ofText slot.latest.text)

theorem readSlot_eq (s : Session) (n : Nat) (slot : Slot) (requester? : Option String) :
    (s.modifySlot n ({ · with inFlight := true })).readSlot n { slot with inFlight := true }
      requester? false = (s.takeUp n slot, s.firstRun n slot requester?) := by
  simp only [readSlot, ← SymbolTable.ofText_eq]
  rfl

theorem modifySlot_inFlight (h : s.slots[n]? = some slot) (hf : slot.inFlight = true) :
    s.modifySlot n ({ · with inFlight := true }) = s := by
  have : s.slots.modify n ({ · with inFlight := true }) = s.slots := by
    refine List.ext_getElem? fun m => ?_
    rw [List.getElem?_modify]
    by_cases hnm : n = m
    · subst hnm
      simp [h, ← hf]
    · simp [hnm]
  rw [modifySlot, this]

theorem underway_firstRun (ho : s.IsOpen n slot) (hf : slot.isFresh = false) :
    (s.takeUp n slot).Underway (s.firstRun n slot requester?) { slot with inFlight := true } := by
  have hget : (s.takeUp n slot).IsOpen n { slot with inFlight := true } := by
    have := ho.map_getElem? (s.getElem?_takeUp n slot) tag_takeUp
    rwa [if_pos rfl] at this
  refine ⟨hget, rfl, hf, rfl, rfl, rfl, le_rfl, rfl, .start, fun g t? hk => ?_,
    fun hres g t? m b hk => ?_⟩
  · have hk : (g, t?) ∈ firstKnown s.settings (.ofText slot.latest.text) := hk
    rw [firstKnown] at hk
    split at hk
    · cases hk
    · rename_i hres
      rw [visible?, if_neg (show ¬ (s.takeUp n slot).settings.resolveImports = true from hres)]
      exact Resolution.snd_of_mem_closedBook hk
  · have hk : (g, t?) ∈ firstKnown s.settings (.ofText slot.latest.text) := hk
    rw [firstKnown, if_pos (show s.settings.resolveImports = true from hres)] at hk
    cases hk

variable {next : Continuation .analysis}

/-- A document that is fresh, or is being analysed further down, is left alone. -/
theorem leads_done (ho : s.IsOpen n slot) (h : slot.inFlight = true ∨ slot.isFresh = true) :
    Leads s (.refresh n requester? next) [] s (.analysed slot.current next) := by
  refine .one ?_ rfl
  rcases h with hf | hf <;>
    simp only [step, refreshSlot, ho.get, hf, Bool.or_true, Bool.true_or, if_true]

theorem leads_takeUp (ho : s.IsOpen n slot) (hf : slot.inFlight = false)
    (hfresh : slot.isFresh = false) :
    Leads s (.refresh n requester? next) [] (s.takeUp n slot)
      (.resolve (s.firstRun n slot requester?) next) := by
  have hget : (s.modifySlot n ({ · with inFlight := true })).slots[n]? =
      some { slot with inFlight := true } := by
    rw [get?_modifySlot, ho.get, Option.map_some]
  have hstale : (slot.closed || { slot with inFlight := true }.isFresh) = false := by
    rw [ho.opened]
    exact hfresh
  have hrefresh : s.step (.refresh n requester? next) =
      (s.modifySlot n ({ · with inFlight := true }), .cycle n requester? false next) := by
    simp only [step, refreshSlot, ho.get, hf, hfresh, ho.opened, Bool.or_self, Bool.false_eq_true,
      if_false]
  have hcycle : (s.modifySlot n ({ · with inFlight := true })).step
      (.cycle n requester? false next) =
      (s.takeUp n slot, .resolve (s.firstRun n slot requester?) next) := by
    simp only [step, cycleSlot, hget, hstale, Bool.false_eq_true, if_false, readSlot_eq]
  exact .next hrefresh rfl (.one hcycle rfl)

/-- An analysis that has been overtaken begins again. -/
theorem leads_restart (h : s.Underway run slot)
    (hr : Resolution.attempt run.known run.grammar.tree run.table s.settings.warnUnresolved = .ok r)
    (hepoch : slot.epoch ≠ run.epoch) :
    Leads s (.resolve run next) [] (s.takeUp run.slot slot)
      (.resolve (s.firstRun run.slot slot run.requester?) next) := by
  have hsuper : slot.supersedes run.snapshot run.epoch = true := by
    simp [Slot.supersedes, hepoch]
  have hpub : s.publication? (.resolve run next) = none := by
    simp [publication?, h.isOpen.get, hr, hsuper]
  have hstep : s.step (.resolve run next) =
      (s, .cycle run.slot run.requester? run.changed next) := by
    simp only [step, resolveRun, h.isOpen.get, hr, publish, hsuper, Bool.true_or, if_true]
  refine .next hstep hpub (.one ?_ rfl)
  have hread := s.readSlot_eq run.slot slot run.requester?
  rw [modifySlot_inFlight h.isOpen.get h.inFlight] at hread
  have hslot : { slot with inFlight := true } = slot := by rw [← h.inFlight]
  rw [hslot] at hread
  simp only [step, cycleSlot, h.isOpen.get, h.isOpen.opened, h.stale, h.unchanged, hread,
    Bool.or_self, Bool.false_eq_true, if_false]

theorem modifySlot_modifySlot (s : Session) (n : Nat) (f f' : Slot → Slot) :
    (s.modifySlot n f).modifySlot n f' = s.modifySlot n (f' ∘ f) := by
  simp only [modifySlot, List.modify_modify_eq]

theorem reached_congr (ht : s'.slots.map Slot.tag = s.slots.map Slot.tag) (hg : s'.graph = s.graph)
    (origin : String) (grammars : List String) (except? : Option String) :
    s'.reached origin grammars except? = s.reached origin grammars except? := by
  simp only [reached, hg, slotOf?_congr ht]

theorem leads_release (hs : s.Sound ledger) (ho : s.IsOpen n slot) {an : Analysis}
    (hfresh : (slot.publish an).isFresh = true) :
    Leads (s.modifySlot n (·.publish an)) (.cycle n requester? (slot.showsChange an) next) []
      (s.conclude n slot requester? an) (.analysed an next) := by
  have hget : (s.modifySlot n (·.publish an)).slots[n]? = some (slot.publish an) := by
    rw [get?_modifySlot, ho.get, Option.map_some]
  have htags : (s.modifySlot n (·.conclude an)).slots.map Slot.tag = s.slots.map Slot.tag :=
    map_tag_modifySlot (f := (·.conclude an)) (fun _ => rfl) n
  have hdone : (s.modifySlot n (·.publish an)).modifySlot n ({ · with inFlight := false }) =
      s.modifySlot n (·.conclude an) := modifySlot_modifySlot s n _ _
  have hcycle : ∀ changed, (s.modifySlot n (·.publish an)).step (.cycle n requester? changed next) =
      (s.modifySlot n (·.publish an)).releaseSlot n (slot.publish an) requester? changed next := by
    intro changed
    simp only [step, cycleSlot, hget, hfresh, Bool.or_true, if_true]
  cases hshow : slot.showsChange an with
  | false =>
    have hstate : s.conclude n slot requester? an = s.modifySlot n (·.conclude an) := by
      simp only [conclude, informed, hshow, Bool.false_eq_true, if_false, bump_nil]
      rfl
    rw [hstate]
    refine .one ((hcycle false).trans ?_) rfl
    simp only [releaseSlot, hdone, Bool.false_eq_true, if_false]
    rfl
  | true =>
    have hinv := invalidateReached_eq (hs.coherent.unique.of_tag htags) slot.id
      (s.graph.name? slot.id).toList requester?
    rw [reached_congr htags rfl] at hinv
    have hquiet : ((s.modifySlot n (·.conclude an)).bump (s.informed slot requester? an)).Quiet :=
      ⟨hs.quiet.scripts, hs.quiet.hooks⟩
    have hstep : (s.modifySlot n (·.publish an)).step (.cycle n requester? true next) =
        ((s.modifySlot n (·.conclude an)).bump (s.informed slot requester? an),
          .notify s.subscribers (.deliver an next)) := by
      rw [hcycle, informed, if_pos hshow]
      simp only [releaseSlot, hdone, if_true]
      have hid : (slot.publish an).id = slot.id := rfl
      have hname : (s.modifySlot n (·.conclude an)).graph.name? = s.graph.name? := rfl
      rw [hid, hname, hinv]
      rfl
    refine .next hstep rfl ((hquiet.leads_notify s.subscribers (.deliver an next)).trans ?_)
    simp only [conclude, hshow, if_true]
    exact .one rfl rfl

theorem leads_conclude (hs : s.Sound ledger) (h : s.Underway run slot)
    (hr : Resolution.attempt run.known run.grammar.tree run.table s.settings.warnUnresolved = .ok r)
    (hepoch : slot.epoch = run.epoch) :
    Leads s (.resolve run next) [run.publication slot s.graph r]
      (s.conclude run.slot slot run.requester? (run.analysis r))
      (.analysed (run.analysis r) next) := by
  have hsuper : slot.supersedes run.snapshot run.epoch = false := by
    simp [Slot.supersedes, hepoch, h.snapshot, h.isOpen.opened]
  have hnewer : slot.isNewer (run.analysis r) = true :=
    (hs.orderly _ _ h.isOpen).isNewer h.stale h.snapshot hepoch.symm
  have hpub : s.publication? (.resolve run next) = some (run.publication slot s.graph r) := by
    simp only [publication?, h.isOpen.get, hr]
    rw [if_neg (by rw [hsuper]; simpa [Run.analysis] using hnewer)]
    rfl
  have hstep : s.step (.resolve run next) = (s.modifySlot run.slot (·.publish (run.analysis r)),
      .cycle run.slot run.requester? (slot.showsChange (run.analysis r)) next) := by
    simp only [step, resolveRun, h.isOpen.get, hr, publish]
    rw [if_neg (by rw [hsuper]; simpa [Run.analysis] using hnewer), h.unchanged, Bool.false_or]
    rfl
  have hfresh : (slot.publish (run.analysis r)).isFresh = true :=
    Slot.isFresh_iff.2 ⟨run.analysis r, rfl, h.snapshot, hepoch.symm⟩
  exact (Leads.publish hstep hpub).trans (leads_release hs h.isOpen hfresh)

theorem leads_askDocument (h : s.Underway run slot)
    (hg : Resolution.attempt run.known run.grammar.tree run.table s.settings.warnUnresolved =
      .error g) (hm : s.source? slot.id g = some m) :
    Leads s (.resolve run next) [] s (.refresh m (some slot.id) (.takeTable run g m next)) := by
  have hm : ((s.graph.provider? g).filter (· != slot.id)).bind s.slotOf? = some m := hm
  refine .one ?_ ?_
  · simp only [step, resolveRun, h.isOpen.get, hg, askFor, hm]
  · simp only [publication?, h.isOpen.get, hg]

theorem leads_askNobody (h : s.Underway run slot)
    (hg : Resolution.attempt run.known run.grammar.tree run.table s.settings.warnUnresolved =
      .error g) (hm : s.source? slot.id g = none) (hh : s.host? = none) :
    Leads s (.resolve run next) [] s (.resolve (run.learn g none) next) := by
  have hm : ((s.graph.provider? g).filter (· != slot.id)).bind s.slotOf? = none := hm
  refine .one ?_ ?_
  · simp only [step, resolveRun, h.isOpen.get, hg, askFor, hm, hh]
  · simp only [publication?, h.isOpen.get, hg]

theorem leads_askHost (hq : s.Quiet) (h : s.Underway run slot)
    (hg : Resolution.attempt run.known run.grammar.tree run.table s.settings.warnUnresolved =
      .error g) (hm : s.source? slot.id g = none) (next : Continuation .analysis) :
    ∃ s', Leads s (.resolve run next) [] s' (.resolve (run.learn g (s.hostTable? g)) next) ∧
      SameDocuments s s' ∧ s'.slots = s.slots ∧ s'.graph = s.graph ∧
      (s.host? = none → s'.events = s.events) ∧ s'.Quiet := by
  cases hh : s.host? with
  | none =>
    have htable : s.hostTable? g = none := by rw [hostTable?, hh]; rfl
    rw [htable]
    exact ⟨s, leads_askNobody h hg hm hh, .refl s, rfl, rfl, fun _ => rfl, hq⟩
  | some host =>
    have hm : ((s.graph.provider? g).filter (· != slot.id)).bind s.slotOf? = none := hm
    have hpub : s.publication? (.resolve run next) = none := by
      simp only [publication?, h.isOpen.get, hg]
    have htable : s.hostTable? g = host.library.table? g := by rw [hostTable?, hh]; rfl
    have hooks := hq.hooks host hh
    have hstep : s.step (.resolve run next) = (s.record (.hostAsked g (s.hostTable? g).isSome),
        .script .host [] (.takeAnswer run g (s.hostTable? g) next)) := by
      simp only [step, resolveRun, h.isOpen.get, hg, askFor, hm, hh, htable, takeHook, record,
        hooks, List.find?_nil]
    refine ⟨_, .next hstep hpub (.next rfl rfl (.one rfl rfl)),
      ⟨rfl, rfl, rfl, rfl, rfl, fun _ _ _ hr => hr⟩, rfl, rfl, fun hno => ?_, ⟨hq.scripts, hq.hooks⟩⟩
    cases hno

/-! ## The end of it -/

/-- Whoever waits for the table is being analysed. -/
def Awaited (s : Session) (requester? : Option String) : Prop :=
  ∀ id, requester? = some id → ∃ m slot, s.IsOpen m slot ∧ slot.id = id ∧ slot.inFlight = true

theorem Awaited.later (h : s.Awaited requester?) (hl : Later none s s') : s'.Awaited requester? := by
  intro id hid
  obtain ⟨m, a, ha, rfl, hf⟩ := h id hid
  obtain ⟨b, hb, ht⟩ := hl.isOpen ha
  exact ⟨m, b, hb, congrArg (·.1) ht, by rw [hl.inFlight (by simp) ha.get hb.get, hf]⟩

theorem Awaited.takeUp (h : s.Awaited requester?) (n : Nat) (slot : Slot) :
    (s.takeUp n slot).Awaited requester? := by
  intro id hid
  obtain ⟨m, a, ha, rfl, hf⟩ := h id hid
  refine ⟨m, _, ha.map_getElem? (s.getElem?_takeUp n slot) tag_takeUp, ?_, ?_⟩ <;> split <;>
    first | rfl | exact hf

/-- The work on slot `n`, which is in flight, comes to an end, and leaves the slot fresh. -/
def Concludes (ledger : List Publication) (s : Session) (c : Control) (n : Nat)
    (next : Continuation .analysis) : Prop :=
  ∃ ps s' slot, Leads s c ps s' (.analysed slot.current next) ∧ Later (some n) s s' ∧
    Subsides s ps s' ∧ s'.Sound (ledger ++ ps) ∧ s'.IsOpen n slot ∧ slot.inFlight = false ∧
    slot.isFresh = true

theorem Concludes.after {c c' : Control} {ps : List Publication}
    (h : Concludes (ledger ++ ps) s' c' n next) (hl : Leads s c ps s' c') (hlater : Later (some n) s s')
    (hsub : Subsides s ps s') : Concludes ledger s c n next := by
  obtain ⟨qs, s'', slot, hlead, hlater', hsub', hs, hrest⟩ := h
  refine ⟨ps ++ qs, s'', slot, hl.trans hlead, hlater.trans hlater', hsub.trans hsub', ?_, hrest⟩
  rwa [← List.append_assoc]

/-- With `k` documents to take up, any document can be made fresh. -/
def Refreshable (k : Nat) : Prop :=
  ∀ {s : Session} {ledger : List Publication} {n : Nat} {slot : Slot} {requester? : Option String},
    s.idle.card ≤ k → s.Sound ledger → s.IsOpen n slot → s.Awaited requester? →
    ∀ next : Continuation .analysis, ∃ ps s' slot', Leads s (.refresh n requester? next) ps s'
      (.analysed slot'.current next) ∧ Later none s s' ∧ Subsides s ps s' ∧ s'.Sound (ledger ++ ps) ∧
      s'.IsOpen n slot' ∧ (slot'.inFlight = true ∨ slot'.isFresh = true)

/-- One question of a run is answered. -/
theorem exists_answer {k : Nat} (hk : Refreshable k) (hidle : s.idle.card ≤ k) (hs : s.Sound ledger)
    (h : s.Underway run slot)
    (hg : Resolution.attempt run.known run.grammar.tree run.table s.settings.warnUnresolved =
      .error g) (next : Continuation .analysis) :
    ∃ ps s' slot' t?, Leads s (.resolve run next) ps s' (.resolve (run.learn g t?) next) ∧
      Later none s s' ∧ Subsides s ps s' ∧ s'.Sound (ledger ++ ps) ∧
      s'.Underway (run.learn g t?) slot' := by
  have hres := h.resolveImports hg
  cases hm : s.source? slot.id g with
  | none =>
    obtain ⟨s', hlead, hsame, hslots, hgraph, hevents, hq⟩ := leads_askHost hs.quiet h hg hm next
    have hlater := Later.of_slots_eq hsame hslots
    have hs' : s'.Sound (ledger ++ []) := by
      rw [List.append_nil]
      exact hs.congr hsame hslots hgraph hq
    obtain ⟨slot', hu, htag⟩ := h.later hs hlater hs'
    have hid : slot'.id = slot.id := congrArg (·.1) htag
    have hsource : s'.source? slot'.id g = none := by rw [hid, hsame.source?, hm]
    refine ⟨[], s', slot', _, hlead, hlater, .of_slots_eq hsame hslots hevents, hs',
      hu.learn (by rwa [hsame.settings]) ?_ ?_⟩
    · rw [visible?, hsource, hsame.settings, if_pos hres, hsame.hostTable?]
    · intro m b hm' _
      rw [hsource] at hm'
      cases hm'
  | some m =>
    obtain ⟨a, ha, -⟩ := hs.coherent.isOpen_of_source? hm
    have hawaited : s.Awaited (some slot.id) := by
      rintro id ⟨⟩
      exact ⟨run.slot, slot, h.isOpen, rfl, h.inFlight⟩
    obtain ⟨ps, s', b, hlead, hlater, hsub, hs', hb, hfresh⟩ := hk hidle hs ha hawaited
      (.takeTable run g m next)
    obtain ⟨slot', hu, htag⟩ := h.later hs hlater hs'
    have hid : slot'.id = slot.id := congrArg (·.1) htag
    have hsource : s'.source? slot'.id g = some m := by rw [hid, hlater.source?, hm]
    refine ⟨ps, s', slot', s'.table? m, ?_, hlater, hsub, hs',
      hu.learn (by rwa [hlater.settings]) ?_ ?_⟩
    · have := (leads_askDocument h hg hm).trans (hlead.trans (.one rfl rfl))
      rwa [List.nil_append, List.append_nil] at this
    · rw [visible?, hsource, hlater.settings, if_pos hres]
      rfl
    · intro m' b' hm' hb'
      obtain rfl : m = m' := Option.some.inj (hsource.symm.trans hm')
      obtain rfl := Option.some.inj (hb.get.symm.trans hb')
      exact hfresh.imp id Slot.isCurrent_of_isFresh

/-- An analysis under way comes to an end. The budget `b` is what unrest there may be; an analysis
that has been overtaken has not used it up. -/
theorem concludes_resolve {k : Nat} (hk : Refreshable k) (b : Nat) (hs : s.Sound ledger)
    (h : s.Underway run slot) (hreq : s.Awaited run.requester?) (hidle : s.idle.card ≤ k)
    (hU : s.Bounded U) (hb : s.unrest ≤ b) (hb' : slot.epoch ≠ run.epoch → s.unrest < b) :
    Concludes ledger s (.resolve run next) run.slot next := by
  induction b using Nat.strong_induction_on generalizing s ledger run slot U with
  | _ b ihb =>
    induction hc : U.length - run.known.length using Nat.strong_induction_on
      generalizing s ledger run slot with
    | _ c ihc =>
      cases ha : Resolution.attempt run.known run.grammar.tree run.table s.settings.warnUnresolved with
      | ok r =>
        by_cases hepoch : slot.epoch = run.epoch
        · refine ⟨_, _, slot.conclude (run.analysis r), leads_conclude hs h ha hepoch,
            later_conclude hs h ha, subsides_conclude hs h ha, hs.conclude h hepoch ha hreq,
            isOpen_conclude_self hs.coherent.distinct h.isOpen, rfl, ?_⟩
          exact Slot.isFresh_iff.2 ⟨_, rfl, h.snapshot, hepoch.symm⟩
        · -- Overtaken: the analysis begins again, with less unrest to come.
          have hlater := later_takeUp hs.coherent.unique h.isOpen
          have hunrest := hlater.unrest
          have hlt := hb' hepoch
          have hs' : (s.takeUp run.slot slot).Sound (ledger ++ []) := by
            rw [List.append_nil]
            exact hs.takeUp h.isOpen
          obtain ⟨V, hV⟩ := (s.takeUp run.slot slot).exists_bounded
          have hidle' : (s.takeUp run.slot slot).idle.card ≤ k :=
            (Finset.card_le_card idle_takeUp_subset).trans hidle
          refine Concludes.after ?_ (leads_restart h ha hepoch) hlater
            (subsides_takeUp hs.coherent.unique h.isOpen h.stale)
          exact ihb s.unrest hlt hs' (underway_firstRun h.isOpen h.stale) (hreq.takeUp _ _) hidle' hV
            hunrest (fun hne => absurd rfl hne)
      | error g =>
        obtain ⟨ps, s', slot', t?, hlead, hlater, hsub, hs', hu⟩ :=
          exists_answer hk hidle hs h ha next
        have hlt := h.length_known_lt hs.coherent hU ha
        have hlen : (run.learn g t?).known.length = run.known.length + 1 := by simp [Run.learn]
        refine Concludes.after ?_ hlead (hlater.excepting _) hsub
        refine ihc (U.length - (run.learn g t?).known.length) (by omega) hs' hu (hreq.later hlater)
          ((Finset.card_le_card hlater.idle_subset).trans hidle) (hU.later hlater hs')
          (hlater.unrest.trans hb) (fun hne => ?_) rfl
        by_cases hepoch : slot.epoch = run.epoch
        · refine (hlater.steady h.isOpen.get hu.isOpen.get ?_).trans_le hb
          rw [hepoch]
          exact Ne.symm hne
        · exact hlater.unrest.trans_lt (hb' hepoch)

theorem leads_refresh (k : Nat) : Refreshable k := by
  induction k with
  | zero =>
    intro s ledger n slot requester? hidle hs ho _ next
    have hf : slot.inFlight = true := by
      by_contra hf
      have hmem : n ∈ s.idle := mem_idle.2 ⟨slot, ho, by simpa using hf⟩
      rw [Finset.card_eq_zero.1 (Nat.le_zero.1 hidle)] at hmem
      cases hmem
    exact ⟨[], s, slot, leads_done ho (.inl hf), .refl s, .refl s, by simpa using hs, ho, .inl hf⟩
  | succ k ih =>
    intro s ledger n slot requester? hidle hs ho hreq next
    by_cases hdone : slot.inFlight = true ∨ slot.isFresh = true
    · exact ⟨[], s, slot, leads_done ho hdone, .refl s, .refl s, by simpa using hs, ho, hdone⟩
    · obtain ⟨hf, hfresh⟩ : slot.inFlight = false ∧ slot.isFresh = false := by simpa using hdone
      have hlater := later_takeUp hs.coherent.unique ho
      have hs' : (s.takeUp n slot).Sound (ledger ++ []) := by
        rw [List.append_nil]
        exact hs.takeUp ho
      have hidle' : (s.takeUp n slot).idle.card ≤ k := by
        have := Finset.card_lt_card (idle_takeUp_ssubset ho hf)
        omega
      obtain ⟨U, hU⟩ := (s.takeUp n slot).exists_bounded
      obtain ⟨ps, s', slot', hlead', hlater', hsub, hsound, ho', hf', hfresh'⟩ :=
        Concludes.after (concludes_resolve ih _ hs' (underway_firstRun ho hfresh) (hreq.takeUp _ _)
          hidle' hU le_rfl (fun hne => absurd rfl hne))
          (leads_takeUp ho hf hfresh) hlater (subsides_takeUp hs.coherent.unique ho hfresh)
      refine ⟨ps, s', slot', hlead', hlater'.all fun ha hb => ?_, hsub, hsound, ho', .inr hfresh'⟩
      rw [Option.some.inj (ha.symm.trans ho.get), Option.some.inj (hb.symm.trans ho'.get)]
      exact ⟨hf, hf'⟩

end Session

end GrammarAtlas
