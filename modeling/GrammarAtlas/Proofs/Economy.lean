import GrammarAtlas.Proofs.Hierarchy
import Mathlib.Data.Set.Card

/-! # How often a query reads texts

Asking about a document reads its text, and the texts of those that it needs. Main statement:
`Session.query_reads_closure`. Among documents that import in no circle, of which none is fresh, each
text is read once, and once more at most if its document uses one that uses another. That document may
be overtaken: it asks for the second, the second for the third, and when the third is published, the
first is invalidated with all others that draw on it but the second (`query_reads_twice_chain`).

It is not overtaken again. By the time it begins anew, all documents that it uses are fresh and stay
so, so that its questions are answered without anything being published (`leads_attempt`). -/

namespace GrammarAtlas

namespace Session
variable {s s' : Session} {n m : Nat} {slot slot' a b : Slot} {id d e g : String}
  {ledger : List Publication} {run : Run} {r : Resolution} {requester? : Option String}
  {n? : Option Nat} {U : List String} {W : Finset String} {next : Continuation .analysis}

/-- The work on slot `n` makes it fresh, and of what is owed and read it leaves `gain` out. -/
def Finishes (W : Finset String) (ledger : List Publication) (s : Session) (c : Control) (n : Nat)
    (next : Continuation .analysis) (gain : Nat) : Prop :=
  ∃ ps s' slot, Leads s c ps s' (.analysed slot.current next) ∧ Advances (some n) s s' ∧
    s'.Sound (ledger ++ ps) ∧ s'.IsOpen n slot ∧ slot.inFlight = false ∧ slot.isFresh = true ∧
    s'.parses + s'.owed W + gain ≤ s.parses + s.owed W

theorem Finishes.after {c c' : Control} {ps : List Publication} {gain gain' : Nat}
    (h : Finishes W (ledger ++ ps) s' c' n next gain') (hl : Leads s c ps s' c')
    (ha : Advances (some n) s s')
    (hcost : s'.parses + s'.owed W + gain ≤ s.parses + s.owed W + gain') :
    Finishes W ledger s c n next gain := by
  obtain ⟨qs, s'', slot, hlead, ha', hs, ho, hf, hfresh, hcost'⟩ := h
  refine ⟨ps ++ qs, s'', slot, hl.trans hlead, ha.trans ha', ?_, ho, hf, hfresh, by omega⟩
  rwa [← List.append_assoc]

theorem Finishes.mono {c : Control} {gain gain' : Nat} (h : Finishes W ledger s c n next gain')
    (hle : gain ≤ gain') : Finishes W ledger s c n next gain := by
  obtain ⟨ps, s', slot, hlead, ha, hs, ho, hf, hfresh, hcost⟩ := h
  exact ⟨ps, s', slot, hlead, ha, hs, ho, hf, hfresh, by omega⟩

/-- An analysis with nothing left to ask, which nobody has overtaken. -/
theorem finishes_conclude (hs : s.Sound ledger) (hg : s.Grounded) (h : s.Underway run slot)
    (hr : Resolution.attempt run.known run.grammar.tree run.table s.settings.warnUnresolved = .ok r)
    (hepoch : slot.epoch = run.epoch) (hready : ∀ e, Uses s.text? slot.id e → s.Fresh e)
    (hreq : s.Awaited run.requester?) (hbeneath : s.Beneath run.requester? slot.id)
    (hW : slot.id ∈ W) :
    Finishes W ledger s (.resolve run next) run.slot next (price s.text? slot.id) := by
  have hc := hs.coherent
  have ha := advances_conclude hs hg h hr hepoch hready hbeneath
  have hopen : (s.conclude run.slot slot run.requester? (run.analysis r)).IsOpen run.slot
      (slot.conclude (run.analysis r)) := isOpen_conclude_self hc.distinct h.isOpen
  have hfresh : (slot.conclude (run.analysis r)).isFresh = true :=
    Slot.isFresh_iff.2 ⟨_, rfl, h.snapshot, hepoch.symm⟩
  have hstale : ¬ s.Fresh slot.id := by
    rw [hc.unique.fresh_iff h.isOpen, h.stale]
    exact Bool.false_ne_true
  have hparses : (s.conclude run.slot slot run.requester? (run.analysis r)).parses = s.parses := by
    rw [conclude, heard_parses, bump, modifySlot]
  refine ⟨_, _, _, leads_conclude hs h hr hepoch, ha, hs.conclude h hepoch hr hreq, hopen, rfl, hfresh,
    ?_⟩
  rw [hparses, Nat.add_assoc]
  exact Nat.add_le_add_left
    (owed_add_price_le ha.text? ha.fresh hW hstale ⟨_, _, hopen, rfl, hfresh⟩) _

/-- A question leads to a document that the run's document uses, unless that is fresh already. -/
theorem uses_or_fresh (hs : s.Sound ledger) (hh : s.Hierarchic) (hg : s.Grounded)
    (h : s.Underway run slot) (hseen : s.Seen run slot)
    (he : Resolution.attempt run.known run.grammar.tree run.table s.settings.warnUnresolved = .error g)
    (hm : s.source? slot.id g = some m) (hb : s.IsOpen m b) :
    Uses s.text? slot.id b.id ∨ b.isFresh = true := by
  have hc := hs.coherent
  have hdeclared : s.declared b.id = some g := by
    obtain ⟨b', hb', -, -, hsniff⟩ := hc.isOpen_of_source? hm
    rw [hc.unique.declared hb, hb.eq hb', hsniff]
  obtain ⟨-, hown | ⟨e, t, hk, hmem⟩⟩ := Resolution.attempt_error he
  · rw [h.table] at hown
    exact .inl (hc.unique.uses h.isOpen hown hdeclared)
  · -- The grammar is one that a known table names. The document of that is fresh.
    have hv := h.answers e _ hk
    rw [visible?, if_pos hh.resolves] at hv
    cases hk' : s.source? slot.id e with
    | none => simp [hk', hostTable?, hh.host] at hv
    | some k =>
      obtain ⟨a, ha, -⟩ := hc.isOpen_of_source? hk'
      have hf := hseen e _ k a hk hk' ha
      obtain ⟨p, hp, hpl, -⟩ := Slot.isFresh_iff.1 hf
      simp only [hk', ha.get, Option.bind_some, hp, Option.map_some, Option.some.injEq] at hv
      rw [hv, (hs.orderly k a ha).table p hp, hpl] at hmem
      exact .inr ((hc.unique.fresh_iff hb).1
        (hg _ _ ⟨k, a, ha, rfl, hf⟩ (hc.unique.uses ha hmem hdeclared)))

theorem Seen.learn (hseen : s.Seen run slot) {t? : Option SymbolTable}
    (hf : ∀ m b, s.source? slot.id g = some m → s.IsOpen m b → b.isFresh = true) :
    s.Seen (run.learn g t?) slot := by
  intro e t?' m b hk hm hb
  rcases List.mem_append.1 hk with hk | hk
  · exact hseen e t?' m b hk hm hb
  · obtain ⟨rfl, rfl⟩ : e = g ∧ t?' = t? := by simpa using hk
    exact hf m b hm hb

/-- A question about a grammar that no document provides, or a fresh one, is answered at once. -/
theorem leads_answer_fresh (hs : s.Sound ledger) (hh : s.Hierarchic) (h : s.Underway run slot)
    (hseen : s.Seen run slot)
    (he : Resolution.attempt run.known run.grammar.tree run.table s.settings.warnUnresolved = .error g)
    (hf : ∀ m b, s.source? slot.id g = some m → s.IsOpen m b → b.isFresh = true)
    (next : Continuation .analysis) :
    Leads s (.resolve run next) [] s (.resolve (run.learn g (s.visible? slot.id g)) next) ∧
      s.Underway (run.learn g (s.visible? slot.id g)) slot ∧
      s.Seen (run.learn g (s.visible? slot.id g)) slot := by
  refine ⟨?_, h.learn he rfl fun m b hm hb => ?_, hseen.learn hf⟩
  · rw [visible?, if_pos hh.resolves]
    cases hm : s.source? slot.id g with
    | none =>
      have hno : s.hostTable? g = none := by rw [hostTable?, hh.host]; rfl
      rw [hno]
      exact leads_askNobody h he hm hh.host
    | some m =>
      obtain ⟨b, hb, -⟩ := hs.coherent.isOpen_of_source? hm
      exact (leads_askDocument h he hm).trans
        ((leads_done hb (.inr (hf m b hm hb))).trans (.one rfl rfl))
  · obtain ⟨b', hb', -⟩ := hs.coherent.isOpen_of_source? hm
    obtain rfl := Option.some.inj (hb.symm.trans hb'.get)
    exact .inr (Slot.isCurrent_of_isFresh (hf m b hm hb'))

/-- An analysis whose document uses fresh documents only gets through without any work. -/
theorem leads_attempt (hs : s.Sound ledger) (hh : s.Hierarchic) (hg : s.Grounded)
    (h : s.Underway run slot) (hseen : s.Seen run slot) (hU : s.Bounded U)
    (hready : ∀ e, Uses s.text? slot.id e → s.Fresh e) (next : Continuation .analysis) :
    ∃ run' r, Leads s (.resolve run next) [] s (.resolve run' next) ∧ s.Underway run' slot ∧
      Resolution.attempt run'.known run'.grammar.tree run'.table s.settings.warnUnresolved = .ok r ∧
      run'.slot = run.slot ∧ run'.epoch = run.epoch ∧ run'.requester? = run.requester? := by
  induction hk : U.length - run.known.length using Nat.strong_induction_on generalizing run with
  | _ k ih =>
    cases he : Resolution.attempt run.known run.grammar.tree run.table s.settings.warnUnresolved with
    | ok r => exact ⟨run, r, .refl _ _, h, he, rfl, rfl, rfl⟩
    | error g =>
      have hf : ∀ m b, s.source? slot.id g = some m → s.IsOpen m b → b.isFresh = true := by
        intro m b hm hb
        rcases uses_or_fresh hs hh hg h hseen he hm hb with hu | hf
        · exact (hs.coherent.unique.fresh_iff hb).1 (hready _ hu)
        · exact hf
      obtain ⟨hlead, h', hseen'⟩ := leads_answer_fresh hs hh h hseen he hf next
      have hlt := h.length_known_lt hs.coherent hU he
      have hlen : (run.learn g (s.visible? slot.id g)).known.length = run.known.length + 1 := by
        simp [Run.learn]
      obtain ⟨run', r, hlead', hrest⟩ := ih _ (by omega) h' hseen' rfl
      exact ⟨run', r, hlead.trans hlead', hrest⟩

/-- What the costs are reckoned in: documents without circles, of which `W` has all that its members
use. -/
structure Tidy (W : Finset String) (ledger : List Publication) (s : Session) : Prop where
  sound : s.Sound ledger
  hierarchic : s.Hierarchic
  grounded : s.Grounded
  closed : ∀ d ∈ W, ∀ e, Uses s.text? d e → e ∈ W

theorem Tidy.advance {ledger' : List Publication} (h : s.Tidy W ledger) (ha : Advances n? s s')
    (hs' : s'.Sound ledger') : s'.Tidy W ledger' := by
  refine ⟨hs', ha.hierarchic h.hierarchic, ha.grounded, ?_⟩
  rw [ha.text?]
  exact h.closed

/-- An analysis under way that is overtaken only if its document waits for one that waits itself. -/
structure Undertaken (W : Finset String) (s : Session) (run : Run) (slot : Slot) : Prop
    extends s.Underway run slot where
  seen : s.Seen run slot
  beneath : s.Beneath run.requester? slot.id
  awaited : s.Awaited run.requester?
  mem : slot.id ∈ W
  overtaken : slot.epoch ≠ run.epoch → Relays s.text? slot.id

theorem Beneath.later (h : s.Beneath requester? d) (hl : Later none s s') : s'.Beneath requester? d := by
  intro m b hb hf hne
  obtain ⟨a, ha, htag⟩ := hb.of_tag hl.tags.symm
  have hid : a.id = b.id := congrArg (·.1) htag
  rw [hl.inFlight (by simp) ha.get hb.get] at hf
  rw [← hid] at hne ⊢
  rw [hl.text?]
  exact h m a ha hf hne

theorem undertaken_firstRun (ht : s.Tidy W ledger) (ho : s.IsOpen n slot) (hf : slot.isFresh = false)
    (hW : slot.id ∈ W) (hreq : s.Awaited requester?) (hbeneath : s.Beneath requester? slot.id) :
    (s.takeUp n slot).Undertaken W (s.firstRun n slot requester?) { slot with inFlight := true } := by
  refine ⟨underway_firstRun ho hf, fun g t? m b hk => ?_, fun m b hb hbf hne => ?_,
    hreq.takeUp n slot, hW, fun hne => absurd rfl hne⟩
  · have hk : (g, t?) ∈ firstKnown s.settings (.ofText slot.latest.text) := hk
    rw [firstKnown, if_pos ht.hierarchic.resolves] at hk
    cases hk
  · obtain ⟨a, ha, rfl⟩ := hb.of_getElem? (s.getElem?_takeUp n slot) tag_takeUp
    have hm : n ≠ m := by
      rintro rfl
      rw [if_pos rfl, ha.eq ho] at hne
      exact hne rfl
    rw [if_neg hm] at hbf hne ⊢
    rw [(sameDocuments_takeUp ht.sound.coherent.unique ho).text?]
    exact hbeneath m a ha hbf hne

/-- With `k` documents to take up, one that is not fresh is made so, and what is read is owed. -/
def Frugal (W : Finset String) (k : Nat) : Prop :=
  ∀ {s : Session} {ledger : List Publication} {n : Nat} {slot : Slot} {requester? : Option String},
    s.idle.card ≤ k → s.Tidy W ledger → s.IsOpen n slot → slot.inFlight = false →
    slot.isFresh = false → slot.id ∈ W → s.Awaited requester? → s.Beneath requester? slot.id →
    ∀ next : Continuation .analysis, ∃ ps s' slot', Leads s (.refresh n requester? next) ps s'
      (.analysed slot'.current next) ∧ Advances none s s' ∧ s'.Sound (ledger ++ ps) ∧
      s'.IsOpen n slot' ∧ slot'.isFresh = true ∧ s'.parses + s'.owed W ≤ s.parses + s.owed W

namespace Undertaken
variable {k : Nat} (h : s.Undertaken W run slot)
include h

/-- A document that the run's document uses is not being analysed, for that would be a circle. -/
theorem not_inFlight (ht : s.Tidy W ledger) (hb : s.IsOpen m b) (hu : Uses s.text? slot.id b.id) :
    b.inFlight = false := by
  by_contra hf
  rw [Bool.not_eq_false] at hf
  by_cases hid : b.id = slot.id
  · exact ht.hierarchic.acyclic _ (.single (hid ▸ hu))
  · obtain ⟨e, -, he, hpath⟩ := h.beneath m b hb hf hid
    exact ht.hierarchic.acyclic _ (.head hu (.tail' hpath he))

/-- Whoever is in flight waits for a document that the run's document asks for. -/
theorem beneath_used (hu : Uses s.text? slot.id d) : s.Beneath (some slot.id) d := by
  intro m a ha hf hne
  refine ⟨slot.id, rfl, hu, ?_⟩
  by_cases hid : a.id = slot.id
  · rw [hid]
  · obtain ⟨e, -, he, hpath⟩ := h.beneath m a ha hf hid
    exact hpath.tail he

/-- One question is answered. -/
theorem exists_answer (ht : s.Tidy W ledger) (hk : Frugal W k) (hidle : s.idle.card ≤ k)
    (he : Resolution.attempt run.known run.grammar.tree run.table s.settings.warnUnresolved = .error g)
    (next : Continuation .analysis) :
    ∃ ps s' slot' t?, Leads s (.resolve run next) ps s' (.resolve (run.learn g t?) next) ∧
      Advances none s s' ∧ s'.Sound (ledger ++ ps) ∧ s'.Undertaken W (run.learn g t?) slot' ∧
      s'.parses + s'.owed W ≤ s.parses + s.owed W := by
  by_cases hf : ∀ m b, s.source? slot.id g = some m → s.IsOpen m b → b.isFresh = true
  · obtain ⟨hlead, hu, hseen⟩ :=
      leads_answer_fresh ht.sound ht.hierarchic h.toUnderway h.seen he hf next
    refine ⟨[], s, slot, _, hlead, .refl ht.grounded, by simpa using ht.sound,
      ⟨hu, hseen, h.beneath, h.awaited, h.mem, h.overtaken⟩, le_rfl⟩
  · push Not at hf
    obtain ⟨m, b, hm, hb, hstale⟩ := hf
    have hu : Uses s.text? slot.id b.id :=
      (uses_or_fresh ht.sound ht.hierarchic ht.grounded h.toUnderway h.seen he hm hb).resolve_right
        hstale
    have hawaited : s.Awaited (some slot.id) := by
      rintro id ⟨⟩
      exact ⟨run.slot, slot, h.isOpen, rfl, h.inFlight⟩
    obtain ⟨ps, s', b', hlead, ha, hs', hb', hfresh, hcost⟩ := hk hidle ht hb
      (h.not_inFlight ht hb hu) (Bool.not_eq_true _ ▸ hstale) (ht.closed _ h.mem _ hu) hawaited
      (h.beneath_used hu) (.takeTable run g m next)
    obtain ⟨slot', hunder, htag⟩ := h.toUnderway.later ht.sound ha.toLater hs'
    have hid : slot'.id = slot.id := congrArg (·.1) htag
    have hsource : s'.source? slot'.id g = some m := by rw [hid, ha.source?, hm]
    have hgot : ∀ m' c, s'.source? slot'.id g = some m' → s'.IsOpen m' c → c.isFresh = true := by
      intro m' c hm' hc
      obtain rfl := Option.some.inj (hsource.symm.trans hm')
      rwa [hc.eq hb']
    have hseen : s'.Seen run slot' := by
      intro e t? m' c hk' hm' hc
      rw [hid, ha.source?] at hm'
      obtain ⟨a, haa, htag'⟩ := hc.of_tag ha.tags.symm
      have hca : a.id = c.id := congrArg (·.1) htag'
      rw [← hs'.coherent.unique.fresh_iff hc, ← hca]
      exact ha.fresh _ ⟨m', a, haa, rfl, h.seen e t? m' a hk' hm' haa⟩
    refine ⟨ps, s', slot', s'.table? m, ?_, ha, hs', ⟨hunder.learn ?_ ?_ ?_, hseen.learn hgot, ?_,
      h.awaited.later ha.toLater, hid ▸ h.mem, fun hne => ?_⟩, hcost⟩
    · have := (leads_askDocument h.toUnderway he hm).trans (hlead.trans (.one rfl rfl))
      rwa [List.nil_append, List.append_nil] at this
    · rwa [ha.settings]
    · rw [visible?, hsource, ha.settings, if_pos ht.hierarchic.resolves]
      rfl
    · intro m' c hm' hc
      obtain rfl := Option.some.inj (hsource.symm.trans hm')
      obtain rfl := Option.some.inj (hb'.get.symm.trans hc)
      exact .inr (Slot.isCurrent_of_isFresh hfresh)
    · rw [hid]
      exact h.beneath.later ha.toLater
    · rw [ha.text?, hid]
      by_cases hepoch : slot.epoch = run.epoch
      · refine ha.epochs (by simp) h.isOpen.get hunder.isOpen.get h.inFlight ?_
        rw [hepoch]
        exact Ne.symm hne
      · exact h.overtaken hepoch

/-- An analysis with nothing left to ask ends. It does so in a second attempt if its document waited
for one that waited itself, and that attempt is not disturbed. -/
theorem finishes_attempted (ht : s.Tidy W ledger)
    (hr : Resolution.attempt run.known run.grammar.tree run.table s.settings.warnUnresolved = .ok r) :
    Finishes W ledger s (.resolve run next) run.slot next 1 := by
  have hs := ht.sound
  have hready : ∀ e, Uses s.text? slot.id e → s.Fresh e := fun e =>
    h.seen.fresh ht.hierarchic hs.coherent h.toUnderway hr
  by_cases hepoch : slot.epoch = run.epoch
  · have hprice := price_pos s.text? slot.id
    exact (finishes_conclude hs ht.grounded h.toUnderway hr hepoch hready h.awaited h.beneath
      h.mem).mono hprice
  · -- The documents that are used are fresh by now, so nobody will be published meanwhile.
    have ha := advances_takeUp hs ht.grounded h.isOpen
    have hs' := hs.takeUp h.isOpen
    have ht' := ht.advance ha hs'
    have h' := undertaken_firstRun ht h.isOpen h.stale h.mem h.awaited h.beneath
    obtain ⟨V, hV⟩ := (s.takeUp run.slot slot).exists_bounded
    have hready' : ∀ e, Uses (s.takeUp run.slot slot).text? slot.id e →
        (s.takeUp run.slot slot).Fresh e := by
      intro e hu
      rw [ha.text?] at hu
      exact ha.fresh e (hready e hu)
    obtain ⟨run', r', hlead, hunder, hr', hn, hepoch', hreq'⟩ :=
      leads_attempt hs' ht'.hierarchic ht'.grounded h'.toUnderway h'.seen hV hready' next
    have hn : run'.slot = run.slot := hn
    have hfinish : Finishes W ledger (s.takeUp run.slot slot) (.resolve run' next) run'.slot next _ :=
      finishes_conclude hs' ht'.grounded hunder hr' hepoch'.symm hready' (hreq' ▸ h'.awaited)
        (hreq' ▸ h'.beneath) h.mem
    rw [hn, ha.text?, price_of_relays (h.overtaken hepoch), ← List.append_nil ledger] at hfinish
    have hcost := cost_takeUp (W := W) hs h.isOpen
    exact hfinish.after ((leads_restart h.toUnderway hr hepoch).trans hlead) ha (by omega)

end Undertaken

theorem finishes_resolve {k : Nat} (hk : Frugal W k) (hidle : s.idle.card ≤ k) (ht : s.Tidy W ledger)
    (h : s.Undertaken W run slot) (hU : s.Bounded U) (next : Continuation .analysis) :
    Finishes W ledger s (.resolve run next) run.slot next 1 := by
  induction hc : U.length - run.known.length using Nat.strong_induction_on
    generalizing s ledger run slot with
  | _ c ih =>
    cases he : Resolution.attempt run.known run.grammar.tree run.table s.settings.warnUnresolved with
    | ok r => exact h.finishes_attempted ht he
    | error g =>
      obtain ⟨ps, s', slot', t?, hlead, ha, hs', h', hcost⟩ := h.exists_answer ht hk hidle he next
      have hlt := h.toUnderway.length_known_lt ht.sound.coherent hU he
      have hlen : (run.learn g t?).known.length = run.known.length + 1 := by simp [Run.learn]
      have hrest := ih _ (by omega) ((Finset.card_le_card ha.idle_subset).trans hidle)
        (ht.advance ha hs') h' (hU.later ha.toLater hs') rfl
      exact Finishes.after hrest hlead (ha.excepting _) (by omega)

theorem frugal (W : Finset String) (k : Nat) : Frugal W k := by
  induction k with
  | zero =>
    intro s ledger n slot requester? hidle _ ho hf
    have hmem : n ∈ s.idle := mem_idle.2 ⟨slot, ho, hf⟩
    rw [Finset.card_eq_zero.1 (Nat.le_zero.1 hidle)] at hmem
    cases hmem
  | succ k ih =>
    intro s ledger n slot requester? hidle ht ho hf hstale hW hreq hbeneath next
    have ha := advances_takeUp ht.sound ht.grounded ho
    have hs' : (s.takeUp n slot).Sound (ledger ++ []) := by
      rw [List.append_nil]
      exact ht.sound.takeUp ho
    have hidle' : (s.takeUp n slot).idle.card ≤ k := by
      have := Finset.card_lt_card (idle_takeUp_ssubset ho hf)
      omega
    obtain ⟨U, hU⟩ := (s.takeUp n slot).exists_bounded
    have hfinish := finishes_resolve ih hidle' (ht.advance ha hs')
      (undertaken_firstRun ht ho hstale hW hreq hbeneath) hU next
    have hcost : (s.takeUp n slot).parses + (s.takeUp n slot).owed W + 0 ≤
        s.parses + s.owed W + 1 := (cost_takeUp ht.sound ho).le
    obtain ⟨ps, s', slot', hlead, ha', hsound, ho', hf', hfresh, hcost'⟩ :=
      hfinish.after (leads_takeUp ho hf hstale) ha hcost
    refine ⟨ps, s', slot', hlead, ha'.all fun ha hb => ?_, hsound, ho', hfresh, hcost'⟩
    rw [Option.some.inj (ha.symm.trans ho.get), Option.some.inj (hb.symm.trans ho'.get)]
    exact ⟨hf, hf'⟩

/-! ## Top-level queries -/

/-- The documents that a document needs, itself included. -/
def importClosure (texts : String → Option String) (id : String) : Set String :=
  {d | Relation.ReflTransGen (Uses texts) id d}

theorem importClosure_subset (s : Session) (id : String) :
    importClosure s.text? id ⊆ {d | d = id ∨ d ∈ s.documents} := by
  intro d hd
  rcases Relation.ReflTransGen.cases_tail hd with rfl | ⟨e, -, -, g, -, -, hg⟩
  · exact .inl rfl
  · obtain ⟨text, htext, -⟩ := Option.bind_eq_some_iff.1 hg
    exact .inr (mem_documents_of_text? htext)

theorem finite_importClosure (s : Session) (id : String) : (importClosure s.text? id).Finite :=
  (insert id s.documents.toFinset).finite_toSet.subset fun d hd => by
    simpa using s.importClosure_subset id hd

theorem owed_le_card (hfin : (importClosure s.text? id).Finite) :
    s.owed hfin.toFinset ≤ (importClosure s.text? id).ncard +
      {d ∈ importClosure s.text? id | Relays s.text? d}.ncard := by
  classical
  have hrelays : {d ∈ importClosure s.text? id | Relays s.text? d} =
      (hfin.toFinset.filter (Relays s.text?) : Set String) := by
    ext d
    simp
  rw [hrelays, Set.ncard_coe_finset, Set.ncard_eq_toFinset_card _ hfin, Finset.card_filter,
    Finset.card_eq_sum_ones, ← Finset.sum_add_distrib, owed]
  refine Finset.sum_le_sum fun d _ => ?_
  rw [price]
  split <;> split <;> omega

theorem Standing.leads_frugally (h : s.Standing ledger) (hh : s.host? = none)
    (hdistinct : ∀ d e g, s.declared d = some g → s.declared e = some g → d = e)
    (hacyclic : ∀ d, ¬ Relation.TransGen (Uses s.text?) d d)
    (hstale : ∀ m b, s.IsOpen m b → b.isFresh = false) (ho : s.IsOpen n slot)
    (next : Continuation .analysis) :
    ∃ ps s' an, Leads s (.refresh n none next) ps s' (.analysed an next) ∧
      s'.parses ≤ s.parses + (importClosure s.text? slot.id).ncard +
        {d ∈ importClosure s.text? slot.id | Relays s.text? d}.ncard := by
  have hfin := s.finite_importClosure slot.id
  have howed := s.owed_le_card hfin
  by_cases hres : s.settings.resolveImports = true
  · have hgrounded : s.Grounded := by
      rintro d e ⟨m, b, hb, rfl, hf⟩
      rw [hstale m b hb] at hf
      cases hf
    have htidy : s.Tidy hfin.toFinset ledger := by
      refine ⟨h.sound, ⟨hh, hres, hdistinct, hacyclic⟩, hgrounded, fun d hd e hu => ?_⟩
      rw [Set.Finite.mem_toFinset] at hd ⊢
      exact hd.tail hu
    have hbeneath : s.Beneath none slot.id := by
      intro m a ha hf
      rw [h.atRest.isOpen ha] at hf
      cases hf
    have hawaited : s.Awaited none := by rintro id ⟨⟩
    obtain ⟨ps, s', slot', hlead, -, -, -, -, hcost⟩ := frugal hfin.toFinset s.idle.card le_rfl htidy ho
      (h.atRest.isOpen ho) (hstale n slot ho) (hfin.mem_toFinset.2 .refl) hawaited hbeneath next
    exact ⟨ps, s', _, hlead, by omega⟩
  · -- Nothing is looked up in imports, so the document is read and that is all.
    have hunder : (s.takeUp n slot).Underway (s.firstRun n slot none) { slot with inFlight := true } :=
      underway_firstRun ho (hstale n slot ho)
    obtain ⟨r, hr⟩ := Resolution.attempt_closedBook (Grammar.parse slot.latest.text).tree
      (.ofText slot.latest.text) s.settings.warnUnresolved
    have hknown : (s.firstRun n slot none).known = Resolution.closedBook (.ofText slot.latest.text) := by
      rw [firstRun, firstKnown, if_neg hres]
    rw [← hknown] at hr
    have hlead : Leads s (.refresh n none next) _ _ (.analysed _ next) :=
      (leads_takeUp ho (h.atRest.isOpen ho) (hstale n slot ho)).trans
        (leads_conclude (h.sound.takeUp ho) hunder hr rfl)
    have hpos : 0 < (importClosure s.text? slot.id).ncard :=
      (Set.ncard_pos hfin).2 ⟨slot.id, .refl⟩
    refine ⟨_, _, _, hlead, ?_⟩
    rw [conclude, heard_parses]
    show s.parses + 1 ≤ _
    omega

theorem query_reads_closure {settings : Settings} {text? : Option String}
    {texts : String → Option String} (h : Reached settings none ledger s) (id : String) (query : Query)
    (htexts : (Operation.query id text? query).filed s.text? = texts)
    (hstale : ∀ slot ∈ s.openSlots, slot.isFresh = false)
    (hdistinct : ∀ d e g, (texts d).bind Grammar.sniffName? = some g →
      (texts e).bind Grammar.sniffName? = some g → d = e)
    (hacyclic : ∀ d, ¬ Relation.TransGen (Uses texts) d d) :
    ∃ steps r s', s.perform steps (.query id text? query) = some (r, s') ∧
      s'.parses ≤ s.parses + (importClosure texts id).ncard +
        {d ∈ importClosure texts id | Relays texts d}.ncard := by
  obtain ⟨hs, -, hhost⟩ := h.standing
  have hstale : ∀ m b, s.IsOpen m b → b.isFresh = false := fun m b hb =>
    hstale b (List.mem_filter.2 ⟨List.mem_of_getElem? hb.get, by simp [hb.opened]⟩)
  subst htexts
  cases text? with
  | none =>
    cases hn : s.slotOf? id with
    | none =>
      have hlead : Leads s (.perform (.query id none query) .stop) [] s
          (.replied (.unknownDocument id) .stop) := .one (by rw [step, begin, hn]) rfl
      obtain ⟨steps, hrun, -⟩ := hlead.runFor
      exact ⟨steps, _, s, hrun, by omega⟩
    | some n =>
      obtain ⟨slot, ho, rfl⟩ := isOpen_of_slotOf? hn
      obtain ⟨ps, s', an, hlead, hparses⟩ :=
        hs.leads_frugally hhost hdistinct hacyclic hstale ho (.answer query .stop)
      have hbegin : Leads s (.perform (.query slot.id none query) .stop) [] s
          (.refresh n none (.answer query .stop)) := .one (by rw [step, begin, hn]) rfl
      obtain ⟨steps, hrun, -⟩ := (hbegin.trans (hlead.trans (.one rfl rfl))).runFor
      exact ⟨steps, _, s', hrun, hparses⟩
  | some text =>
    obtain ⟨s₁, n, hconsult, hr, hn⟩ := hs.leads_consult id text query .stop
    obtain ⟨slot, ho, rfl⟩ := isOpen_of_slotOf? hn
    have htext : (Operation.query slot.id (some text) query).filed s.text? = s₁.text? := hr.text.symm
    rw [htext] at hdistinct hacyclic ⊢
    have hstale₁ : ∀ m b, s₁.IsOpen m b → b.isFresh = false := by
      intro m b hb
      rw [Bool.eq_false_iff]
      intro hf
      rw [hstale m b (hr.fresh m b hb hf)] at hf
      cases hf
    obtain ⟨ps, s', an, hlead, hparses⟩ := hr.standing.leads_frugally (hr.host.trans hhost) hdistinct
      hacyclic hstale₁ ho (.answer query .stop)
    obtain ⟨steps, hrun, -⟩ := (hconsult.trans (hlead.trans (.one rfl rfl))).runFor
    rw [hr.parses] at hparses
    exact ⟨steps, _, s', hrun, hparses⟩

/-- Three documents, each of which imports the next one. -/
def chain : List Operation :=
  [.update "a.g4" "grammar A;\nimport B;\na : b ;\n",
    .update "b.g4" "grammar B;\nimport C;\nb : c ;\n", .update "c.g4" "grammar C;\nc : 'c' ;\n"]

theorem exists_chain :
    ∃ ledger s x, Reached {} none ledger s ∧ s.documents = ["a.g4", "b.g4", "c.g4"] ∧ s.parses = 0 ∧
      (∀ slot ∈ s.openSlots, slot.published? = none) ∧
      (∀ d e g, s.declared d = some g → s.declared e = some g → d = e) ∧
      (∀ d e, Uses s.text? d e → d ∈ s.documents ∧ e ∈ s.documents ∧ d < e) ∧
      s.perform 40 (.query "a.g4" none .diagnostics) = some x ∧ x.2.parses = 4 := by
  have hend : ∃ u, u ∈ performAll 40 [] (start {} none) chain ∧
      u.2.documents = ["a.g4", "b.g4", "c.g4"] ∧ u.2.parses = 0 ∧
      (∀ slot ∈ u.2.openSlots, slot.published?.isNone) ∧
      (∀ d ∈ u.2.documents, ∀ e ∈ u.2.documents, u.2.declared d = u.2.declared e → d = e) ∧
      (∀ d ∈ u.2.documents, ∀ e ∈ u.2.documents, d < e ∨
        ∀ g ∈ (SymbolTable.ofTree (Grammar.parse ((u.2.text? d).getD "")).tree).importNames,
          u.2.declared e ≠ some g) ∧
      ∃ x, x ∈ u.2.perform 40 (.query "a.g4" none .diagnostics) ∧ x.2.parses = 4 := by
    decide +kernel
  obtain ⟨⟨ledger, s⟩, hs, hdocuments, hzero, hnew, hdistinct, huses, x, hx, hparses⟩ := hend
  have hstart : Reached {} none [] (start {} none) := .start
  have hmem : ∀ {d g}, s.declared d = some g → d ∈ s.documents := by
    intro d g hd
    obtain ⟨text, htext, -⟩ := Option.bind_eq_some_iff.1 hd
    exact mem_documents_of_text? htext
  refine ⟨ledger, s, x, hstart.performAll (by simp [chain, Operation.isPassive]) hs, hdocuments, hzero,
    fun slot hslot => Option.isNone_iff_eq_none.1 (hnew slot hslot),
    fun d e g hd he => hdistinct d (hmem hd) e (hmem he) (hd.trans he.symm), fun d e hu => ?_, hx,
    hparses⟩
  obtain ⟨text, g, htext, hg, he⟩ := hu
  have hd := mem_documents_of_text? htext
  refine ⟨hd, hmem he, (huses d hd e (hmem he)).resolve_right fun hno => hno g ?_ he⟩
  rw [SymbolTable.ofText_eq] at hg
  rwa [htext]

section chain
variable (hdocuments : s.documents = ["a.g4", "b.g4", "c.g4"])
  (huses : ∀ d e, Uses s.text? d e → d ∈ s.documents ∧ e ∈ s.documents ∧ d < e)
include huses

theorem acyclic_of_ascending (d : String) : ¬ Relation.TransGen (Uses s.text?) d d := by
  have hlt : ∀ {d e}, Relation.TransGen (Uses s.text?) d e → d < e := by
    intro d e h
    induction h with
    | single h => exact (huses _ _ h).2.2
    | tail _ h ih => exact ih.trans (huses _ _ h).2.2
  exact fun h => lt_irrefl d (hlt h)

omit huses in
include hdocuments in
theorem ncard_closure_chain : (importClosure s.text? "a.g4").ncard ≤ 3 := by
  have hsub : importClosure s.text? "a.g4" ⊆ (s.documents.toFinset : Set String) := by
    intro d hd
    rcases s.importClosure_subset "a.g4" hd with rfl | hd
    · simp [hdocuments]
    · simpa using hd
  refine (Set.ncard_le_ncard hsub).trans ?_
  rw [Set.ncard_coe_finset, hdocuments]
  decide

include hdocuments in
theorem ncard_relays_chain :
    {d ∈ importClosure s.text? "a.g4" | Relays s.text? d}.ncard ≤ 1 := by
  refine (Set.ncard_le_ncard (t := {"a.g4"}) ?_).trans (Set.ncard_singleton _).le
  rintro d ⟨-, e, f, hde, hef⟩
  obtain ⟨hd, he, hlt⟩ := huses _ _ hde
  obtain ⟨-, hf, hlt'⟩ := huses _ _ hef
  rw [hdocuments] at hd he hf
  simp only [List.mem_cons, List.not_mem_nil, or_false] at hd he hf
  rcases hd with rfl | rfl | rfl <;> rcases he with rfl | rfl | rfl <;>
    first
    | rfl
    | exact absurd hlt (by decide)
    | rcases hf with rfl | rfl | rfl <;> exact absurd hlt' (by decide)

end chain

theorem query_reads_closure_chain :
    ∃ ledger s steps r s', Reached {} none ledger s ∧ s.documents = ["a.g4", "b.g4", "c.g4"] ∧
      s.perform steps (.query "a.g4" none .diagnostics) = some (r, s') ∧ s'.parses ≤ 3 + 1 := by
  obtain ⟨ledger, s, -, hr, hdocuments, hzero, hnew, hdistinct, huses, -⟩ := exists_chain
  have hstale : ∀ slot ∈ s.openSlots, slot.isFresh = false := by
    intro slot hslot
    rw [Slot.isFresh, hnew slot hslot]
  have htexts : (Operation.query "a.g4" none .diagnostics).filed s.text? = s.text? := rfl
  obtain ⟨steps, r, s', hrun, hparses⟩ := query_reads_closure hr "a.g4" .diagnostics htexts hstale
    hdistinct (acyclic_of_ascending huses)
  have hclosure := ncard_closure_chain hdocuments
  have hrelays := ncard_relays_chain hdocuments huses
  exact ⟨ledger, s, steps, r, s', hr, hdocuments, hrun, by omega⟩

/-- The first document is read twice: the second one asks for the third, and when that is published,
the first is invalidated, although it is about to ask for the second. -/
theorem query_reads_twice_chain :
    ∃ ledger s r s', Reached {} none ledger s ∧ (∀ slot ∈ s.openSlots, slot.published? = none) ∧
      (∀ d e g, s.declared d = some g → s.declared e = some g → d = e) ∧
      (∀ d, ¬ Relation.TransGen (Uses s.text?) d d) ∧
      s.perform 40 (.query "a.g4" none .diagnostics) = some (r, s') ∧
      s.parses + (importClosure s.text? "a.g4").ncard < s'.parses := by
  obtain ⟨ledger, s, ⟨r, s'⟩, hr, hdocuments, hzero, hnew, hdistinct, huses, hrun, hparses⟩ :=
    exists_chain
  have hparses : s'.parses = 4 := hparses
  have hclosure := ncard_closure_chain hdocuments
  exact ⟨ledger, s, r, s', hr, hnew, hdistinct, acyclic_of_ascending huses, hrun, by omega⟩

end Session

end GrammarAtlas
