import GrammarAtlas.Proofs.Workers
import Mathlib.Algebra.Order.BigOperators.Group.Finset

/-! # Documents that import in no circle

Among such documents (`Session.Hierarchic`), a document is fresh only once all documents that it uses
are (`Session.Grounded`). So the publication of a document does not reach any that is fresh: whoever
draws on it by recorded imports would use, in the end, a document that is still being analysed. It
does reach those in flight, all but the requester. They wait for the requester, which waits in turn, so
each of them is one that `Relays`. `Session.Advances` says that of all that is done for a document,
and `Session.owed` goes down as documents become fresh. -/

namespace GrammarAtlas

/-- The text of `d` imports the grammar that the text of `e` declares. -/
def Uses (texts : String → Option String) (d e : String) : Prop :=
  ∃ text g, texts d = some text ∧ g ∈ (SymbolTable.ofText text).importNames ∧
    (texts e).bind Grammar.sniffName? = some g

/-- `d` uses a document that uses another one. -/
def Relays (texts : String → Option String) (d : String) : Prop :=
  ∃ e f, Uses texts d e ∧ Uses texts e f

theorem Relays.of_path {texts : String → Option String} {d e f : String}
    (h : Relation.TransGen (Uses texts) d e) (he : Uses texts e f) : Relays texts d := by
  obtain ⟨x, hdx, hxe⟩ := Relation.TransGen.head'_iff.1 h
  rcases Relation.ReflTransGen.cases_head_iff.1 hxe with rfl | ⟨y, hxy, -⟩
  · exact ⟨x, f, hdx, he⟩
  · exact ⟨x, y, hdx, hxy⟩

namespace Session
variable {s s' s'' : Session} {n m : Nat} {slot slot' a b : Slot} {id d e g : String}
  {ledger : List Publication} {run : Run} {r : Resolution} {requester? : Option String}
  {n? : Option Nat} {U : List String} {W : Finset String} {next : Continuation .analysis}

/-- There is no host, no grammar is declared twice, and no document uses itself through others. -/
structure Hierarchic (s : Session) : Prop where
  host : s.host? = none
  resolves : s.settings.resolveImports = true
  distinct : ∀ d e g, s.declared d = some g → s.declared e = some g → d = e
  acyclic : ∀ d, ¬ Relation.TransGen (Uses s.text?) d d

theorem SameDocuments.hierarchic (h : SameDocuments s s') (hh : s.Hierarchic) : s'.Hierarchic := by
  refine ⟨h.host.trans hh.host, by rw [h.settings]; exact hh.resolves, fun d e g => ?_, ?_⟩
  · rw [declared_congr h.tags]
    exact hh.distinct d e g
  · rw [h.text?]
    exact hh.acyclic

theorem Unique.uses (hu : s.Unique) (ho : s.IsOpen n slot)
    (hg : g ∈ (SymbolTable.ofText slot.latest.text).importNames) (he : s.declared e = some g) :
    Uses s.text? slot.id e :=
  ⟨_, g, hu.text? ho, hg, he⟩

/-- A document gets the table of each one that it uses. -/
theorem Hierarchic.exists_source (hh : s.Hierarchic) (hc : s.Coherent) (ho : s.IsOpen n slot)
    (hu : Uses s.text? slot.id e) :
    ∃ m b g, s.IsOpen m b ∧ b.id = e ∧ g ∈ (SymbolTable.ofText slot.latest.text).importNames ∧
      s.source? slot.id g = some m := by
  have huses := hu
  obtain ⟨text, g, htext, hg, hd⟩ := hu
  obtain rfl := Option.some.inj ((hc.unique.text? ho).symm.trans htext)
  have hp : s.graph.provider? g = some e := by
    refine hc.mirrors.provider?_eq_some_iff.2 ⟨hd, fun e' he' => ?_⟩
    rw [hh.distinct e e' g hd he']
  have hne : e ≠ slot.id := by
    rintro rfl
    exact hh.acyclic _ (.single huses)
  obtain ⟨m, hm⟩ := hc.exists_source? hp hne
  obtain ⟨b, hb, -, hpb, -⟩ := hc.isOpen_of_source? hm
  exact ⟨m, b, g, hb, Option.some.inj (hpb.symm.trans hp), hg, hm⟩

def Fresh (s : Session) (d : String) : Prop :=
  ∃ n slot, s.IsOpen n slot ∧ slot.id = d ∧ slot.isFresh = true

theorem Unique.fresh_iff (hu : s.Unique) (ho : s.IsOpen n slot) :
    s.Fresh slot.id ↔ slot.isFresh = true := by
  refine ⟨?_, fun hf => ⟨n, slot, ho, rfl, hf⟩⟩
  rintro ⟨m, b, hb, hid, hf⟩
  obtain rfl := hu hb ho hid
  rwa [hb.eq ho] at hf

/-- Fresh documents use fresh documents only. -/
def Grounded (s : Session) : Prop := ∀ d e, s.Fresh d → Uses s.text? d e → s.Fresh e

/-- A chain of recorded imports from a fresh document does not lead to one that is not. -/
theorem Grounded.not_fresh_of_draws (hg : s.Grounded) (hs : s.Sound ledger) (hid : ¬ s.Fresh id)
    (h : s.graph.Draws id (s.graph.name? id).toList d) : ¬ s.Fresh d := by
  have huses : ∀ {d e g}, s.Fresh d → s.graph.Imports d g → s.graph.name? e = some g →
      Uses s.text? d e := by
    rintro d e g ⟨n, slot, ho, rfl, hf⟩ hi hn
    rw [ImportGraph.imports_iff, hs.recorded n slot ho (.inr (Slot.isCurrent_of_isFresh hf))] at hi
    rw [hs.coherent.mirrors.name] at hn
    exact hs.coherent.unique.uses ho hi hn
  induction h with
  | direct _ hi hmem =>
    intro hf
    exact hid (hg _ _ hf (huses hf hi (by simpa using hmem)))
  | through _ hi hn _ ih =>
    intro hf
    exact ih (hg _ _ hf (huses hf hi hn))

section owed
open scoped Classical

/-- How often the text of a document may be read until the document is fresh. -/
noncomputable def price (texts : String → Option String) (d : String) : Nat :=
  if Relays texts d then 2 else 1

/-- How often the texts of `W` may be read until all of these documents are fresh. -/
noncomputable def owed (s : Session) (W : Finset String) : Nat :=
  ∑ d ∈ W, if s.Fresh d then 0 else price s.text? d

theorem price_pos (texts : String → Option String) (d : String) : 1 ≤ price texts d := by
  rw [price]
  split <;> omega

theorem price_of_relays {texts : String → Option String} (h : Relays texts d) :
    price texts d = 2 := by
  rw [price, if_pos h]

theorem owed_congr (ht : s'.text? = s.text?) (hf : ∀ d, s'.Fresh d ↔ s.Fresh d) :
    s'.owed W = s.owed W := by
  rw [owed, owed, ht]
  exact Finset.sum_congr rfl fun d _ => by simp only [hf d]

theorem owed_add_price_le (ht : s'.text? = s.text?) (hmono : ∀ d, s.Fresh d → s'.Fresh d)
    (hd : d ∈ W) (hf : ¬ s.Fresh d) (hf' : s'.Fresh d) :
    s'.owed W + price s.text? d ≤ s.owed W := by
  have hrest : ∑ e ∈ W.erase d, (if s'.Fresh e then 0 else price s'.text? e) ≤
      ∑ e ∈ W.erase d, if s.Fresh e then 0 else price s.text? e := by
    refine Finset.sum_le_sum fun e _ => ?_
    rw [ht]
    by_cases he : s.Fresh e
    · rw [if_pos he, if_pos (hmono e he)]
    · rw [if_neg he]
      split <;> omega
  rw [owed, owed, ← Finset.add_sum_erase W _ hd, ← Finset.add_sum_erase W _ hd, if_pos hf',
    if_neg hf]
  omega

end owed

/-- What the state is later on (`Later`), among documents without circles. -/
structure Advances (n? : Option Nat) (s s' : Session) : Prop extends Later n? s s' where
  fresh : ∀ d, s.Fresh d → s'.Fresh d
  grounded : s'.Grounded
  /-- Whoever waits, apart from `n?`, is overtaken only if it waits for one that waits itself. -/
  epochs : ∀ {m : Nat} {a b : Slot}, n? ≠ some m → s.slots[m]? = some a → s'.slots[m]? = some b →
    a.inFlight = true → a.epoch ≠ b.epoch → Relays s.text? a.id

namespace Advances

theorem refl (hg : s.Grounded) : Advances none s s :=
  ⟨.refl s, fun _ h => h, hg, fun _ ha hb _ hne =>
    absurd (congrArg Slot.epoch (Option.some.inj (ha.symm.trans hb))) hne⟩

theorem excepting (h : Advances none s s') (n? : Option Nat) : Advances n? s s' :=
  ⟨h.toLater.excepting n?, h.fresh, h.grounded, fun _ => h.epochs (by simp)⟩

theorem trans (h : Advances n? s s') (h' : Advances n? s' s'') : Advances n? s s'' := by
  refine ⟨h.toLater.trans h'.toLater, fun d hd => h'.fresh d (h.fresh d hd), h'.grounded,
    fun {m a c} hn ha hc hf hne => ?_⟩
  have htag := getElem?_tag_congr h.tags m
  rw [ha, Option.map_some, Option.map_eq_some_iff] at htag
  obtain ⟨b, hb, htag⟩ := htag
  by_cases hab : a.epoch = b.epoch
  · have hid : b.id = a.id := congrArg (·.1) htag
    have hrelays := h'.epochs hn hb hc (by rw [h.inFlight hn ha hb, hf]) (hab ▸ hne)
    rwa [h.text?, hid] at hrelays
  · exact h.epochs hn ha hb hf hab

theorem all (h : Advances (some n) s s')
    (hn : ∀ {a b : Slot}, s.slots[n]? = some a → s'.slots[n]? = some b → a.inFlight = false ∧
      b.inFlight = false) : Advances none s s' := by
  refine ⟨h.toLater.all hn, h.fresh, h.grounded, fun {m a b} _ ha hb hf => ?_⟩
  by_cases hnm : n = m
  · subst hnm
    rw [(hn ha hb).1] at hf
    cases hf
  · exact h.epochs (by simpa using hnm) ha hb hf

end Advances

theorem fresh_takeUp : (s.takeUp n slot).Fresh d ↔ s.Fresh d := by
  have hkeep : ∀ (m : Nat) (a : Slot), (if n = m then { a with inFlight := true } else a).id = a.id ∧
      (if n = m then { a with inFlight := true } else a).isFresh = a.isFresh := by
    intro m a
    split <;> exact ⟨rfl, rfl⟩
  constructor
  · rintro ⟨m, b, hb, hid, hf⟩
    obtain ⟨a, ha, rfl⟩ := hb.of_getElem? (s.getElem?_takeUp n slot) tag_takeUp
    exact ⟨m, a, ha, (hkeep m a).1.symm.trans hid, (hkeep m a).2.symm.trans hf⟩
  · rintro ⟨m, a, ha, hid, hf⟩
    exact ⟨m, _, ha.map_getElem? (s.getElem?_takeUp n slot) tag_takeUp, (hkeep m a).1.trans hid,
      (hkeep m a).2.trans hf⟩

theorem advances_takeUp (hs : s.Sound ledger) (hg : s.Grounded) (ho : s.IsOpen n slot) :
    Advances (some n) s (s.takeUp n slot) := by
  have hlater := later_takeUp hs.coherent.unique ho
  refine ⟨hlater, fun d => fresh_takeUp.2, fun d e hd hu => ?_, fun {m a b} hn ha hb _ hne => ?_⟩
  · rw [hlater.text?] at hu
    exact fresh_takeUp.2 (hg d e (fresh_takeUp.1 hd) hu)
  · rw [getElem?_takeUp, ha, Option.map_some, if_neg fun h => hn (congrArg some h)] at hb
    exact absurd (congrArg Slot.epoch (Option.some.inj hb)) hne

theorem cost_takeUp (hs : s.Sound ledger) (ho : s.IsOpen n slot) :
    (s.takeUp n slot).parses + (s.takeUp n slot).owed W = s.parses + s.owed W + 1 := by
  rw [owed_congr (sameDocuments_takeUp hs.coherent.unique ho).text? fun _ => fresh_takeUp]
  exact Nat.succ_add s.parses (s.owed W)

/-! ## An analysis that comes to its end -/

/-- Of the documents in flight, only the one with that name does not wait for the document `d`. The
others are the requester, which uses `d`, and those that wait for the requester. -/
def Beneath (s : Session) (requester? : Option String) (d : String) : Prop :=
  ∀ m a, s.IsOpen m a → a.inFlight = true → a.id ≠ d →
    ∃ e, requester? = some e ∧ Uses s.text? e d ∧ Relation.ReflTransGen (Uses s.text?) a.id e

/-- All documents whose tables the run has got are fresh. -/
def Seen (s : Session) (run : Run) (slot : Slot) : Prop :=
  ∀ g t? m b, (g, t?) ∈ run.known → s.source? slot.id g = some m → s.IsOpen m b → b.isFresh = true

/-- The documents that the run's document uses are fresh once nothing is left to ask. -/
theorem Seen.fresh (hseen : s.Seen run slot) (hh : s.Hierarchic) (hc : s.Coherent)
    (h : s.Underway run slot)
    (hr : Resolution.attempt run.known run.grammar.tree run.table s.settings.warnUnresolved = .ok r)
    (hu : Uses s.text? slot.id e) : s.Fresh e := by
  obtain ⟨m, b, g, hb, rfl, hg, hm⟩ := hh.exists_source hc h.isOpen hu
  have hlookup := Resolution.attempt_ok hr g (by rw [h.table]; exact hg)
  obtain ⟨t?, ht⟩ := Option.ne_none_iff_exists'.1 hlookup
  exact ⟨m, b, hb, rfl, hseen g t? m b (Known.mem_of_lookup ht) hm hb⟩

theorem advances_conclude (hs : s.Sound ledger) (hg : s.Grounded) (h : s.Underway run slot)
    (hr : Resolution.attempt run.known run.grammar.tree run.table s.settings.warnUnresolved = .ok r)
    (hepoch : slot.epoch = run.epoch) (hready : ∀ e, Uses s.text? slot.id e → s.Fresh e)
    (hbeneath : s.Beneath requester? slot.id) :
    Advances (some run.slot) s (s.conclude run.slot slot requester? (run.analysis r)) := by
  have hc := hs.coherent
  have hlater : Later (some run.slot) s (s.conclude run.slot slot requester? (run.analysis r)) :=
    later_conclude hs h hr
  have hstale : ¬ s.Fresh slot.id := by
    rw [hc.unique.fresh_iff h.isOpen, h.stale]
    exact Bool.false_ne_true
  -- Nobody who is fresh draws on the document.
  have hni : ∀ {d}, s.Fresh d → d ∉ s.informed slot requester? (run.analysis r) := by
    intro d hd hi
    rw [informed] at hi
    split at hi
    · exact hg.not_fresh_of_draws hs hstale ((mem_reached hc.distinct).1 hi).1 hd
    · cases hi
  have hself : (s.conclude run.slot slot requester? (run.analysis r)).Fresh slot.id :=
    ⟨_, _, isOpen_conclude_self hc.distinct h.isOpen, rfl,
      Slot.isFresh_iff.2 ⟨_, rfl, h.snapshot, hepoch.symm⟩⟩
  have hmono : ∀ d, s.Fresh d → (s.conclude run.slot slot requester? (run.analysis r)).Fresh d := by
    rintro d ⟨m, a, ha, rfl, hf⟩
    have hne : m ≠ run.slot := by
      rintro rfl
      rw [ha.eq h.isOpen, h.stale] at hf
      cases hf
    refine ⟨m, _, isOpen_conclude_of_ne hne ha, Slot.id_bump, ?_⟩
    rwa [Slot.bump_of_not_mem (hni ⟨m, a, ha, rfl, hf⟩)]
  refine ⟨hlater, hmono, fun d e hd hu => ?_, fun {m a b} hn ha hb hf hne => ?_⟩
  · rw [hlater.text?] at hu
    obtain ⟨m, b, hb, rfl, hf⟩ := hd
    rcases hb.of_conclude hc.distinct h.isOpen with ⟨rfl, rfl⟩ | ⟨-, a, ha, rfl⟩
    · exact hmono e (hready e hu)
    · rw [Slot.id_bump] at hu
      rw [Slot.bump_of_not_mem ((hs.orderly m a ha).not_mem_of_isFresh_bump ha.opened hf)] at hf
      exact hmono e (hg _ e ⟨m, a, ha, rfl, hf⟩ hu)
  · have hb : b = a.bump (s.informed slot requester? (run.analysis r)) := by
      rw [getElem?_conclude, ha, Option.map_some, if_neg fun h => hn (congrArg some h)] at hb
      exact (Option.some.inj hb).symm
    -- Whoever waits and is informed is not the requester, so it waits for the requester.
    have hi : a.closed = false ∧ a.id ∈ s.informed slot requester? (run.analysis r) := by
      by_contra hi
      rw [hb, Slot.bump, if_neg hi] at hne
      exact hne rfl
    obtain ⟨hopen, hi⟩ := hi
    rw [informed] at hi
    split at hi
    · obtain ⟨hdraws, hreq, -⟩ := (mem_reached hc.distinct).1 hi
      obtain ⟨e, he, hu, hpath⟩ := hbeneath m a ⟨ha, hopen⟩ hf hdraws.ne
      rcases Relation.ReflTransGen.cases_head_iff.1 hpath with rfl | ⟨x, hx, hxe⟩
      · exact absurd he hreq
      · exact .of_path (.head' hx hxe) hu
    · cases hi

end Session

end GrammarAtlas
