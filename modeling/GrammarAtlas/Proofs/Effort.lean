import GrammarAtlas.Proofs.Workers
import Mathlib.Algebra.BigOperators.Group.List.Basic
import Mathlib.Algebra.Ring.Nat
import Mathlib.Data.Prod.Lex

/-! # The effort of errands

What is left to do on the errands of all workers has three parts, of which an earlier one outweighs
the later ones (`Session.effort`).

* The documents that are behind: of these, each publication has the latest text.
* The documents that do not show what their text resolves to with the visible tables, and, counted
  twice, the analyses under way that have seen other tables than the visible ones. As long as no
  document that is behind is published, the visible tables are what they are. Such an analysis can
  unsettle one document when it is published, but then it is gone.
* All that may be to be done as long as nothing changed is published. Invalidations to come weigh more
  than analyses that have to begin, which weigh more than the stages of those that have begun.

Each stage of an errand lowers the effort (`Session.Proceeds.effort_lt`). -/

namespace GrammarAtlas

open Session

namespace Stage

/-- The analysis that is under way. -/
def run? : Stage → Option Run
  | extract run | record run | resolve run | await run _ _ | takeTable run _ _ | complete run _
  | publish run _ => some run
  | claim | wait | reread _ | inform _ | invalidate _ _ => none

/-- How many invalidations may be to come, among `n` documents. -/
def toCome (n : Nat) : Stage → Nat
  | invalidate ids _ => ids.length
  | inform _ => n + 1
  | claim | wait => 0
  | reread changed => if changed then n + 2 else 0
  | extract run | record run | resolve run | await run _ _ | takeTable run _ _ | complete run _
  | publish run _ => if run.changed then n + 2 else 0

/-- How many stages there may be to come, with `u` grammars to ask for. What is asked on the way counts
as well. -/
def toGo (u : Nat) : Stage → Nat
  | inform _ | invalidate _ _ | wait => 1
  | claim | reread _ => 2
  | publish _ _ => 3
  | complete _ _ => 4
  | await run _ _ | takeTable run _ _ => 5 * (u - run.known.length) + 2
  | resolve run => 5 * (u - run.known.length) + 5
  | record _ => 5 * u + 6
  | extract _ => 5 * u + 7

theorem holds_of_run? {stage : Stage} {run : Run} (h : stage.run? = some run) : stage.holds = true := by
  cases stage <;> first | rfl | cases h

end Stage

namespace Session
variable {s s' : Session} {n m : Nat} {slot a b : Slot} {id g : String} {ledger : List Publication}
  {e o : Errand} {es new : List Errand} {run : Run} {r : Resolution} {move : Move} {u : Nat}

/-- The analysis under way has got another answer than it would get now. -/
structure Misled (s : Session) (e : Errand) : Prop where
  intro ::
  exists_answer : ∃ run slot g t?, e.stage.run? = some run ∧ s.IsOpen e.slot slot ∧
    (g, t?) ∈ run.known ∧ t? ≠ s.visible? slot.id g

/-- The document is not fresh, and no analysis under way will make it so. -/
structure IsDue (s : Session) (es : List Errand) (n : Nat) : Prop where
  intro ::
  exists_slot : ∃ slot, s.IsOpen n slot ∧ slot.isFresh = false ∧
    ∀ e ∈ es, e.slot = n → ∀ run, e.stage.run? = some run → run.epoch ≠ slot.epoch

/-- What is to be done on an errand, weighed. -/
def load (s : Session) (u : Nat) (e : Errand) : Nat :=
  e.stage.toGo u + (5 * u + 9) * e.stage.toCome s.slots.length

section
open scoped Classical

noncomputable def due (s : Session) (es : List Errand) : Finset Nat :=
  {n ∈ Finset.range s.slots.length | s.IsDue es n}

noncomputable def work (s : Session) (u : Nat) (es : List Errand) : Nat :=
  (es.map (s.load u)).sum + (5 * u + 8) * (s.due es).card

noncomputable def agitation (s : Session) (es : List Errand) : Nat :=
  2 * es.countP (fun e => s.Misled e) + s.unsettled.card

noncomputable def effort (s : Session) (u : Nat) (es : List Errand) : ℕ ×ₗ ℕ ×ₗ ℕ :=
  toLex (s.behind.card, toLex (s.agitation es, s.work u es))

theorem mem_due : n ∈ s.due es ↔ s.IsDue es n := by
  rw [due, Finset.mem_filter, Finset.mem_range, and_iff_right_iff_imp]
  rintro ⟨slot, ho, -⟩
  exact (List.getElem?_eq_some_iff.1 ho.get).1

end

theorem effort_lt_iff : s'.effort u new < s.effort u es ↔
    s'.behind.card < s.behind.card ∨ s'.behind.card = s.behind.card ∧
      (s'.agitation new < s.agitation es ∨
        s'.agitation new = s.agitation es ∧ s'.work u new < s.work u es) := by
  simp only [effort, Prod.Lex.toLex_lt_toLex]

theorem effort_lt_of_work (hb : s'.behind.card ≤ s.behind.card) (ha : s'.agitation new ≤ s.agitation es)
    (hw : s'.work u new < s.work u es) : s'.effort u new < s.effort u es := by
  rw [effort_lt_iff]
  omega

theorem effort_lt_of_agitation (hb : s'.behind.card ≤ s.behind.card)
    (ha : s'.agitation new < s.agitation es) : s'.effort u new < s.effort u es := by
  rw [effort_lt_iff]
  omega

theorem effort_perm {es' : List Errand} (h : es.Perm es') : s.effort u es = s.effort u es' := by
  have hdue : s.due es = s.due es' := by
    ext n
    rw [mem_due, mem_due]
    constructor <;> rintro ⟨slot, ho, hf, hno⟩
    · exact ⟨slot, ho, hf, fun e he => hno e (h.mem_iff.2 he)⟩
    · exact ⟨slot, ho, hf, fun e he => hno e (h.mem_iff.1 he)⟩
  rw [effort, effort, agitation, agitation, work, work, hdue, (h.map _).sum_eq, h.countP_eq]

section
variable (h : SameDocuments s s')
include h

theorem misled_of_same (hv : ∀ id g, s'.visible? id g = s.visible? id g) (hm : s'.Misled o) :
    s.Misled o := by
  obtain ⟨run, b, g, t?, hr, hb, hk, hne⟩ := hm
  obtain ⟨a, ha, htag⟩ := hb.of_tag h.tags.symm
  have hid : a.id = b.id := congrArg (·.1) htag
  exact ⟨run, a, g, t?, hr, ha, hk, by rwa [hid, ← hv]⟩

theorem load_eq (e : Errand) : s'.load u e = s.load u e := by
  rw [load, load, h.length_eq]

theorem sum_load_append : ((new ++ es).map (s'.load u)).sum =
    (new.map (s.load u)).sum + (es.map (s.load u)).sum := by
  rw [List.map_append, List.sum_append, funext (load_eq h)]

open scoped Classical in
theorem countP_misled_le (hv : ∀ id g, s'.visible? id g = s.visible? id g) :
    es.countP (fun e => s'.Misled e) ≤ es.countP (fun e => s.Misled e) :=
  List.countP_mono_left fun o _ ho => by
    rw [decide_eq_true_eq] at ho ⊢
    exact misled_of_same h hv ho

variable (new)

/-- What was due before: the errand goes on with its analysis, or has made the document fresh. -/
theorem due_subset
    (hslots : ∀ {m : Nat} {a b : Slot}, s.IsOpen m a → s'.IsOpen m b →
      b.epoch = a.epoch ∧ (a.isFresh = true → b.isFresh = true))
    (hrun : ∀ a b run, s.IsOpen e.slot a → s'.IsOpen e.slot b → e.stage.run? = some run →
      run.epoch = a.epoch → b.isFresh = true ∨
        ∃ o ∈ new, o.slot = e.slot ∧ ∃ run', o.stage.run? = some run' ∧ run'.epoch = run.epoch) :
    s'.due (new ++ es) ⊆ s.due (e :: es) := by
  intro m hm
  obtain ⟨b, hb, hf, hno⟩ := mem_due.1 hm
  obtain ⟨a, ha, -⟩ := hb.of_tag h.tags.symm
  obtain ⟨hepoch, hfresh⟩ := hslots ha hb
  refine mem_due.2 ⟨a, ha, ?_, fun o ho hom run hr heq => ?_⟩
  · cases haf : a.isFresh with
    | false => rfl
    | true => rw [hfresh haf] at hf; cases hf
  · rcases List.mem_cons.1 ho with rfl | ho
    · subst hom
      rcases hrun a b run ha hb hr heq with hb' | ⟨x, hx, hxm, run', hr', heq'⟩
      · rw [hb'] at hf
        cases hf
      · exact hno x (List.mem_append_left _ hx) hxm run' hr' (by rw [heq', heq, hepoch])
    · exact hno o (List.mem_append_right _ ho) hom run hr (by rw [heq, hepoch])

open scoped Classical in
/-- A stage that publishes nothing lowers the effort if it lowers the work. -/
theorem effort_lt_of_same
    (hp : ∀ m : Nat, s'.slots[m]?.bind Slot.published? = s.slots[m]?.bind Slot.published?)
    (hm : new.countP (fun o => s.Misled o) ≤ [e].countP (fun o => s.Misled o))
    (hwork : (new.map (s.load u)).sum + (5 * u + 8) * (s'.due (new ++ es)).card <
      s.load u e + (5 * u + 8) * (s.due (e :: es)).card) :
    s'.effort u (new ++ es) < s.effort u (e :: es) := by
  have hv : ∀ id g, s'.visible? id g = s.visible? id g := fun id g =>
    h.visible? fun m _ => by rw [table?, hp m, table?]
  refine effort_lt_of_work (Finset.card_le_card (h.behind_subset hp)) ?_ ?_
  · have hnew : (new ++ es).countP (fun e => s'.Misled e) ≤ (new ++ es).countP (fun e => s.Misled e) :=
      countP_misled_le h hv
    have hun := Finset.card_le_card (h.unsettled_subset hp)
    have hsplit : (new ++ es).countP (fun e => s.Misled e) =
        new.countP (fun e => s.Misled e) + es.countP (fun e => s.Misled e) := List.countP_append
    have hold : (e :: es).countP (fun e => s.Misled e) =
        [e].countP (fun e => s.Misled e) + es.countP (fun e => s.Misled e) := by
      rw [← List.countP_append, List.singleton_append]
    rw [agitation, agitation]
    omega
  · rw [work, work, sum_load_append h, List.map_cons, List.sum_cons]
    omega

end

open scoped Classical in
theorem countP_misled_singleton (h : s.Misled o → s.Misled e) :
    [o].countP (fun o => s.Misled o) ≤ [e].countP (fun o => s.Misled o) := by
  by_cases ho : s.Misled o
  · simp [ho, h ho]
  · simp [ho]

section
open scoped Classical
variable (new) (h : SameDocuments s s')
  (hp : ∀ m : Nat, s'.slots[m]?.bind Slot.published? = s.slots[m]?.bind Slot.published?)
  (hslots : ∀ {m : Nat} {a b : Slot}, s.IsOpen m a → s'.IsOpen m b →
    b.epoch = a.epoch ∧ (a.isFresh = true → b.isFresh = true))
  (hm : new.countP (fun o => s.Misled o) ≤ [e].countP (fun o => s.Misled o))
  (hrun : ∀ a b run, s.IsOpen e.slot a → s'.IsOpen e.slot b → e.stage.run? = some run →
    run.epoch = a.epoch → b.isFresh = true ∨
      ∃ o ∈ new, o.slot = e.slot ∧ ∃ run', o.stage.run? = some run' ∧ run'.epoch = run.epoch)
include h hp hslots hm hrun

theorem effort_lt_of_load (hload : (new.map (s.load u)).sum < s.load u e) :
    s'.effort u (new ++ es) < s.effort u (e :: es) := by
  have hdue := Finset.card_le_card (due_subset new h hslots hrun : s'.due (new ++ es) ⊆ _)
  refine effort_lt_of_same new h hp hm ?_
  have := Nat.mul_le_mul_left (5 * u + 8) hdue
  omega

/-- An analysis that begins outweighs all its stages. -/
theorem effort_lt_of_begin (hbefore : e.slot ∈ s.due (e :: es)) (hafter : e.slot ∉ s'.due (new ++ es))
    (hload : (new.map (s.load u)).sum < s.load u e + (5 * u + 8)) :
    s'.effort u (new ++ es) < s.effort u (e :: es) := by
  have hdue : s'.due (new ++ es) ⊂ s.due (e :: es) :=
    (Finset.ssubset_iff_of_subset (due_subset new h hslots hrun)).2 ⟨e.slot, hbefore, hafter⟩
  refine effort_lt_of_same new h hp hm ?_
  have := Nat.mul_le_mul_left (5 * u + 8) (Finset.card_lt_card hdue)
  rw [Nat.mul_succ] at this
  omega

end

/-- A stage at which only what the errand knows or wants to do next changes. -/
theorem effort_lt_of_stage {stage : Stage} (hm : s.Misled { e with stage } → s.Misled e)
    (hrun : ∀ slot run, s.IsOpen e.slot slot → e.stage.run? = some run → run.epoch = slot.epoch →
      slot.isFresh = true ∨ ∃ run', stage.run? = some run' ∧ run'.epoch = run.epoch)
    (hload : s.load u { e with stage } < s.load u e) :
    s.effort u ({ e with stage } :: es) < s.effort u (e :: es) := by
  refine effort_lt_of_load [{ e with stage }] (.refl s) (fun _ => rfl) (fun ha hb => ?_)
    (countP_misled_singleton hm) (fun a b run ha hb hr he => ?_) (by simpa using hload)
  · rw [ha.eq hb]
    exact ⟨rfl, id⟩
  · obtain rfl := ha.eq hb
    exact (hrun a run ha hr he).imp_right fun hr' => ⟨_, List.mem_singleton_self _, rfl, hr'⟩

section
variable {stage : Stage} (hrun : stage.run? = e.stage.run?)
include hrun

theorem misled_restage_iff : s.Misled { e with stage } ↔ s.Misled e := by
  constructor <;> rintro ⟨run, slot, g, t?, hr, ho, hk, hne⟩
  · exact ⟨run, slot, g, t?, hrun ▸ hr, ho, hk, hne⟩
  · exact ⟨run, slot, g, t?, hrun.trans hr, ho, hk, hne⟩

theorem due_restage_eq : s.due ({ e with stage } :: es) = s.due (e :: es) := by
  ext k
  simp only [mem_due]
  constructor <;> rintro ⟨slot, ho, hf, hno⟩ <;>
    refine ⟨slot, ho, hf, fun o hmem => ?_⟩ <;> rcases List.mem_cons.1 hmem with rfl | hmem
  · exact fun hk run hr => hno _ (.head _) hk run (hrun.trans hr)
  · exact hno o (.tail _ hmem)
  · exact fun hk run hr => hno _ (.head _) hk run (hrun ▸ hr)
  · exact hno o (.tail _ hmem)

theorem effort_lt_of_restage (hload : s.load u { e with stage } < s.load u e) :
    s.effort u ({ e with stage } :: es) < s.effort u (e :: es) :=
  effort_lt_of_stage (misled_restage_iff hrun).1
    (fun _ run _ hr _ => .inr ⟨run, hrun.trans hr, rfl⟩) hload

end

theorem Misled.of_none (h : s.Misled e) : e.stage.run? ≠ none := by
  obtain ⟨run, _, _, _, hr, -⟩ := h
  rw [hr]
  nofun

/-- A run that has not asked for anything is not misled. -/
theorem not_misled_of_firstKnown (hr : e.stage.run? = some run) {own : SymbolTable}
    (hk : run.known = firstKnown s.settings own) : ¬ s.Misled e := by
  rintro ⟨run', slot, g, t?, hr', -, hmem, hne⟩
  obtain rfl := Option.some.inj (hr.symm.trans hr')
  rw [hk, firstKnown] at hmem
  split at hmem
  · cases hmem
  · rename_i hres
    rw [visible?, if_neg hres] at hne
    exact hne (Resolution.snd_of_mem_closedBook hmem)

/-- A run that asks again, and gets the answer of now. -/
theorem Misled.of_learn {t? : Option SymbolTable} (hr : e.stage.run? = some run)
    (ho : s.IsOpen e.slot slot) (ht : t? = s.visible? slot.id g) {stage : Stage}
    (hs : stage.run? = some (run.learn g t?)) (h : s.Misled { e with stage }) : s.Misled e := by
  obtain ⟨run', slot', g', t?', hr', ho', hmem, hne⟩ := h
  obtain rfl := Option.some.inj (hs.symm.trans hr')
  obtain rfl := ho.eq ho'
  rcases List.mem_append.1 hmem with hmem | hmem
  · exact ⟨run, slot, g', t?', hr, ho, hmem, hne⟩
  · obtain ⟨rfl, rfl⟩ : g' = g ∧ t?' = t? := by simpa using hmem
    exact absurd ht hne

/-- All grammars that can be asked for are in `U`. -/
structure Within (s : Session) (U : List String) (es : List Errand) : Prop where
  bounded : s.Bounded U
  known : ∀ e ∈ es, ∀ run, e.stage.run? = some run → ∀ g t, (g, some t) ∈ run.known →
    ∀ x ∈ t.importNames, x ∈ U

theorem Traces.length_known_lt {U : List String} (h : s.Traces es n slot run) (ho : s.IsOpen n slot)
    (hU : s.Bounded U)
    (hk : ∀ g t, (g, some t) ∈ run.known → ∀ x ∈ t.importNames, x ∈ U)
    (hg : Resolution.attempt run.known run.grammar.tree run.table s.settings.warnUnresolved =
      .error g) : run.known.length < U.length := by
  have hasked := h.asked
  rw [firstKnown, if_pos (h.resolveImports hg)] at hasked
  obtain ⟨hnd, hnames⟩ := hasked.nodup
  obtain ⟨hnew, hname⟩ := Resolution.attempt_error hg
  have hmem : ∀ e, run.known.Names run.table e → e ∈ U := by
    rintro e (he | ⟨e', t, hk', he⟩)
    · rw [h.table] at he
      exact hU.latest _ _ ho e he
    · exact hk e' t hk' e he
  have hnd' : (g :: run.known.map Prod.fst).Nodup :=
    List.nodup_cons.2 ⟨Known.lookup_eq_none.1 hnew, hnd⟩
  have hsub : ∀ e ∈ g :: run.known.map Prod.fst, e ∈ U := by
    intro e he
    rcases List.mem_cons.1 he with rfl | he
    · exact hmem e hname
    · exact hmem e (hnames e he)
  have := (List.subperm_of_subset hnd' hsub).length_le
  rwa [List.length_cons, List.length_map] at this

theorem length_reached_le (s : Session) (origin : String) (grammars : List String)
    (except? : Option String) : (s.reached origin grammars except?).length ≤ s.slots.length := by
  have hsub : s.reached origin grammars except? ⊆ s.slots.map Slot.id := by
    intro id hid
    obtain ⟨-, hreg⟩ := List.mem_filter.1 hid
    rw [Bool.and_eq_true, Option.isSome_iff_exists] at hreg
    obtain ⟨-, n, hn⟩ := hreg
    obtain ⟨slot, ho, rfl⟩ := isOpen_of_slotOf? hn
    exact List.mem_map_of_mem (List.mem_of_getElem? ho.get)
  have := (List.subperm_of_subset (s.nodup_reached origin grammars except?) hsub).length_le
  rwa [List.length_map] at this

/-! ## Publications -/

section publish
variable (h : s.InHand ledger (e :: es)) (ho : s.IsOpen e.slot slot) (ht : s.Traces (e :: es) e.slot slot run)

theorem sameDocuments_publish (s : Session) (n : Nat) (a : Analysis) :
    SameDocuments s (s.modifySlot n (·.publish a)) :=
  ⟨map_tag_modifySlot (f := (·.publish a)) (fun _ => rfl) n, rfl, rfl, rfl, rfl, fun _ _ _ hr => hr⟩

include ho in
theorem isOpen_of_publish {a : Analysis} (hb : (s.modifySlot e.slot (·.publish a)).IsOpen m b) :
    m = e.slot ∧ b = slot.publish a ∨ m ≠ e.slot ∧ s.IsOpen m b :=
  ((getElem?_modifySlot_eq_some ho.get _).1 hb.get).imp id (And.imp_right fun hg => ⟨hg, hb.opened⟩)

include ho ht

theorem behind_publish_subset :
    (s.modifySlot e.slot (·.publish (run.analysis r))).behind ⊆ s.behind := by
  intro m hm
  obtain ⟨b, hb, hc⟩ := mem_behind.1 hm
  rcases isOpen_of_publish ho hb with ⟨rfl, rfl⟩ | ⟨-, hb⟩
  · exact absurd ⟨_, rfl, ht.snapshot⟩ hc
  · exact mem_behind.2 ⟨b, hb, hc⟩

theorem behind_publish_ssubset (hcur : ¬ slot.IsCurrent) :
    (s.modifySlot e.slot (·.publish (run.analysis r))).behind ⊂ s.behind := by
  refine (Finset.ssubset_iff_of_subset (behind_publish_subset ho ht)).2
    ⟨e.slot, mem_behind.2 ⟨slot, ho, hcur⟩, fun hm => ?_⟩
  obtain ⟨b, hb, hc⟩ := mem_behind.1 hm
  rcases isOpen_of_publish ho hb with ⟨-, rfl⟩ | ⟨hne, -⟩
  · exact hc ⟨_, rfl, ht.snapshot⟩
  · exact hne rfl

/-- An analysis that has not been overtaken makes its document fresh. -/
theorem due_publish_subset (hs : e.stage = .publish run r) (changed : Bool) :
    (s.modifySlot e.slot (·.publish (run.analysis r))).due ({ e with stage := .reread changed } :: es) ⊆
      s.due (e :: es) := by
  refine due_subset [{ e with stage := .reread changed }] (sameDocuments_publish s e.slot _)
    (fun {m a b} ha hb => ?_) (fun a b run' ha hb hr' he => ?_)
  · rcases isOpen_of_publish ho hb with ⟨rfl, rfl⟩ | ⟨-, hb⟩
    · obtain rfl := ha.eq ho
      refine ⟨rfl, fun hf => ?_⟩
      rw [ht.stale] at hf
      cases hf
    · rw [ha.eq hb]
      exact ⟨rfl, id⟩
  · obtain rfl : run = run' := by simpa [hs, Stage.run?] using hr'
    obtain rfl := ha.eq ho
    rcases isOpen_of_publish ho hb with ⟨-, rfl⟩ | ⟨hne, -⟩
    · exact .inl (Slot.isFresh_iff.2 ⟨_, rfl, ht.snapshot, he⟩)
    · exact absurd rfl hne

include h

theorem visible?_publish (hcur : slot.IsCurrent) (id g : String) :
    (s.modifySlot e.slot (·.publish (run.analysis r))).visible? id g = s.visible? id g := by
  refine (sameDocuments_publish s e.slot _).visible? fun m _ => ?_
  rw [table?, table?]
  by_cases hm : m = e.slot
  · subst hm
    obtain ⟨a, ha, hal⟩ := hcur
    have htable : a.table = run.table := by rw [(h.orderly _ _ ho).table a ha, hal, ht.table]
    rw [get?_modifySlot, ho.get]
    simp [ha, htable, Slot.publish, Run.analysis, Analysis.assemble]
  · rw [get?_modifySlot_of_ne _ (Ne.symm hm)]

theorem settled_of_settled (hcur : slot.IsCurrent) (hs : s.Settled b) : (s.modifySlot e.slot (·.publish (run.analysis r))).Settled b :=
  (sameDocuments_publish s e.slot _).settled (fun g => visible?_publish h ho ht hcur b.id g) rfl rfl hs

/-- An analysis with the visible tables shows what its text resolves to. -/
theorem settled_publish (hcur : slot.IsCurrent) (hs : e.stage.run? = some run) (hm : ¬ s.Misled e)
    (hr : Resolution.attempt run.known run.grammar.tree run.table s.settings.warnUnresolved = .ok r) :
    (s.modifySlot e.slot (·.publish (run.analysis r))).Settled (slot.publish (run.analysis r)) ∧
      Resolution.Settles (s.visible? slot.id) run.grammar.tree run.table s.settings.warnUnresolved
        (firstKnown s.settings run.table) r := by
  have hanswers : ∀ g t?, (g, t?) ∈ run.known → t? = s.visible? slot.id g := by
    intro g t? hk
    by_contra hne
    exact hm ⟨run, slot, g, t?, hs, ho, hk, hne⟩
  have hsettles := settles_of_answers ht.asked hanswers hr
  refine ⟨⟨run.analysis r, r, rfl, ht.snapshot, ?_, rfl, rfl⟩, hsettles⟩
  rw [ht.grammar, ht.table] at hsettles
  have hv : (s.modifySlot e.slot (·.publish (run.analysis r))).visible? slot.id = s.visible? slot.id :=
    funext (visible?_publish h ho ht hcur slot.id)
  exact hv ▸ hsettles

open scoped Classical in
theorem effort_lt_publish (hs : e.stage = .publish run r)
    (hr : Resolution.attempt run.known run.grammar.tree run.table s.settings.warnUnresolved = .ok r) :
    (s.modifySlot e.slot (·.publish (run.analysis r))).effort u
        ({ e with stage := .reread (run.changed || slot.showsChange (run.analysis r)) } :: es) <
      s.effort u (e :: es) := by
  have hrun : e.stage.run? = some run := by rw [hs]; rfl
  have hsame := sameDocuments_publish s e.slot (run.analysis r)
  have hbehind := Finset.card_le_card (behind_publish_subset (r := r) ho ht)
  by_cases hcur : slot.IsCurrent
  swap
  · exact effort_lt_iff.2 (.inl (Finset.card_lt_card (behind_publish_ssubset ho ht hcur)))
  have hmis : ({ e with stage := .reread (run.changed || slot.showsChange (run.analysis r)) } ::
      es).countP (fun o => (s.modifySlot e.slot (·.publish (run.analysis r))).Misled o) ≤
        es.countP (fun o => s.Misled o) := by
    rw [List.countP_cons_of_neg (by simpa using fun hm => hm.of_none rfl)]
    exact countP_misled_le hsame (visible?_publish h ho ht hcur)
  by_cases hm : s.Misled e
  · -- It may unsettle its document, but is gone.
    have hun : (s.modifySlot e.slot (·.publish (run.analysis r))).unsettled ⊆
        insert e.slot s.unsettled := by
      intro m hmem
      obtain ⟨b, hb, hc⟩ := mem_unsettled.1 hmem
      rcases isOpen_of_publish ho hb with ⟨rfl, -⟩ | ⟨-, hb⟩
      · exact Finset.mem_insert_self _ _
      · exact Finset.mem_insert_of_mem (mem_unsettled.2
          ⟨b, hb, fun hset => hc (settled_of_settled h ho ht hcur hset)⟩)
    have hcard := (Finset.card_le_card hun).trans (Finset.card_insert_le _ _)
    refine effort_lt_of_agitation hbehind ?_
    have hold : (e :: es).countP (fun o => s.Misled o) = es.countP (fun o => s.Misled o) + 1 :=
      List.countP_cons_of_pos (by simpa using hm)
    rw [agitation, agitation, hold]
    omega
  obtain ⟨hset, hsettles⟩ := settled_publish h ho ht hcur hrun hm hr
  have hun : (s.modifySlot e.slot (·.publish (run.analysis r))).unsettled ⊆ s.unsettled := by
    intro m hmem
    obtain ⟨b, hb, hc⟩ := mem_unsettled.1 hmem
    rcases isOpen_of_publish ho hb with ⟨rfl, rfl⟩ | ⟨-, hb⟩
    · exact absurd hset hc
    · exact mem_unsettled.2 ⟨b, hb, fun hset => hc (settled_of_settled h ho ht hcur hset)⟩
  have hold : (e :: es).countP (fun o => s.Misled o) = es.countP (fun o => s.Misled o) :=
    List.countP_cons_of_neg (by simpa using hm)
  cases hshow : slot.showsChange (run.analysis r) with
  | true =>
    -- What is settled has nothing new to show.
    have hlt : (s.modifySlot e.slot (·.publish (run.analysis r))).unsettled ⊂ s.unsettled := by
      refine (Finset.ssubset_iff_of_subset hun).2 ⟨e.slot, mem_unsettled.2 ⟨slot, ho, ?_⟩, fun hmem => ?_⟩
      · exact not_settled_of_showsChange (h.orderly _ _ ho) ht.grammar ht.table hsettles hshow
      · obtain ⟨b, hb, hc⟩ := mem_unsettled.1 hmem
        rcases isOpen_of_publish ho hb with ⟨-, rfl⟩ | ⟨hne, -⟩
        · exact hc hset
        · exact hne rfl
    refine effort_lt_of_agitation hbehind ?_
    have := Finset.card_lt_card hlt
    rw [hshow] at hmis
    rw [agitation, agitation, hold]
    omega
  | false =>
    rw [hshow, Bool.or_false] at hmis
    rw [Bool.or_false]
    refine effort_lt_of_work hbehind ?_ ?_
    · have := Finset.card_le_card hun
      rw [agitation, agitation, hold]
      omega
    · have hdue := Nat.mul_le_mul_left (5 * u + 8)
        (Finset.card_le_card (due_publish_subset (r := r) ho ht hs run.changed))
      rw [work, work, List.map_cons, List.sum_cons, List.map_cons, List.sum_cons,
        funext (load_eq hsame)]
      simp only [load, hs, Stage.toGo, Stage.toCome]
      omega

end publish

/-! ## All stages -/

theorem published_modifySlot {f : Slot → Slot} (hf : ∀ a, (f a).published? = a.published?) (n m : Nat) :
    (s.modifySlot n f).slots[m]?.bind Slot.published? = s.slots[m]?.bind Slot.published? := by
  rw [modifySlot, List.getElem?_modify]
  cases s.slots[m]? with
  | none => rfl
  | some a =>
    by_cases hn : n = m <;> simp [hn, hf]

theorem published_bump (s : Session) (ids : List String) (m : Nat) :
    (s.bump ids).slots[m]?.bind Slot.published? = s.slots[m]?.bind Slot.published? := by
  rw [bump, List.getElem?_map]
  cases s.slots[m]? with
  | none => rfl
  | some a => exact Slot.published?_bump

section
variable {U : List String} {ps : List Publication}

theorem Bounded.of_same (h : s.Bounded U) (hsame : SameDocuments s s')
    (hp : ∀ m : Nat, s'.slots[m]?.bind Slot.published? = s.slots[m]?.bind Slot.published?) :
    s'.Bounded U := by
  refine ⟨fun m b hb => ?_, fun m b x hb hx => ?_, fun e t ht => h.host e t (hsame.hostTable? e ▸ ht)⟩
  · obtain ⟨a, ha, htag, -⟩ := hsame.isOpen_of_published hp hb
    rw [show b.latest = a.latest from congrArg (·.2.2) htag]
    exact h.latest m a ha
  · obtain ⟨a, ha, -, hpa⟩ := hsame.isOpen_of_published hp hb
    exact h.published m a x ha (hpa ▸ hx)

theorem Bounded.publish (h : s.Bounded U) (ho : s.IsOpen e.slot slot)
    (ht : run.table = .ofText slot.latest.text) :
    (s.modifySlot e.slot (·.publish (run.analysis r))).Bounded U := by
  refine ⟨fun m b hb => ?_, fun m b x hb hx => ?_, h.host⟩ <;>
    rcases isOpen_of_publish ho hb with ⟨rfl, rfl⟩ | ⟨-, hb⟩
  · exact h.latest e.slot slot ho
  · exact h.latest m b hb
  · cases hx
    rw [show (run.analysis r).table = .ofText slot.latest.text from ht]
    exact h.latest e.slot slot ho
  · exact h.published m b x hb hx

/-- Nothing else is shown unless something is published. -/
theorem Proceeds.published_eq (hp : Proceeds s e [] s' move) (m : Nat) :
    s'.slots[m]?.bind Slot.published? = s.slots[m]?.bind Slot.published? := by
  generalize hps : ([] : List Publication) = ps at hp
  induction hp with
  | publish => cases hps
  | discard _ _ _ _ ih => exact ih rfl
  | @takeUp s e => exact published_modifySlot (f := ({ · with inFlight := true })) (fun _ => rfl) e.slot m
  | @answerFresh s e | @informFresh s e =>
    exact published_modifySlot (f := ({ · with inFlight := false })) (fun _ => rfl) e.slot m
  | invalidate => exact published_bump _ _ m
  | @announce s _ _ _ =>
    obtain ⟨scripts, events, heq⟩ := s.announce_eq
    rw [heq]
  | _ => rfl

theorem Proceeds.bounded (hp : Proceeds s e ps s' move) (h : s.InHand ledger (e :: es))
    (hU : s.Bounded U) : s'.Bounded U := by
  by_cases hps : ps = []
  · subst hps
    exact hU.of_same (hp.sameDocuments h) hp.published_eq
  · cases hp with
    | publish hs ho _ hp =>
      obtain ⟨slot', ho', hf⟩ := h.carries e (.head _)
      obtain rfl := ho'.eq ho
      simp only [Fits, hs] at hf
      exact (hU.publish ho hf.1.table).of_same (hp.sameDocuments (h.publish hs ho)) hp.published_eq
    | _ => exact absurd rfl hps

/-- A slot that is looked at again is let go, or read anew. -/
theorem Proceeds.not_supplied {t : SymbolTable} {run' : Run} {changed : Bool}
    (hp : Proceeds s e ps s' move) (hs : e.stage = .reread changed) (ho : o ∈ move.errands)
    (hr : o.stage.run? = some run') : (g, some t) ∉ run'.known := by
  cases hp with
  | beginAgain =>
    obtain rfl := List.mem_singleton.1 ho
    obtain rfl := Option.some.inj hr
    exact fun hk => supplied_firstKnown (known_readSlot _ _ _ _ _ ▸ hk)
  | answerFresh => cases ho
  | informFresh =>
    obtain rfl := List.mem_singleton.1 ho
    cases hr
  | _ => simp_all

/-- The tables that a run has been given are those that it had been given before, or one that is
published. -/
theorem Proceeds.supplied {t : SymbolTable} {run' : Run} (hp : Proceeds s e ps s' move)
    (h : s.InHand ledger (e :: es)) (ho : o ∈ move.errands) (hr : o.stage.run? = some run')
    (hk : (g, some t) ∈ run'.known) :
    (∃ run, e.stage.run? = some run ∧ (g, some t) ∈ run.known) ∨
      ∃ m b x, s.IsOpen m b ∧ b.published? = some x ∧ x.table = t := by
  cases hp with
  | publish _ _ _ hp | discard _ _ _ hp => exact (hp.not_supplied rfl ho hr hk).elim
  | answer | answerFresh | announce => cases ho
  | wait | overtaken | informFresh | inform | invalidate =>
    obtain rfl := List.mem_singleton.1 ho
    cases hr
  | takeUp | beginAgain =>
    obtain rfl := List.mem_singleton.1 ho
    obtain rfl := Option.some.inj hr
    exact (supplied_firstKnown (known_readSlot _ _ _ _ _ ▸ hk)).elim
  | keep hs | record hs _ | resolved hs _ | completed hs _ _ =>
    obtain rfl := List.mem_singleton.1 ho
    obtain rfl := Option.some.inj hr
    exact .inl ⟨_, by rw [hs]; rfl, hk⟩
  | call hs _ _ =>
    obtain rfl | rfl := by simpa [Move.errands] using ho
    · cases hr
    · obtain rfl := Option.some.inj hr
      exact .inl ⟨_, by rw [hs]; rfl, hk⟩
  | learnNone hs _ _ _ =>
    obtain rfl := List.mem_singleton.1 ho
    obtain rfl := Option.some.inj hr
    refine .inl ⟨_, by rw [hs]; rfl, ?_⟩
    simpa [Run.learn] using hk
  | @takeTable s e run g' m hs =>
    obtain rfl := List.mem_singleton.1 ho
    obtain rfl := Option.some.inj hr
    rcases List.mem_append.1 hk with hk | hk
    · exact .inl ⟨run, by rw [hs]; rfl, hk⟩
    · obtain ⟨rfl, ht⟩ : g = g' ∧ some t = (s.slots[m]?.bind Slot.published?).map Analysis.table := by
        simpa using hk
      obtain ⟨slot, ho, hf⟩ := h.carries e (.head _)
      simp only [Fits, hs] at hf
      obtain ⟨b, hb, -⟩ := h.coherent.isOpen_of_source? hf.2.1.source
      rw [hb.get, Option.bind_some, eq_comm, Option.map_eq_some_iff] at ht
      obtain ⟨x, hx, hxt⟩ := ht
      exact .inr ⟨m, b, x, hb, hx, hxt⟩

/-- No stage brings other grammars into play. -/
theorem Within.proceed (hW : s.Within U (e :: es)) (hp : Proceeds s e ps s' move)
    (h : s.InHand ledger (e :: es)) : s'.Within U (move.errands ++ es) := by
  refine ⟨hp.bounded h hW.bounded, fun o ho run' hr g t hk => ?_⟩
  rcases List.mem_append.1 ho with ho | ho
  · rcases hp.supplied h ho hr hk with ⟨run, hrun, hk⟩ | ⟨m, b, x, hb, hx, rfl⟩
    · exact hW.known e (.head _) run hrun g t hk
    · exact hW.bounded.published m b x hb hx
  · exact hW.known o (.tail _ ho) run' hr g t hk

theorem Within.restage {o : Errand} (h : s.Within U (e :: es)) (hb : s'.Bounded U)
    (hrun : o.stage.run? = none ∨ o.stage.run? = e.stage.run?) : s'.Within U (o :: es) := by
  refine ⟨hb, fun x hx run hr => ?_⟩
  rcases List.mem_cons.1 hx with rfl | hx
  · rcases hrun with hnone | heq
    · cases hnone.symm.trans hr
    · exact h.known e (.head _) run (heq ▸ hr)
  · exact h.known x (.tail _ hx) run hr

/-- Nobody else is at work on a document that is taken up, or held by the errand. -/
theorem mem_due_of_claim (h : s.InHand ledger (e :: es)) (ho : s.IsOpen e.slot slot)
    (hf : slot.isFresh = false) (hrun : e.stage.run? = none)
    (hfree : ∀ o ∈ es, o.stage.holds = true → some e.slot ≠ some o.slot) :
    e.slot ∈ s.due (e :: es) := by
  refine mem_due.2 ⟨slot, ho, hf, fun o hmem hslot run hr => ?_⟩
  rcases List.mem_cons.1 hmem with rfl | hmem
  · rw [hrun] at hr
    cases hr
  · exact absurd (congrArg some hslot.symm) (hfree o hmem (Stage.holds_of_run? hr))

/-- A document is not due any more once its analysis has begun. -/
theorem not_mem_due_of_begin (ho : s'.IsOpen e.slot b) (ht : b.epoch = slot.epoch)
    (requester? : Option String) (changed : Bool) :
    e.slot ∉ s'.due ([{ e with stage := .extract (s.readSlot e.slot slot requester? changed).2 }] ++ es) := by
  intro hmem
  obtain ⟨c, hc, -, hno⟩ := mem_due.1 hmem
  obtain rfl := hc.eq ho
  exact hno _ (.head _) rfl _ rfl ht.symm

theorem effort_lt_of_answer (hs : e.stage = .claim ∨ e.stage = .wait) :
    s.effort u es < s.effort u (e :: es) := by
  refine effort_lt_of_load [] (.refl s) (fun _ => rfl) (fun ha hb => ?_) (Nat.zero_le _)
    (fun a b run _ _ hr _ => ?_) ?_
  · rw [ha.eq hb]
    exact ⟨rfl, id⟩
  · rcases hs with hs | hs <;> simp [hs, Stage.run?] at hr
  · rcases hs with hs | hs <;> simp [load, hs, Stage.toGo, Stage.toCome]

/-- An invalidation makes at most one document due. -/
theorem card_due_bump_le {ids : List String} {an : Analysis} (h : s.InHand ledger (e :: es))
    (hs : e.stage = .invalidate (id :: ids) an) :
    ((s.bump [id]).due ({ e with stage := .invalidate ids an } :: es)).card ≤
      (s.due (e :: es)).card + 1 := by
  have hsub : ∀ m ∈ (s.bump [id]).due ({ e with stage := .invalidate ids an } :: es),
      s.slotOf? id = some m ∨ m ∈ s.due (e :: es) := by
    intro m hm
    obtain ⟨b, hb, hf, hno⟩ := mem_due.1 hm
    obtain ⟨a, ha, rfl⟩ := hb.of_bump
    by_cases hid : a.id = id
    · exact .inl (hid ▸ h.coherent.unique.slotOf? ha)
    · rw [Slot.bump_of_not_mem (by simpa using hid)] at hf hno
      refine .inr (mem_due.2 ⟨a, ha, hf, fun o ho hom run hr => ?_⟩)
      rcases List.mem_cons.1 ho with rfl | ho
      · simp [hs, Stage.run?] at hr
      · exact hno o (.tail _ ho) hom run hr
  cases hn : s.slotOf? id with
  | none =>
    refine (Finset.card_le_card fun m hm => ?_).trans (Nat.le_succ _)
    exact (hsub m hm).resolve_left (by simp [hn])
  | some k =>
    refine (Finset.card_le_card fun m hm => ?_).trans (Finset.card_insert_le k _)
    refine Finset.mem_insert.2 ((hsub m hm).imp_left fun hm => ?_)
    exact (Option.some.inj (hn.symm.trans hm)).symm

theorem Proceeds.effort_lt (hp : Proceeds s e ps s' move) (h : s.InHand ledger (e :: es))
    (hW : s.Within U (e :: es)) :
    s'.effort U.length (move.errands ++ es) < s.effort U.length (e :: es) := by
  induction hp generalizing ledger with
  | @publish s s' e slot run r move hs ho _ _ ih =>
    obtain ⟨slot', ho', hf⟩ := h.carries e (.head _)
    obtain rfl := ho'.eq ho
    simp only [Fits, hs] at hf
    have hb := hW.bounded.publish (r := r) ho hf.1.table
    exact (ih (h.publish hs ho) (hW.restage hb (.inl rfl))).trans (effort_lt_publish h ho hf.1 hs hf.2)
  | @discard s s' e slot run r move hs ho hold _ ih =>
    have h' : s.InHand ledger ({ e with stage := .reread run.changed } :: es) :=
      h.turn (by simp [hs]) (by simp [hs, Stage.changed]) (by simp [hs, Stage.holds])
        fun _ _ _ _ => trivial
    refine (ih h' (hW.restage hW.bounded (.inl rfl))).trans
      (effort_lt_of_stage (fun hm => absurd rfl hm.of_none) (fun slot' run' ho' hr he => ?_) ?_)
    · -- An analysis that has not been overtaken would be newer.
      obtain ⟨b, hb, hf⟩ := h.carries e (.head _)
      obtain rfl := ho'.eq ho
      obtain rfl := hb.eq ho
      simp only [Fits, hs] at hf
      obtain rfl : run = run' := by simpa [hs, Stage.run?] using hr
      have hnew : b.isNewer (run.analysis r) = true :=
        (h.orderly _ _ ho).isNewer hf.1.stale hf.1.snapshot he
      rw [hold] at hnew
      cases hnew
    · simp [load, hs, Stage.toGo, Stage.toCome]
  | answer hs => exact effort_lt_of_answer hs
  | wait hs ho hf hp hr =>
    exact effort_lt_of_stage (fun hm => absurd rfl hm.of_none) (by simp [hs, Stage.run?])
      (by simp [load, hs, Stage.toGo, Stage.toCome])
  | @overtaken s e slot run hs ho he =>
    refine effort_lt_of_stage (fun hm => absurd rfl hm.of_none) (fun slot' run' ho' hr he' => ?_) ?_
    · obtain rfl := ho'.eq ho
      obtain rfl : run = run' := by
        rcases hs with hs | ⟨r, hs⟩ <;> simpa [hs, Stage.run?] using hr
      exact absurd he'.symm he
    · rcases hs with hs | ⟨r, hs⟩ <;> simp [load, hs, Stage.toGo, Stage.toCome]
  | keep hs | completed hs _ _ =>
    exact effort_lt_of_restage (by rw [hs]; rfl) (by simp [load, hs, Stage.toGo, Stage.toCome])
  | resolved hs _ =>
    refine effort_lt_of_restage (by rw [hs]; rfl) ?_
    simp only [load, hs, Stage.toGo, Stage.toCome]
    omega
  | @inform s e slot a ids hs ho hids =>
    refine effort_lt_of_stage (fun hm => absurd rfl hm.of_none) (by simp [hs, Stage.run?]) ?_
    have hlen : ids.length ≤ s.slots.length := hids ▸ s.length_reached_le _ _ _
    have := Nat.mul_le_mul_left (5 * U.length + 9) hlen
    simp only [load, hs, Stage.toGo, Stage.toCome, Nat.mul_succ]
    omega
  | @call s e slot run g m hs ho ha =>
    refine effort_lt_of_load [_, _] (.refl s) (fun _ => rfl) (fun ha hb => ?_)
      ?_ (fun a b run' _ _ hr _ => .inr ⟨_, .tail _ (.head _), rfl, run, rfl, ?_⟩) ?_
    · rw [ha.eq hb]
      exact ⟨rfl, id⟩
    · rw [List.countP_cons_of_neg (by simpa using fun hm => hm.of_none rfl)]
      exact countP_misled_singleton (misled_restage_iff (by rw [hs]; rfl)).1
    · rw [Option.some.inj (show some run = some run' by rwa [hs] at hr)]
    · simp only [load, hs, Stage.toGo, Stage.toCome, List.map_cons, List.map_nil, List.sum_cons,
        List.sum_nil]
      omega
  | @learnNone s e slot run g hs ho hg hm =>
    obtain ⟨slot', ho', hf⟩ := h.carries e (.head _)
    obtain rfl := ho'.eq ho
    simp only [Fits, hs] at hf
    have hlt := hf.length_known_lt ho hW.bounded (hW.known e (.head _) run (by rw [hs]; rfl)) hg
    refine effort_lt_of_stage (.of_learn (by rw [hs]; rfl) ho ?_ rfl)
      (fun _ run' _ hr _ => .inr ⟨run.learn g none, rfl, ?_⟩) ?_
    · rw [visible?, if_pos (hf.resolveImports hg), hm, hostTable?, h.host]
      rfl
    · rw [Option.some.inj (show some run = some run' by rwa [hs] at hr)]
      rfl
    · show 5 * (U.length - (run.known ++ [_]).length) + 5 +
        (5 * U.length + 9) * (if run.changed then s.slots.length + 2 else 0) < _
      simp only [load, hs, Stage.toGo, Stage.toCome, List.length_append, List.length_cons,
        List.length_nil]
      omega
  | @takeTable s e run g m hs =>
    obtain ⟨slot, ho, hf⟩ := h.carries e (.head _)
    simp only [Fits, hs] at hf
    have hg := hf.2.1.attempt
    have hlt := hf.1.length_known_lt ho hW.bounded (hW.known e (.head _) run (by rw [hs]; rfl)) hg
    refine effort_lt_of_stage (.of_learn (by rw [hs]; rfl) ho ?_ rfl)
      (fun _ run' _ hr _ => .inr ⟨_, rfl, ?_⟩) ?_
    · rw [visible?, if_pos (hf.1.resolveImports hg), hf.2.1.source]
    · rw [Option.some.inj (show some run = some run' by rwa [hs] at hr)]
      rfl
    · show 5 * (U.length - (run.known ++ [_]).length) + 5 +
        (5 * U.length + 9) * (if run.changed then s.slots.length + 2 else 0) < _
      simp only [load, hs, Stage.toGo, Stage.toCome, List.length_append, List.length_cons,
        List.length_nil]
      omega
  | @record s e slot run hs ho =>
    refine effort_lt_of_load [_] ((Proceeds.record hs ho).sameDocuments h) (fun _ => rfl)
      (fun {m a b} ha hb => ?_) (countP_misled_singleton (misled_restage_iff (by rw [hs]; rfl)).1)
      (fun a b run' _ _ hr _ => .inr ⟨_, List.mem_singleton_self _, rfl, run, rfl, ?_⟩) ?_
    · rw [Option.some.inj (ha.get.symm.trans hb.get)]
      exact ⟨rfl, id⟩
    · rw [Option.some.inj (show some run = some run' by rwa [hs] at hr)]
    · simp only [load, hs, Stage.toGo, Stage.toCome, List.map_cons, List.map_nil, List.sum_cons,
        List.sum_nil]
      omega
  | @announce s e a hs =>
    have hsame := (Proceeds.announce hs).sameDocuments h
    obtain ⟨scripts, events, heq⟩ := s.announce_eq
    rw [heq] at hsame ⊢
    refine effort_lt_of_load [] hsame (fun _ => rfl) (fun {m a b} ha hb => ?_) (Nat.zero_le _)
      (fun a b run _ _ hr _ => ?_) ?_
    · rw [Option.some.inj (ha.get.symm.trans hb.get)]
      exact ⟨rfl, id⟩
    · simp [hs, Stage.run?] at hr
    · simp [load, hs, Stage.toGo, Stage.toCome]
  | @answerFresh s e slot hs ho hf =>
    have hp := Proceeds.answerFresh hs ho hf
    refine effort_lt_of_load [] (hp.sameDocuments h) hp.published_eq (fun {m a b} ha hb => ?_) (Nat.zero_le _)
      (fun a b run _ _ hr _ => ?_) ?_
    · rcases (getElem?_letGo ho).1 hb.get with ⟨rfl, rfl⟩ | ⟨-, hb⟩
      · rw [ha.eq ho]
        exact ⟨rfl, id⟩
      · rw [Option.some.inj (ha.get.symm.trans hb)]
        exact ⟨rfl, id⟩
    · simp [hs, Stage.run?] at hr
    · simp [load, hs, Stage.toGo, Stage.toCome]
  | @informFresh s e slot hs ho hf =>
    have hp := Proceeds.informFresh hs ho hf
    refine effort_lt_of_load [_] (hp.sameDocuments h) hp.published_eq (fun {m a b} ha hb => ?_)
      (countP_misled_singleton fun hm => absurd rfl hm.of_none) (fun a b run _ _ hr _ => ?_) ?_
    · rcases (getElem?_letGo ho).1 hb.get with ⟨rfl, rfl⟩ | ⟨-, hb⟩
      · rw [ha.eq ho]
        exact ⟨rfl, id⟩
      · rw [Option.some.inj (ha.get.symm.trans hb)]
        exact ⟨rfl, id⟩
    · simp [hs, Stage.run?] at hr
    · simp [load, hs, Stage.toGo, Stage.toCome, Nat.mul_succ]
      omega
  | @takeUp s e slot hs ho hfresh hf =>
    have hp := Proceeds.takeUp hs ho hfresh hf
    have ho' : (s.hold e.slot).IsOpen e.slot { slot with inFlight := true } :=
      ⟨(getElem?_hold ho).2 (.inl ⟨rfl, rfl⟩), ho.opened⟩
    refine effort_lt_of_begin [_] (hp.sameDocuments h) hp.published_eq (fun {m a b} ha hb => ?_)
      (countP_misled_singleton fun hm => absurd hm (not_misled_of_firstKnown rfl
        (known_readSlot s e.slot slot _ _)))
      (fun a b run _ _ hr _ => ?_)
      (mem_due_of_claim h ho hfresh ?_ fun o hmem => h.holders_eq_zero ho hf o (.tail _ hmem))
      (not_mem_due_of_begin ho' rfl _ _) ?_
    · rcases (getElem?_hold ho).1 hb.get with ⟨rfl, rfl⟩ | ⟨-, hb⟩
      · rw [ha.eq ho]
        exact ⟨rfl, id⟩
      · rw [Option.some.inj (ha.get.symm.trans hb)]
        exact ⟨rfl, id⟩
    · rcases hs with hs | hs <;> simp [hs, Stage.run?] at hr
    · rcases hs with hs | hs <;> rw [hs] <;> rfl
    · rcases hs with hs | hs <;>
      · simp only [load, hs, Stage.toGo, Stage.toCome, readSlot, Bool.false_eq_true, if_false,
          List.map_cons, List.map_nil, List.sum_cons, List.sum_nil]
        omega
  | @beginAgain s e slot changed hs ho hfresh =>
    have hp := Proceeds.beginAgain hs ho hfresh
    have ho' : IsOpen { s with parses := s.parses + 1 } e.slot slot := ⟨ho.get, ho.opened⟩
    refine effort_lt_of_begin [_] (hp.sameDocuments h) hp.published_eq (fun {m a b} ha hb => ?_)
      (countP_misled_singleton fun hm => absurd hm (not_misled_of_firstKnown rfl
        (known_readSlot s e.slot slot _ _)))
      (fun a b run _ _ hr _ => ?_)
      (mem_due_of_claim h ho hfresh (by rw [hs]; rfl) (h.ne_of_holds (by rw [hs]; rfl)))
      (not_mem_due_of_begin ho' rfl _ _) ?_
    · rw [Option.some.inj (ha.get.symm.trans hb.get)]
      exact ⟨rfl, id⟩
    · simp [hs, Stage.run?] at hr
    · simp only [load, hs, Stage.toGo, Stage.toCome, readSlot, List.map_cons, List.map_nil,
        List.sum_cons, List.sum_nil]
      omega
  | @invalidate s e id ids a hs =>
    have hp : Proceeds s e [] _ _ := .invalidate hs
    refine effort_lt_of_same [_] (hp.sameDocuments h) hp.published_eq
      (countP_misled_singleton fun hm => absurd rfl hm.of_none) ?_
    have hdue := Nat.mul_le_mul_left (5 * U.length + 8) (card_due_bump_le h hs)
    rw [Nat.mul_succ] at hdue
    simp only [load, hs, Stage.toGo, Stage.toCome, List.map_cons, List.map_nil, List.sum_cons,
      List.sum_nil, List.length_cons, Nat.mul_succ, List.singleton_append]
    omega

open scoped Classical in
/-- An errand that has got an answer has as much to do as while it waited for it. -/
theorem effort_resume_eq {g : String} (hs : e.stage = .await run g m) :
    s.effort u ({ e with stage := .takeTable run g m } :: es) = s.effort u (e :: es) := by
  have hrun : (Stage.takeTable run g m).run? = e.stage.run? := by rw [hs]; rfl
  have hmis : s.Misled { e with stage := .takeTable run g m } ↔ s.Misled e := misled_restage_iff hrun
  have hload : s.load u { e with stage := .takeTable run g m } = s.load u e := by
    simp only [load, hs, Stage.toGo, Stage.toCome]
  have hcount : ({ e with stage := .takeTable run g m } :: es).countP (fun o => s.Misled o) =
      (e :: es).countP (fun o => s.Misled o) := by
    rw [List.countP_cons, List.countP_cons]
    by_cases hm : s.Misled e
    · simp [hm, hmis.2 hm]
    · simp [hm, mt hmis.1 hm]
  rw [effort, effort, agitation, agitation, work, work, due_restage_eq hrun, hcount, List.map_cons,
    List.map_cons, hload]

theorem Within.resume {g : String} (h : s.Within U (e :: es)) (hs : e.stage = .await run g m) :
    s.Within U ({ e with stage := .takeTable run g m } :: es) :=
  h.restage h.bounded (.inr (by rw [hs]; rfl))

theorem Within.tail (h : s.Within U (e :: es)) : s.Within U es :=
  ⟨h.bounded, fun o ho => h.known o (.tail _ ho)⟩

theorem Within.perm {es' : List Errand} (h : s.Within U es) (hp : es.Perm es') : s.Within U es' :=
  ⟨h.bounded, fun o ho => h.known o (hp.mem_iff.2 ho)⟩

theorem effort_follow_lt {below rest : List Errand} (hp : Proceeds s e ps s' move)
    (h : s.InHand ledger (e :: (below ++ rest))) (hW : s.Within U (e :: (below ++ rest)))
    (hc : e.CalledFrom s below) :
    s'.effort U.length ((Worker.follow below move).errands ++ rest) <
        s.effort U.length (e :: (below ++ rest)) ∧
      s'.Within U ((Worker.follow below move).errands ++ rest) := by
  have hlt := hp.effort_lt h hW
  have hW' := hW.proceed hp h
  cases move with
  | stay e' => exact ⟨hlt, hW'⟩
  | call e' first => exact ⟨hlt, hW'⟩
  | answer a =>
    cases below with
    | nil => exact ⟨hlt, hW'⟩
    | cons o below =>
      obtain ⟨⟨run, g, slot, hs, -⟩, -⟩ := hc
      simp only [Worker.follow, Worker.resume, hs]
      exact ⟨(effort_resume_eq hs).trans_lt hlt, hW'.resume hs⟩

end

end Session

end GrammarAtlas
