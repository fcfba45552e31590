import GrammarAtlas.Proofs.Alignment
import GrammarAtlas.Proofs.SlotLife

/-! # Where published tables come from

An analysis under way gathers the tables it asks for, one after the other, and much may happen in
between. `Moves.progress` says once what a move does with the analyses under way (`Control.waits`):
it begins one, has the innermost ask for a table or get one, or ends it, perhaps with a publication. So
what is published at some moment was so before or has been published since (`Goes.published`), and the
tables behind it were got since or by an analysis that was under way already (`Goes.gathered`). -/

namespace GrammarAtlas

/-- An analysis under way that has read its text. -/
structure Wait where
  run : Run
  /-- The grammar it has asked for, and the slot of the document that is to provide it. If there is
  none, the host is asked. -/
  ask? : Option (String × Option Nat)

theorem Wait.unasked {q : Wait} {P : String → Option Nat → Prop} (h : q.ask? = none) :
    ∀ grammar source?, q.ask? = some (grammar, source?) → P grammar source? := by
  intro grammar source? hq
  rw [h] at hq
  cases hq

/-- The analyses that wait for this one to end, the innermost first. -/
def Continuation.waits : {outcome : Outcome} → Continuation outcome → List Wait
  | _, .stop => []
  | _, .script _ _ _ next | _, .notify _ next | _, .reply _ next | _, .consult _ _ _ next
  | _, .answer _ next | _, .refreshRest _ _ next | _, .deliver _ next => next.waits
  | _, .takeTable run grammar source next => ⟨run, some (grammar, some source)⟩ :: next.waits
  | _, .takeAnswer run grammar _ next => ⟨run, some (grammar, none)⟩ :: next.waits

namespace Control

def waits : Control → List Wait
  | .resolve run next => ⟨run, none⟩ :: next.waits
  | .cycle _ _ _ next | .perform _ next | .refresh _ _ next | .refreshAll _ _ next | .notify _ next
  | .script _ _ next | .finished next | .analysed _ next | .replied _ next => next.waits

/-- The slot that is about to be analysed, and on whose behalf. -/
def charge? : Control → Option (Nat × Option String)
  | .refresh n requester? _ | .cycle n requester? _ _ => some (n, requester?)
  | _ => none

end Control

theorem Continuation.tasks_eq {outcome : Outcome} (k : Continuation outcome) :
    k.tasks = k.waits.map (·.run.task) := by
  induction k with
  | stop => rfl
  | script _ _ _ _ ih | notify _ _ ih | reply _ _ ih | consult _ _ _ _ ih | answer _ _ ih
  | refreshRest _ _ _ ih | deliver _ _ ih => exact ih
  | takeTable run _ _ _ ih | takeAnswer run _ _ _ ih => exact congrArg (run.task :: ·) ih

namespace Control

/-- Those that have read their text are among those that are under way. -/
theorem sublist_tasks (c : Control) : (c.waits.map (·.run.task)).Sublist c.tasks := by
  cases c with
  | cycle n requester? changed next =>
    rw [tasks, waits, Continuation.tasks_eq]
    exact List.sublist_cons_self _ _
  | resolve run next => rw [tasks, waits, List.map_cons, Continuation.tasks_eq]
  | perform | refresh | refreshAll | notify | script | finished | analysed | replied =>
    rw [tasks, waits, Continuation.tasks_eq]

theorem waits_notifyIf (s : Session) (reason : Bool) (next : Continuation .nothing) :
    (notifyIf s reason next).waits = next.waits := by
  rw [notifyIf]
  split <;> rfl

/-- No slot is about to be analysed on somebody's behalf. -/
theorem uncharged {c : Control} {P : Nat → String → Prop} (h : c.charge?.bind Prod.snd = none) :
    ∀ n d, c.charge? = some (n, some d) → P n d := by
  intro n d hc
  rw [hc] at h
  cases h

theorem charge?_notifyIf (s : Session) (reason : Bool) (next : Continuation .nothing) :
    (notifyIf s reason next).charge? = none := by
  rw [notifyIf]
  split <;> rfl

end Control

/-- The run has read what its snapshot says. -/
structure Run.Faithful (run : Run) : Prop where
  grammar : run.grammar = .parse run.snapshot.text
  table : run.table = .ofTree run.grammar.tree

namespace Session
variable {s s' s'' : Session} {n m : Nat} {slot a b : Slot} {x y z : Moment} {an : Analysis}
  {settings : Settings} {host? : Option Host} {p q : Wait} {grammar : String}
  {source? : Option Nat} {table? : Option SymbolTable}

/-- The analysis of slot `n` is about to ask for a grammar, which is looked up in a slot or else with
the host. -/
structure Seeks (x : Moment) (n : Nat) (grammar : String) (source? : Option Nat) : Prop where
  intro ::
  exists_run : ∃ run next slot, x.2 = .resolve run next ∧ run.slot = n ∧ x.1.slots[n]? = some slot ∧
    Resolution.attempt run.known run.grammar.tree run.table x.1.settings.warnUnresolved =
      .error grammar ∧ x.1.source? slot.id grammar = source?

/-- The analysis of slot `n` gets an answer for a grammar: from a slot, or else from the host. -/
inductive Takes : Moment → Nat → String → Option Nat → Option SymbolTable → Prop
  | table (s : Session) (a : Analysis) (run : Run) (grammar : String) (source : Nat)
      (next : Continuation .analysis) :
      Takes (s, .analysed a (.takeTable run grammar source next)) run.slot grammar (some source)
        ((s.slots[source]?.bind Slot.published?).map Analysis.table)
  | answer (s : Session) (run : Run) (grammar : String) (table? : Option SymbolTable)
      (next : Continuation .analysis) :
      Takes (s, .finished (.takeAnswer run grammar table? next)) run.slot grammar none table?
  | nobody {x : Moment} {n : Nat} {grammar : String} (h : Seeks x n grammar none)
      (hhost : x.1.host? = none) : Takes x n grammar none none

/-- Nothing is published between `s` and `s'`. -/
structure Spares (s s' : Session) : Prop where
  settings : s'.settings = s.settings
  published : ∀ (n : Nat) (b : Slot) an, s'.slots[n]? = some b → b.published? = some an →
    ∃ a, s.slots[n]? = some a ∧ a.published? = some an

namespace Spares

theorem of_slots_eq (hset : s'.settings = s.settings) (h : s'.slots = s.slots) : Spares s s' :=
  ⟨hset, fun _ b _ hb hp => ⟨b, h ▸ hb, hp⟩⟩

theorem refl (s : Session) : Spares s s := of_slots_eq rfl rfl

theorem trans (h : Spares s s') (h' : Spares s' s'') : Spares s s'' := by
  refine ⟨h'.settings.trans h.settings, fun n c an hc hp => ?_⟩
  obtain ⟨b, hb, hp⟩ := h'.published n c an hc hp
  exact h.published n b an hb hp

theorem modifySlot {f : Slot → Slot} (hf : ∀ a, (f a).published? = a.published?) (n : Nat) :
    Spares s (s.modifySlot n f) := by
  refine ⟨rfl, fun m b an hb hp => ?_⟩
  rw [Session.modifySlot, List.getElem?_modify] at hb
  obtain ⟨a, ha, rfl⟩ := Option.map_eq_some_iff.1 hb
  refine ⟨a, ha, ?_⟩
  split at hp
  · rw [← hf a, hp]
  · exact hp

end Spares

theorem Echo.spares (h : Echo s s') : Spares s s' := by
  refine ⟨?_, fun n b an hb hp => ?_⟩
  · cases h with
    | invalidate id =>
      rw [Session.invalidate]
      split <;> rfl
    | drop id =>
      rw [dropNamed]
      split <;> rfl
  · obtain ⟨a, ha, hpa⟩ := h.published hb
    exact ⟨a, ha, hpa.trans hp⟩

theorem Echoes.spares (h : Echoes s s') : Spares s s' :=
  h.keeps (P := Spares s) (fun hs hecho => hs.trans hecho.spares) (.refl s)

theorem spares_setText (s : Session) (id text : String) : Spares s (s.setText id text).1 := by
  rw [setText]
  split
  · split
    · exact .refl s
    · exact .modifySlot (f := (·.setText text)) (fun _ => rfl) _
  · exact ⟨rfl, fun n b an hb hp => by
      rcases (getElem?_register_eq_some s id text).1 hb with ⟨-, rfl⟩ | ⟨-, hb⟩
      · cases hp
      · exact ⟨b, hb, hp⟩⟩

theorem spares_filed (s : Session) (id text : String) :
    Spares s ((s.setText id text).1.rename id text).1 := by
  have hname : Spares (s.setText id text).1 { (s.setText id text).1 with
      graph := (s.setText id text).1.graph.setName id (Grammar.sniffName? text) } :=
    .of_slots_eq rfl rfl
  exact ((s.spares_setText id text).trans hname).trans (echoes_invalidateReached _ _ _ _).spares

/-! ## What a move does with the analyses under way -/

inductive Progress : Moment → Moment → Prop
  | aside {s s' : Session} {c c' : Control} (hs : Spares s s') (hwaits : c'.waits = c.waits)
      (hcharge : ∀ n d, c'.charge? = some (n, some d) → c.charge? = some (n, some d)) :
      Progress (s, c) (s', c')
  | read {s s' : Session} {c c' : Control} {slot : Slot} {run : Run} (hs : Spares s s')
      (ho : s.IsOpen run.slot slot) (hfresh : slot.isFresh = false) (hrun : run.Faithful)
      (hknown : run.known = firstKnown s.settings run.table)
      (hwaits : c'.waits = ⟨run, none⟩ :: c.waits)
      (hcharge : c.charge? = some (run.slot, run.requester?)) (hcharge' : c'.charge? = none) :
      Progress (s, c) (s', c')
  | ask {s s' : Session} {c c' : Control} {slot : Slot} {run : Run} {rest : List Wait}
      {grammar : String} {source? : Option Nat} (hs : Spares s s')
      (hn : s.slots[run.slot]? = some slot) (hseeks : Seeks (s, c) run.slot grammar source?)
      (hwaits : c.waits = ⟨run, none⟩ :: rest)
      (hwaits' : c'.waits = ⟨run, some (grammar, source?)⟩ :: rest)
      (hcharge : c'.charge? = source?.map (·, some slot.id)) : Progress (s, c) (s', c')
  | learn {s s' : Session} {c c' : Control} {run : Run} {rest : List Wait} {grammar : String}
      {source? : Option Nat} {table? : Option SymbolTable} (hs : Spares s s')
      (htakes : Takes (s, c) run.slot grammar source? table?)
      (hwaits : c.waits = ⟨run, some (grammar, source?)⟩ :: rest ∨
        Seeks (s, c) run.slot grammar source? ∧ c.waits = ⟨run, none⟩ :: rest)
      (hwaits' : c'.waits = ⟨run.learn grammar table?, none⟩ :: rest)
      (hcharge : c'.charge? = none) : Progress (s, c) (s', c')
  | leave {s s' : Session} {c c' : Control} {run : Run} (hset : s'.settings = s.settings)
      (hp : ∀ (n : Nat) (b : Slot) an, s'.slots[n]? = some b → b.published? = some an →
        (∃ a, s.slots[n]? = some a ∧ a.published? = some an) ∨
        n = run.slot ∧ ∃ p, s.publication? c = some p ∧ p.slot = n ∧ p.analysis = an)
      (hwaits : c.waits = ⟨run, none⟩ :: c'.waits)
      (hcharge : ∀ n d, c'.charge? = some (n, some d) → run.slot = n ∧ run.requester? = some d) :
      Progress (s, c) (s', c')

theorem progress_begin (s : Session) (next : Continuation .reply) (operation : Operation) :
    Progress (s, .perform operation next) (s.begin next operation) := by
  have hnotify : ∀ {s' : Session} (reason : Bool) (k : Continuation .nothing), Spares s s' →
      k.waits = next.waits →
      Progress (s, .perform operation next) (s', .notifyIf s' reason k) := by
    intro s' reason k hs hk
    refine .aside hs ((Control.waits_notifyIf _ _ _).trans hk) fun n d h => ?_
    rw [Control.charge?_notifyIf] at h
    cases h
  cases operation with
  | update id text =>
    rw [begin_update]
    split
    · exact hnotify _ _ (s.spares_filed id text) rfl
    · exact .aside (s.spares_setText id text) rfl (Control.uncharged rfl)
  | query id text? query =>
    cases text? with
    | none =>
      rw [begin]
      split <;> exact .aside (.refl s) rfl (Control.uncharged rfl)
    | some text =>
      rw [begin_query]
      split
      · exact hnotify _ _ (s.spares_filed id text) rfl
      · exact .aside (s.spares_setText id text) rfl (Control.uncharged rfl)
  | close id =>
    rw [begin]
    split
    · exact .aside (.refl s) rfl (Control.uncharged rfl)
    · rename_i n hn
      refine hnotify _ _ ?_ rfl
      have hdrop : Spares s (s.drop n id) :=
        (Spares.modifySlot (f := Slot.close) (fun _ => rfl) n).trans (.of_slots_eq rfl rfl)
      exact hdrop.trans (echoes_invalidateReached _ _ _ _).spares
  | reset => exact .aside (echoes_foldl Echo.drop s _).spares rfl (Control.uncharged rfl)
  | refresh | freshness | documents | subscribe | unsubscribe | settings | summary =>
    exact .aside (.of_slots_eq rfl rfl) rfl (Control.uncharged rfl)

theorem progress_cycleSlot (s : Session) (n : Nat) (requester? : Option String) (changed : Bool)
    (next : Continuation .analysis) :
    Progress (s, .cycle n requester? changed next) (s.cycleSlot n requester? changed next) := by
  rw [cycleSlot]
  split
  · exact .aside (.refl s) rfl (Control.uncharged rfl)
  · rename_i slot hn
    split
    · rw [releaseSlot]
      have hrelease : Spares s (s.modifySlot n ({ · with inFlight := false })) :=
        .modifySlot (f := ({ · with inFlight := false })) (fun _ => rfl) n
      split
      · exact .aside (hrelease.trans (echoes_invalidateReached _ _ _ _).spares) rfl (Control.uncharged rfl)
      · exact .aside hrelease rfl (Control.uncharged rfl)
    · rename_i hno
      simp only [Bool.or_eq_true, not_or, Bool.not_eq_true] at hno
      exact .read (.of_slots_eq rfl (slots_readSlot s n slot requester? changed)) ⟨hn, hno.1⟩ hno.2
        ⟨rfl, rfl⟩ rfl rfl rfl rfl

theorem progress_askFor (s : Session) (run : Run) (slot : Slot) (grammar : String)
    (next : Continuation .analysis) (hn : s.slots[run.slot]? = some slot)
    (ha : Resolution.attempt run.known run.grammar.tree run.table s.settings.warnUnresolved =
      .error grammar) :
    Progress (s, .resolve run next) (s.askFor run slot.id grammar next) := by
  have hseeks : ∀ {source?}, s.source? slot.id grammar = source? →
      Seeks (s, .resolve run next) run.slot grammar source? :=
    fun hsource => ⟨run, next, slot, rfl, rfl, hn, ha, hsource⟩
  rw [askFor]
  split
  · rename_i hsource
    exact .ask (.refl s) hn (hseeks hsource) rfl rfl rfl
  · rename_i hsource
    split
    · rename_i hhost
      exact .learn (.refl s) (.nobody (hseeks hsource) hhost) (.inr ⟨hseeks hsource, rfl⟩) rfl rfl
    · simp only [takeHook]
      split
      · exact .ask (.of_slots_eq rfl rfl) hn (hseeks hsource) rfl rfl rfl
      · split <;> exact .ask (.of_slots_eq rfl rfl) hn (hseeks hsource) rfl rfl rfl

theorem progress_resolveRun (s : Session) (run : Run) (next : Continuation .analysis) :
    Progress (s, .resolve run next) (s.resolveRun run next) := by
  have hsame : ∀ (n : Nat) (b : Slot) an, s.slots[n]? = some b → b.published? = some an →
      (∃ a, s.slots[n]? = some a ∧ a.published? = some an) ∨
      n = run.slot ∧ ∃ p, s.publication? (.resolve run next) = some p ∧ p.slot = n ∧
        p.analysis = an :=
    fun _ b _ hb hp => .inl ⟨b, hb, hp⟩
  cases hn : s.slots[run.slot]? with
  | none =>
    rw [resolveRun, hn]
    exact .leave rfl hsame rfl (Control.uncharged rfl)
  | some slot =>
    cases ha : Resolution.attempt run.known run.grammar.tree run.table s.settings.warnUnresolved with
    | error grammar =>
      have hstep : s.resolveRun run next = s.askFor run slot.id grammar next := by
        simp only [resolveRun, hn, ha]
      rw [hstep]
      exact s.progress_askFor run slot grammar next hn ha
    | ok resolution =>
      have hstep : s.resolveRun run next = s.publish run slot resolution next := by
        simp only [resolveRun, hn, ha]
      have hcharge : ∀ {changed} n d, (Control.cycle run.slot run.requester? changed next).charge? =
          some (n, some d) → run.slot = n ∧ run.requester? = some d :=
        fun _ _ h => Prod.mk.inj (Option.some.inj h)
      rw [hstep, publish]
      split
      · exact .leave rfl hsame rfl hcharge
      · rename_i hno
        have hpub : s.publication? (.resolve run next) =
            some (run.publication slot s.graph resolution) := by
          simp only [publication?, hn, ha]
          rw [if_neg hno]
          rfl
        refine .leave rfl (fun n b an hb hp => ?_) rfl hcharge
        rcases (getElem?_modifySlot_eq_some hn _).1 hb with ⟨rfl, rfl⟩ | ⟨-, hb⟩
        · exact .inr ⟨rfl, _, hpub, rfl, Option.some.inj hp⟩
        · exact .inl ⟨b, hb, hp⟩

theorem progress_step (s : Session) (c : Control) : Progress (s, c) (s.step c) := by
  cases c with
  | perform operation next => exact s.progress_begin next operation
  | refresh n requester? next =>
    rw [step, refreshSlot]
    split
    · exact .aside (.refl s) rfl (Control.uncharged rfl)
    · split
      · exact .aside (.refl s) rfl (Control.uncharged rfl)
      · exact .aside (.modifySlot (f := ({ · with inFlight := true })) (fun _ => rfl) n) rfl
          fun _ _ h => h
  | cycle n requester? changed next => exact s.progress_cycleSlot n requester? changed next
  | resolve run next => exact s.progress_resolveRun run next
  | refreshAll ready ids next =>
    cases ids with
    | nil => exact .aside (.refl s) rfl (Control.uncharged rfl)
    | cons id ids =>
      rw [step]
      split <;> exact .aside (.refl s) rfl (Control.uncharged rfl)
  | notify handles next => cases handles <;> exact .aside (.of_slots_eq rfl rfl) rfl (Control.uncharged rfl)
  | script actor script next => cases script <;> exact .aside (.refl s) rfl (Control.uncharged rfl)
  | finished next =>
    cases next with
    | consult id text query next =>
      rw [step, resume]
      split <;> exact .aside (.refl s) rfl (Control.uncharged rfl)
    | takeAnswer run grammar table? next =>
      exact .learn (.refl s) (.answer s run grammar table? next) (.inl rfl) rfl rfl
    | notify | reply | deliver => exact .aside (.refl s) rfl (Control.uncharged rfl)
  | analysed a next =>
    cases next with
    | takeTable run grammar source next =>
      exact .learn (.refl s) (.table s a run grammar source next) (.inl rfl) rfl rfl
    | answer | refreshRest => exact .aside (.refl s) rfl (Control.uncharged rfl)
  | replied r next => cases next <;> exact .aside (.of_slots_eq rfl rfl) rfl (Control.uncharged rfl)

theorem Moves.progress (h : Moves x y) : Progress x y := by
  cases h with
  | step s c => exact s.progress_step c
  | script | answer | ask => exact .aside (.refl _) rfl (Control.uncharged rfl)

theorem Progress.settings_eq (h : Progress x y) : y.1.settings = x.1.settings := by
  cases h with
  | aside hs | read hs | ask hs | learn hs => exact hs.settings
  | leave hset => exact hset

theorem Goes.settings_eq (h : Goes x y) : y.1.settings = x.1.settings := by
  induction h with
  | refl => rfl
  | tail _ hmove ih => exact hmove.progress.settings_eq.trans ih

theorem Progress.published (h : Progress x y) (hb : y.1.slots[n]? = some b)
    (hp : b.published? = some an) :
    (∃ a, x.1.slots[n]? = some a ∧ a.published? = some an) ∨
      ∃ p, x.1.publication? x.2 = some p ∧ p.slot = n ∧ p.analysis = an := by
  cases h with
  | aside hs | read hs | ask hs | learn hs => exact .inl (hs.published n b an hb hp)
  | leave _ hleave => exact (hleave n b an hb hp).imp_right And.right

/-- What is published at some moment was so before, or has been published since. -/
theorem Goes.published (h : Goes x y) (hb : y.1.slots[n]? = some b) (hp : b.published? = some an) :
    (∃ a, x.1.slots[n]? = some a ∧ a.published? = some an) ∨
      ∃ z p, Goes x z ∧ Goes z y ∧ z.1.publication? z.2 = some p ∧ p.slot = n ∧ p.analysis = an := by
  induction h generalizing b with
  | refl => exact .inl ⟨b, hb, hp⟩
  | @tail y y' hxy hmove ih =>
    rcases hmove.progress.published hb hp with ⟨a, ha, hpa⟩ | ⟨p, hpub, hn, han⟩
    · rcases ih ha hpa with hold | ⟨z, p, hxz, hzy, hrest⟩
      · exact .inl hold
      · exact .inr ⟨z, p, hxz, hzy.tail hmove, hrest⟩
    · exact .inr ⟨y, p, hxy, .single hmove, hpub, hn, han⟩

/-- An analysis is published by the innermost run, with the tables that it has got. -/
theorem exists_run_of_publication? {c : Control} {p : Publication} (h : s.publication? c = some p) :
    ∃ run rest resolution, c.waits = ⟨run, none⟩ :: rest ∧
      Resolution.attempt run.known run.grammar.tree run.table s.settings.warnUnresolved =
        .ok resolution ∧
      p.slot = run.slot ∧ p.known = run.known ∧ p.analysis = run.analysis resolution := by
  unfold publication? at h
  split at h
  · rename_i run next
    split at h
    · rename_i slot resolution hn hok
      dsimp only at h
      split at h
      · cases h
      · cases h
        exact ⟨run, next.waits, resolution, rfl, hok, rfl, rfl, rfl⟩
    · cases h
  · cases h

theorem published_of_publication? {c : Control} {p : Publication} (h : s.publication? c = some p) :
    ∃ b, (s.step c).1.slots[p.slot]? = some b ∧ b.published? = some p.analysis := by
  unfold publication? at h
  split at h
  · rename_i run next
    split at h
    · rename_i slot resolution hn hok
      dsimp only at h
      split at h
      · cases h
      · rename_i hno
        cases h
        refine ⟨slot.publish _, ?_, rfl⟩
        simp only [step, resolveRun, hn, hok, publish, if_neg hno]
        rw [get?_modifySlot, hn, Option.map_some]
    · cases h
  · cases h

/-! ## What an analysis under way has got -/

/-- Since the moment `x` the analysis of slot `n` has asked for a grammar, or it had done so and was
waiting for the answer. -/
def Sought (x z : Moment) (n : Nat) (grammar : String) (source? : Option Nat) : Prop :=
  (∃ q ∈ x.2.waits, q.run.slot = n ∧ q.ask? = some (grammar, source?)) ∨
    ∃ w, Goes x w ∧ Goes w z ∧ Seeks w n grammar source?

/-- Since the moment `x` the analysis of slot `n` has got an answer for a grammar. -/
def Got (x z : Moment) (n : Nat) (grammar : String) (source? : Option Nat)
    (table? : Option SymbolTable) : Prop :=
  ∃ w, Goes x w ∧ Goes w z ∧ Takes w n grammar source? table? ∧ Sought x w n grammar source?

/-- What an analysis at the moment `z` knows: what it began with or what that of its slot knew at the
moment `x`, and what it has got since. -/
structure Gathered (x z : Moment) (q : Wait) : Prop where
  known : ∃ base extra, q.run.known = base ++ extra ∧
    (base = firstKnown z.1.settings q.run.table ∨
      ∃ q₀ ∈ x.2.waits, q₀.run.slot = q.run.slot ∧ q₀.run.known = base) ∧
    ∀ e ∈ extra, ∃ source?, Got x z q.run.slot e.1 source? e.2
  sought : ∀ g source?, q.ask? = some (g, source?) → Sought x z q.run.slot g source?

theorem Sought.move (h : Sought x y n grammar source?) (hmove : Moves y z) :
    Sought x z n grammar source? := by
  refine h.imp_right ?_
  rintro ⟨w, hxw, hwy, hw⟩
  exact ⟨w, hxw, hwy.tail hmove, hw⟩

theorem Gathered.move (h : Gathered x y q) (hmove : Moves y z) : Gathered x z q := by
  refine ⟨?_, fun g source? hq => (h.sought g source? hq).move hmove⟩
  obtain ⟨base, extra, hknown, hbase, hextra⟩ := h.known
  refine ⟨base, extra, hknown, ?_, fun e he => ?_⟩
  · rwa [hmove.progress.settings_eq]
  · obtain ⟨source?, w, hxw, hwy, ht⟩ := hextra e he
    exact ⟨source?, w, hxw, hwy.tail hmove, ht⟩

theorem Goes.gathered (h : Goes x z) : ∀ q ∈ z.2.waits, Gathered x z q := by
  induction h with
  | refl =>
    intro q hq
    exact ⟨⟨q.run.known, [], (List.append_nil _).symm, .inr ⟨q, hq, rfl, rfl⟩, by simp⟩,
      fun g source? hask => .inl ⟨q, hq, rfl, hask⟩⟩
  | @tail y z hxy hmove ih =>
    have hold : ∀ q ∈ y.2.waits, Gathered x z q := fun q hq => (ih q hq).move hmove
    have hset := hmove.progress.settings_eq
    cases hmove.progress with
    | aside _ hwaits => rwa [hwaits]
    | read _ _ _ _ hknown hwaits =>
      rw [hwaits, List.forall_mem_cons]
      exact ⟨⟨⟨_, [], (List.append_nil _).symm, .inl (by rw [hknown, hset]), by simp⟩, Wait.unasked rfl⟩, hold⟩
    | ask _ _ hseeks hwaits hwaits' =>
      rw [hwaits, List.forall_mem_cons] at hold
      rw [hwaits', List.forall_mem_cons]
      refine ⟨⟨hold.1.known, fun g source? hask => ?_⟩, hold.2⟩
      obtain ⟨rfl, rfl⟩ := Prod.mk.inj (Option.some.inj hask)
      exact .inr ⟨_, hxy, .single hmove, hseeks⟩
    | @learn s s' c c' run rest grammar source? table? _ htakes hwaits hwaits' =>
      -- Whether it had waited or not, it has asked.
      have hasked : Sought x (s, c) run.slot grammar source? := by
        rcases hwaits with hwaits | ⟨hseeks, -⟩
        · exact (ih ⟨run, _⟩ (hwaits ▸ .head _)).sought grammar source? rfl
        · exact .inr ⟨_, hxy, .refl, hseeks⟩
      have hlast : ∃ ask?, Gathered x (s', c') ⟨run, ask?⟩ ∧ ∀ q ∈ rest, Gathered x (s', c') q := by
        rcases hwaits with hwaits | ⟨-, hwaits⟩ <;> rw [hwaits, List.forall_mem_cons] at hold <;>
          exact ⟨_, hold⟩
      obtain ⟨ask?, hrun, hrest⟩ := hlast
      rw [hwaits', List.forall_mem_cons]
      refine ⟨⟨?_, Wait.unasked rfl⟩, hrest⟩
      obtain ⟨base, extra, hknown, hbase, hextra⟩ := hrun.known
      refine ⟨base, extra ++ [(grammar, table?)], ?_, hbase, fun e he => ?_⟩
      · rw [← List.append_assoc, ← hknown]
        rfl
      · rcases List.mem_append.1 he with he | he
        · exact hextra e he
        · rw [List.mem_singleton.1 he]
          exact ⟨source?, _, hxy, .single hmove, htakes, hasked⟩
    | leave _ _ hwaits =>
      rw [hwaits, List.forall_mem_cons] at hold
      exact hold.2

/-- A slot that is not fresh does not become so unless something is published for it. -/
theorem Tended.isFresh_eq_false {tasks : List Task} (ht : s.Tended tasks) (hs : Succeeds s s')
    (hback : ∀ (b : Slot) an, s'.slots[n]? = some b → b.published? = some an →
      ∃ a, s.slots[n]? = some a ∧ a.published? = some an)
    (h : ∀ a, s.slots[n]? = some a → a.isFresh = false) :
    ∀ b, s'.slots[n]? = some b → b.isFresh = false := by
  intro b hb
  rw [Bool.eq_false_iff]
  intro hf
  obtain ⟨p, hp, hlatest, hepoch⟩ := Slot.isFresh_iff.1 hf
  obtain ⟨a, ha, hpa⟩ := hback b p hb hp
  obtain ⟨b', hb', hab⟩ := hs n a ha
  obtain rfl : b = b' := Option.some.inj (hb.symm.trans hb')
  -- What is published lies between what the slot had before and what it has now.
  have hpast := ht.published n a p ha hpa
  have h₁ := hpast.version
  have h₂ := hab.version
  have h₃ := hpast.epoch
  have h₄ := hab.epoch
  rw [← hlatest] at h₂
  have hfresh : a.isFresh = true :=
    Slot.isFresh_iff.2 ⟨p, hpa, hpast.text (by omega), by omega⟩
  rw [h a ha] at hfresh
  cases hfresh

structure Occupied (s : Session) (q : Wait) : Prop where
  isFresh : ∀ a, s.slots[q.run.slot]? = some a → a.isFresh = false
  faithful : q.run.Faithful
  closedBook : s.settings.resolveImports = false → q.run.known = Resolution.closedBook q.run.table
  asked : ∀ g source?, q.ask? = some (g, source?) → Resolution.attempt q.run.known
    q.run.grammar.tree q.run.table s.settings.warnUnresolved = .error g

theorem Seeks.attempt {c : Control} {run : Run} {rest : List Wait}
    (h : Seeks (s, c) n grammar source?) (hc : c.waits = ⟨run, none⟩ :: rest) :
    Resolution.attempt run.known run.grammar.tree run.table s.settings.warnUnresolved =
      .error grammar := by
  obtain ⟨run', next, slot, hc', -, -, ha, -⟩ := h.exists_run
  obtain rfl : c = .resolve run' next := hc'
  obtain rfl : run' = run := congrArg Wait.run (List.cons.inj hc).1
  exact ha

/-- Without imports nothing is asked for. -/
theorem Occupied.resolveImports {run : Run} {ask? : Option (String × Option Nat)}
    (h : s.Occupied ⟨run, ask?⟩)
    (ha : Resolution.attempt run.known run.grammar.tree run.table s.settings.warnUnresolved =
      .error grammar) : s.settings.resolveImports = true := by
  rw [← Bool.not_eq_false]
  intro hno
  obtain ⟨r, hr⟩ := Resolution.attempt_closedBook run.grammar.tree run.table
    s.settings.warnUnresolved
  rw [h.closedBook hno, hr] at ha
  cases ha

theorem Occupied.mono {tasks : List Task} (h : s.Occupied q) (ht : s.Tended tasks)
    (hs : Succeeds s s') (hset : s'.settings = s.settings)
    (hback : ∀ (b : Slot) an, s'.slots[q.run.slot]? = some b → b.published? = some an →
      ∃ a, s.slots[q.run.slot]? = some a ∧ a.published? = some an) : s'.Occupied q :=
  ⟨ht.isFresh_eq_false hs hback h.isFresh, h.faithful, by rw [hset]; exact h.closedBook,
    by rw [hset]; exact h.asked⟩

theorem Live.occupied (h : Live settings host? x) : ∀ q ∈ x.2.waits, x.1.Occupied q := by
  induction h with
  | refl => exact List.forall_mem_nil _
  | @tail y z hy hmove ih =>
    have ht := Live.tended hy
    have hs := Goes.succeeds (.single hmove)
    cases hmove.progress with
    | @aside s s' c c' hspares hwaits =>
      rw [hwaits]
      exact fun q hq => (ih q hq).mono ht hs hspares.settings (hspares.published _)
    | @read s s' c c' slot run hspares ho hfresh hrun hknown hwaits =>
      rw [hwaits, List.forall_mem_cons]
      refine ⟨⟨ht.isFresh_eq_false hs (hspares.published _) fun a ha => ?_, hrun, fun hno => ?_,
        Wait.unasked rfl⟩, fun q hq => (ih q hq).mono ht hs hspares.settings (hspares.published _)⟩
      · rwa [← Option.some.inj (ho.get.symm.trans ha)]
      · rw [hknown, firstKnown, if_neg]
        rw [← hspares.settings, hno]
        exact Bool.false_ne_true
    | @ask s s' c c' slot run rest grammar source? hspares hn hseeks hwaits hwaits' =>
      have hold : ∀ q ∈ c.waits, s'.Occupied q := fun q hq =>
        (ih q hq).mono ht hs hspares.settings (hspares.published _)
      rw [hwaits, List.forall_mem_cons] at hold
      rw [hwaits', List.forall_mem_cons]
      refine ⟨⟨hold.1.isFresh, hold.1.faithful, hold.1.closedBook, fun g source? hask => ?_⟩, hold.2⟩
      obtain ⟨rfl, -⟩ := Prod.mk.inj (Option.some.inj hask)
      rw [hspares.settings]
      exact hseeks.attempt hwaits
    | @learn s s' c c' run rest grammar source? table? hspares htakes hwaits hwaits' =>
      have hold : ∀ q ∈ c.waits, s'.Occupied q := fun q hq =>
        (ih q hq).mono ht hs hspares.settings (hspares.published _)
      have hlast : ∃ ask?, s'.Occupied ⟨run, ask?⟩ ∧ s'.settings.resolveImports = true ∧
          ∀ q ∈ rest, s'.Occupied q := by
        rcases hwaits with hwaits | ⟨hseeks, hwaits⟩ <;> rw [hwaits, List.forall_mem_cons] at hold
        · exact ⟨_, hold.1, hold.1.resolveImports (hold.1.asked _ _ rfl), hold.2⟩
        · have hasks := hseeks.attempt hwaits
          rw [← hspares.settings] at hasks
          exact ⟨_, hold.1, hold.1.resolveImports hasks, hold.2⟩
      obtain ⟨ask?, hrun, hres, hrest⟩ := hlast
      rw [hwaits', List.forall_mem_cons]
      refine ⟨⟨hrun.isFresh, ⟨hrun.faithful.grammar, hrun.faithful.table⟩, fun hno => ?_,
        Wait.unasked rfl⟩, hrest⟩
      rw [hres] at hno
      cases hno
    | @leave s s' c c' run hset hp hwaits =>
      intro q hq
      have hq' : q ∈ c.waits := hwaits ▸ .tail _ hq
      refine (ih q hq').mono ht hs hset fun b an hb hpb => ?_
      refine (hp _ b an hb hpb).resolve_right ?_
      rintro ⟨he, -⟩
      -- No slot is analysed twice at once, so nothing was published for this one.
      have hnodup := (c.sublist_tasks.map Task.slot).nodup ht.nodup
      rw [hwaits, List.map_map, List.map_cons, List.nodup_cons] at hnodup
      exact hnodup.1 (List.mem_map.2 ⟨q, hq, he⟩)

end Session

end GrammarAtlas
