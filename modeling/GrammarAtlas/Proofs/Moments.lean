import GrammarAtlas.Proofs.Operations
import Mathlib.Logic.Relation

/-! # Every moment of a session

A session can be observed while an operation is under way: the host is asked for a grammar and
subscribers are notified in the midst of an analysis, and both may use the session in turn.
`Session.Live` are all the moments that a session can get to, whatever the scripts do when they are
called, however often and however deep, and whatever the host answers.

A moment has some analyses under way, one inside the other (`Control.tasks`). `Moves.comes` says once
what may happen from one moment to the next: one `Turn`, which starts, carries on or ends the
innermost of them or changes a document, and after it some documents may be invalidated or dropped
(`Echo`). What is kept by both is kept by a session all the time: `Goes.keeps`. -/

namespace GrammarAtlas

/-- An analysis of a slot under way, and the text and epoch it has read. -/
structure Task where
  slot : Nat
  read? : Option (Snapshot × Nat)

def Run.task (run : Run) : Task := ⟨run.slot, some (run.snapshot, run.epoch)⟩

/-- The analyses that wait for this one to end, the innermost first. -/
def Continuation.tasks : {outcome : Outcome} → Continuation outcome → List Task
  | _, .stop => []
  | _, .script _ _ _ next | _, .notify _ next | _, .reply _ next | _, .consult _ _ _ next
  | _, .answer _ next | _, .refreshRest _ _ next | _, .deliver _ next => next.tasks
  | _, .takeTable run _ _ next | _, .takeAnswer run _ _ next => run.task :: next.tasks

def Control.tasks : Control → List Task
  | .cycle n _ _ next => ⟨n, none⟩ :: next.tasks
  | .resolve run next => run.task :: next.tasks
  | .perform _ next | .refresh _ _ next | .refreshAll _ _ next | .notify _ next | .script _ _ next
  | .finished next | .analysed _ next | .replied _ next => next.tasks

theorem Control.tasks_notifyIf (s : Session) (reason : Bool) (next : Continuation .nothing) :
    (notifyIf s reason next).tasks = next.tasks := by
  rw [notifyIf]
  split <;> rfl

namespace Session

abbrev Moment := Session × Control

/-- From one moment to the next. Besides the steps of the machine: who runs a script may do something
else than it says, the host may answer what it likes, and when there is a reply anything may be asked
next. -/
inductive Moves : Moment → Moment → Prop
  | step (s : Session) (c : Control) : Moves (s, c) (s.step c)
  | script (s : Session) (actor : Actor) (script script' : List Operation)
      (next : Continuation .nothing) :
      Moves (s, .script actor script next) (s, .script actor script' next)
  | answer (s : Session) (script : List Operation) (run : Run) (grammar : String)
      (table? table?' : Option SymbolTable) (next : Continuation .analysis) :
      Moves (s, .script .host script (.takeAnswer run grammar table? next))
        (s, .script .host script (.takeAnswer run grammar table?' next))
  | ask (s : Session) (r : Reply) (operation : Operation) :
      Moves (s, .replied r .stop) (s, .perform operation .stop)

/-- Some time later. -/
abbrev Goes : Moment → Moment → Prop := Relation.ReflTransGen Moves

/-- The moments of a session. -/
def Live (settings : Settings) (host? : Option Host) (x : Moment) : Prop :=
  Goes (start settings host?, .replied .done .stop) x

theorem live_start (settings : Settings) (host? : Option Host) :
    Live settings host? (start settings host?, .replied .done .stop) := .refl

theorem goes_runFor {s s' : Session} {steps : Nat} {c : Control} {r : Reply}
    (h : runFor steps s c = some (r, s')) :
    Goes (s, c) (s', .replied r .stop) := by
  induction steps generalizing s c with
  | zero =>
    match c, h with
    | .replied r .stop, h =>
      cases h
      exact .refl
  | succ steps ih =>
    rw [runFor_succ] at h
    exact .head (.step s c) (ih h)

/-- The next moment if nobody interferes. -/
def onward (x : Moment) : Moment := x.1.step x.2

theorem goes_onward (x : Moment) (steps : Nat) : Goes x (onward^[steps] x) := by
  induction steps with
  | zero => exact .refl
  | succ steps ih =>
    rw [Function.iterate_succ_apply']
    exact ih.tail (.step _ _)

theorem Live.performAll {settings : Settings} {host? : Option Host} {s s' : Session} {steps : Nat}
    {r : Reply} {operations : List Operation} {ledger ledger' : List Publication}
    (h : Live settings host? (s, .replied r .stop))
    (hs : Session.performAll steps ledger s operations = some (ledger', s')) :
    ∃ r', Live settings host? (s', .replied r' .stop) := by
  induction operations generalizing s r ledger with
  | nil =>
    obtain ⟨rfl, rfl⟩ := Prod.mk.inj (Option.some.inj hs)
    exact ⟨r, h⟩
  | cons operation rest ih =>
    obtain ⟨⟨r₁, s₁⟩, hs₁, hs⟩ := Option.bind_eq_some_iff.1 hs
    exact ih ((h.tail (.ask s r operation)).trans (goes_runFor hs₁)) hs

/-! ## What can happen at once -/

/-- What a move begins with, on the state and on the analyses under way. -/
inductive Turn (s : Session) : List Task → Session → List Task → Prop
  | pass {s' : Session} {tasks : List Task} (hslots : s'.slots = s.slots)
      (hgraph : s'.graph = s.graph) (hparses : s'.parses = s.parses) : Turn s tasks s' tasks
  | retext {n : Nat} {slot : Slot} {tasks : List Task} (ho : s.IsOpen n slot) (text : String) :
      Turn s tasks (s.retext n slot.id text) tasks
  | register {id : String} {tasks : List Task} (hnew : s.slotOf? id = none) (text : String) :
      Turn s tasks (s.register id text) tasks
  | takeUp {n : Nat} {slot : Slot} {tasks : List Task} (ho : s.IsOpen n slot)
      (hrest : slot.inFlight = false) :
      Turn s tasks (s.modifySlot n ({ · with inFlight := true })) (⟨n, none⟩ :: tasks)
  | read {n : Nat} {slot : Slot} {rest : List Task} (ho : s.IsOpen n slot)
      (requester? : Option String) (changed : Bool) :
      Turn s (⟨n, none⟩ :: rest) (s.readSlot n slot requester? changed).1
        (⟨n, some (slot.latest, slot.epoch)⟩ :: rest)
  | discard {n : Nat} {rest : List Task} (read : Snapshot × Nat) :
      Turn s (⟨n, some read⟩ :: rest) s (⟨n, none⟩ :: rest)
  | publish {n : Nat} {slot : Slot} {rest : List Task} {a : Analysis} (ho : s.IsOpen n slot)
      (hversion : slot.latest.version = a.version) (hepoch : slot.epoch = a.epoch)
      (hnewer : slot.isNewer a = true) :
      Turn s (⟨n, some (a.snapshot, a.epoch)⟩ :: rest) (s.modifySlot n (·.publish a))
        (⟨n, none⟩ :: rest)
  | release {n : Nat} {slot : Slot} {rest : List Task} (hn : s.slots[n]? = some slot) :
      Turn s (⟨n, none⟩ :: rest) (s.modifySlot n ({ · with inFlight := false })) rest
  | lose {task : Task} {rest : List Task} (hn : s.slots[task.slot]? = none) :
      Turn s (task :: rest) s rest

/-- What may follow from that for a document. -/
inductive Echo : Session → Session → Prop
  | invalidate (s : Session) (id : String) : Echo s (s.invalidate id)
  | drop (s : Session) (id : String) : Echo s (s.dropNamed id)

abbrev Echoes : Session → Session → Prop := Relation.ReflTransGen Echo

variable {s s' : Session} {n : Nat} {slot : Slot} {id text : String} {tasks rest : List Task}

theorem echoes_foldl {f : Session → String → Session} (hf : ∀ s id, Echo s (f s id)) (s : Session)
    (ids : List String) : Echoes s (ids.foldl f s) := by
  induction ids generalizing s with
  | nil => exact .refl
  | cons id ids ih => exact .head (hf s id) (ih _)

theorem echoes_invalidateReached (s : Session) (origin : String) (grammars : List String)
    (except? : Option String) : Echoes s (s.invalidateReached origin grammars except?).1 :=
  echoes_foldl Echo.invalidate s _

/-- A move from the state `s` with the given analyses to the moment `y`. -/
def Comes (s : Session) (tasks : List Task) (y : Moment) : Prop :=
  ∃ s₁, Turn s tasks s₁ y.2.tasks ∧ Echoes s₁ y.1

theorem Turn.comes {y : Moment} (h : Turn s tasks y.1 y.2.tasks) : Comes s tasks y := ⟨y.1, h, .refl⟩

/-- Filing a text is registering a document or replacing its text, and invalidating others. -/
theorem comes_filed (s : Session) (id text : String) (tasks : List Task) :
    ((s.setText id text).2 = false ∧ (s.setText id text).1 = s) ∨
      (s.setText id text).2 = true ∧ ∃ s₁, Turn s tasks s₁ tasks ∧
        Echoes s₁ ((s.setText id text).1.rename id text).1 := by
  cases hn : s.slotOf? id with
  | none =>
    simp only [setText, hn]
    exact .inr ⟨trivial, s.register id text, .register hn text, echoes_invalidateReached _ _ _ _⟩
  | some n =>
    obtain ⟨slot, ho, rfl⟩ := isOpen_of_slotOf? hn
    simp only [setText, hn, ho.get, Option.map_some, Option.getD_some]
    cases slot.latest.hasText text with
    | true => exact .inl ⟨rfl, rfl⟩
    | false =>
      exact .inr ⟨rfl, s.retext n slot.id text, .retext ho text, echoes_invalidateReached _ _ _ _⟩

theorem comes_begin (s : Session) (next : Continuation .reply) (operation : Operation) :
    Comes s next.tasks (s.begin next operation) := by
  cases operation with
  | update id text =>
    rw [begin_update]
    obtain ⟨hset, hs⟩ | ⟨hset, s₁, hturn, hechoes⟩ := s.comes_filed id text next.tasks
    · rw [hset, hs, if_neg Bool.false_ne_true]
      exact Turn.comes (.pass rfl rfl rfl)
    · rw [hset, if_pos rfl]
      exact ⟨s₁, (Control.tasks_notifyIf _ _ _).symm ▸ hturn, hechoes⟩
  | query id text? query =>
    cases text? with
    | none =>
      rw [begin]
      split <;> exact Turn.comes (.pass rfl rfl rfl)
    | some text =>
      rw [begin_query]
      obtain ⟨hset, hs⟩ | ⟨hset, s₁, hturn, hechoes⟩ := s.comes_filed id text next.tasks
      · rw [hset, hs, if_neg Bool.false_ne_true]
        exact Turn.comes (.pass rfl rfl rfl)
      · rw [hset, if_pos rfl]
        exact ⟨s₁, (Control.tasks_notifyIf _ _ _).symm ▸ hturn, hechoes⟩
  | close id =>
    rw [begin]
    split
    · exact Turn.comes (.pass rfl rfl rfl)
    · rename_i n hn
      have hdrop : s.drop n id = s.dropNamed id := by rw [dropNamed, hn]
      refine ⟨s, (Control.tasks_notifyIf _ _ _).symm ▸ .pass rfl rfl rfl, .head (.drop s id) ?_⟩
      rw [← hdrop]
      exact echoes_invalidateReached _ _ _ _
  | reset => exact ⟨s, .pass rfl rfl rfl, echoes_foldl Echo.drop s _⟩
  | refresh | freshness | documents | subscribe | unsubscribe | settings | summary =>
    exact Turn.comes (.pass rfl rfl rfl)

theorem comes_refreshSlot (s : Session) (n : Nat) (requester? : Option String)
    (next : Continuation .analysis) : Comes s next.tasks (s.refreshSlot n requester? next) := by
  rw [refreshSlot]
  split
  · exact Turn.comes (.pass rfl rfl rfl)
  · rename_i slot hn
    split
    · exact Turn.comes (.pass rfl rfl rfl)
    · rename_i hno
      simp only [Bool.or_eq_true, not_or, Bool.not_eq_true] at hno
      exact Turn.comes (.takeUp ⟨hn, hno.1.2⟩ hno.2)

theorem comes_cycleSlot (s : Session) (n : Nat) (requester? : Option String) (changed : Bool)
    (next : Continuation .analysis) :
    Comes s (⟨n, none⟩ :: next.tasks) (s.cycleSlot n requester? changed next) := by
  rw [cycleSlot]
  split
  · rename_i hn
    exact Turn.comes (.lose hn)
  · rename_i slot hn
    split
    · rw [releaseSlot]
      split
      · exact ⟨_, .release hn, echoes_invalidateReached _ _ _ _⟩
      · exact Turn.comes (.release hn)
    · rename_i hno
      simp only [Bool.or_eq_true, not_or, Bool.not_eq_true] at hno
      exact Turn.comes (.read ⟨hn, hno.1⟩ requester? changed)

theorem comes_askFor (s : Session) (run : Run) (id grammar : String) (next : Continuation .analysis) :
    Comes s (run.task :: next.tasks) (s.askFor run id grammar next) := by
  rw [askFor]
  split
  · exact Turn.comes (.pass rfl rfl rfl)
  · split
    · exact Turn.comes (.pass rfl rfl rfl)
    · rename_i host _
      simp only [takeHook]
      split
      · exact Turn.comes (.pass rfl rfl rfl)
      · split <;> exact Turn.comes (.pass rfl rfl rfl)

theorem comes_resolveRun (s : Session) (run : Run) (next : Continuation .analysis) :
    Comes s (run.task :: next.tasks) (s.resolveRun run next) := by
  rw [resolveRun]
  split
  · rename_i hn
    exact Turn.comes (.lose hn)
  · rename_i slot hn
    split
    · exact s.comes_askFor run slot.id _ next
    · rename_i resolution _
      rw [publish]
      split
      · exact Turn.comes (.discard _)
      · rename_i hno
        simp only [Slot.supersedes, Bool.or_eq_true, not_or, Bool.not_eq_true, bne_eq_false_iff_eq,
          Bool.not_eq_false'] at hno
        obtain ⟨⟨⟨hopen, hversion⟩, hepoch⟩, hnewer⟩ := hno
        exact Turn.comes (.publish (a := run.analysis resolution) ⟨hn, hopen⟩ hversion hepoch hnewer)

theorem comes_resume (s : Session) (next : Continuation .nothing) :
    Comes s next.tasks (s.resume next) := by
  cases next with
  | consult id text query next =>
    rw [resume]
    split <;> exact Turn.comes (.pass rfl rfl rfl)
  | takeAnswer run grammar table? next => exact Turn.comes (.pass rfl rfl rfl)
  | notify | reply | deliver => exact Turn.comes (.pass rfl rfl rfl)

theorem comes_step (s : Session) (c : Control) : Comes s c.tasks (s.step c) := by
  cases c with
  | perform operation next => exact s.comes_begin next operation
  | refresh n requester? next => exact s.comes_refreshSlot n requester? next
  | cycle n requester? changed next => exact s.comes_cycleSlot n requester? changed next
  | resolve run next => exact s.comes_resolveRun run next
  | refreshAll ready ids next =>
    cases ids with
    | nil => exact Turn.comes (.pass rfl rfl rfl)
    | cons id ids =>
      rw [step]
      split <;> exact Turn.comes (.pass rfl rfl rfl)
  | notify handles next => cases handles <;> exact Turn.comes (.pass rfl rfl rfl)
  | script actor script next => cases script <;> exact Turn.comes (.pass rfl rfl rfl)
  | finished next => exact s.comes_resume next
  | analysed a next => cases next <;> exact Turn.comes (.pass rfl rfl rfl)
  | replied r next => cases next <;> exact Turn.comes (.pass rfl rfl rfl)

theorem Moves.comes {x y : Moment} (h : Moves x y) : Comes x.1 x.2.tasks y := by
  cases h with
  | step s c => exact s.comes_step c
  | script | answer | ask => exact Turn.comes (.pass rfl rfl rfl)

theorem Echoes.keeps {P : Session → Prop} (echo : ∀ {s s'}, P s → Echo s s' → P s')
    (h : Echoes s s') (hs : P s) : P s' := by
  induction h with
  | refl => exact hs
  | tail _ hecho ih => exact echo ih hecho

/-- What is kept by each turn and each echo is kept over any time. -/
theorem Goes.keeps {P : Session → List Task → Prop}
    (turn : ∀ {s tasks s' tasks'}, P s tasks → Turn s tasks s' tasks' → P s' tasks')
    (echo : ∀ {s s' tasks}, P s tasks → Echo s s' → P s' tasks) {x y : Moment} (h : Goes x y)
    (hx : P x.1 x.2.tasks) : P y.1 y.2.tasks := by
  induction h with
  | refl => exact hx
  | @tail y z _ hmove ih =>
    obtain ⟨s₁, hturn, hechoes⟩ := hmove.comes
    exact hechoes.keeps (P := (P · z.2.tasks)) echo (turn ih hturn)

end Session

end GrammarAtlas
