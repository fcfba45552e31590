import GrammarAtlas.Atlas.Pool
import GrammarAtlas.Proofs.Registry

/-! # The course of a session

`Session.Leads s c ps s' c'`: the machine comes from `c` in the state `s` to `c'` in the state `s'`,
and on the way publishes `ps`. A publication holds all that went into it: the tables that the
analysis was made with, and the import graph of that moment.

`Pool.Leads p ps p'`: the workers of a pool come from `p` to `p'` by taking turns in some order.

`Session.Reached settings library? ledger s`: the state `s` is that of a session after any number of
operations, none of which leaves a script behind, and `ledger` holds all publications so far. The
host, if there is one, does no more than look grammars up in a library. Without a host, a pool may
have been at work between two operations. -/

namespace GrammarAtlas

/-- An analysis that was published, with what it was made from. -/
structure Publication where
  slot : Nat
  document : String
  analysis : Analysis
  /-- The grammars that were asked for, with the tables that were got. -/
  known : Known
  /-- The graph at that moment, which says whose tables they were. -/
  graph : ImportGraph

namespace Session
variable {s s' s'' : Session} {c c' c'' : Control} {ps qs : List Publication} {r : Reply}

/-- What the next step of the machine publishes. -/
def publication? (s : Session) : Control → Option Publication
  | .resolve run _ =>
    match s.slots[run.slot]?,
      Resolution.attempt run.known run.grammar.tree run.table s.settings.warnUnresolved with
    | some slot, .ok resolution =>
      let a := Analysis.assemble run.snapshot run.epoch run.grammar run.table resolution
      if slot.supersedes run.snapshot run.epoch || !slot.isNewer a then none
      else some ⟨run.slot, slot.id, a, run.known, s.graph⟩
    | _, _ => none
  | _ => none

/-- What is published until the machine has a reply, or within a number of steps. -/
def publications : Nat → Session → Control → List Publication
  | _, _, .replied _ .stop => []
  | 0, _, _ => []
  | steps + 1, s, c => (s.publication? c).toList ++ publications steps (s.step c).1 (s.step c).2

inductive Leads : Session → Control → List Publication → Session → Control → Prop
  | refl (s : Session) (c : Control) : Leads s c [] s c
  | step {s s' : Session} {c c' : Control} {ps : List Publication}
      (h : Leads (s.step c).1 (s.step c).2 ps s' c') :
      Leads s c ((s.publication? c).toList ++ ps) s' c'

namespace Leads

theorem trans (h : Leads s c ps s' c') (h' : Leads s' c' qs s'' c'') :
    Leads s c (ps ++ qs) s'' c'' := by
  induction h with
  | refl s c => exact h'
  | step _ ih => rw [List.append_assoc]; exact .step (ih h')

theorem next (hs : s.step c = (s', c')) (hp : s.publication? c = none) (h : Leads s' c' ps s'' c'') :
    Leads s c ps s'' c'' := by
  have h' : Leads (s.step c).1 (s.step c).2 ps s'' c'' := by rw [hs]; exact h
  have := Leads.step h'
  rwa [hp] at this

theorem one (hs : s.step c = (s', c')) (hp : s.publication? c = none) : Leads s c [] s' c' :=
  .next hs hp (.refl s' c')

theorem publish {p : Publication} (hs : s.step c = (s', c')) (hp : s.publication? c = some p) :
    Leads s c [p] s' c' := by
  have h' : Leads (s.step c).1 (s.step c).2 [] s' c' := by rw [hs]; exact .refl s' c'
  have := Leads.step h'
  rwa [hp] at this

end Leads

/-! ## Turns of workers -/

/-- What an errand publishes next. -/
def issue? (s : Session) (e : Errand) : Option Publication :=
  match e.stage, s.slots[e.slot]? with
  | .publish run resolution, some slot =>
    let a := Analysis.assemble run.snapshot run.epoch run.grammar run.table resolution
    if slot.closed || !slot.isNewer a then none
    else some ⟨e.slot, slot.id, a, run.known, s.graph⟩
  | _, _ => none

end Session

namespace Pool

/-- What is published in a turn. -/
def publication? (p : Pool) : Turn → Option Publication
  | .go i =>
    match p.workers[i]? with
    | some (.busy e _) => p.session.issue? e
    | _ => none
  | .giveUp _ => none

inductive Leads : Pool → List Publication → Pool → Prop
  | refl (p : Pool) : Leads p [] p
  | step {p p' p'' : Pool} {turn : Turn} {ps : List Publication} (ht : p.take turn = some p')
      (h : Leads p' ps p'') : Leads p ((p.publication? turn).toList ++ ps) p''

theorem Leads.trans {p p' p'' : Pool} {ps qs : List Publication} (h : p.Leads ps p')
    (h' : p'.Leads qs p'') : p.Leads (ps ++ qs) p'' := by
  induction h with
  | refl p => exact h'
  | step ht _ ih => rw [List.append_assoc]; exact .step ht (ih h')

/-- All workers have an answer. -/
def Done (p : Pool) : Prop := ∀ w ∈ p.workers, w.answer?.isSome = true

end Pool

namespace Session
variable {s s' s'' : Session} {c c' c'' : Control} {ps qs : List Publication} {r : Reply}

theorem runFor_stop (steps : Nat) (s : Session) (r : Reply) :
    runFor steps s (.replied r .stop) = some (r, s) := by
  cases steps <;> rfl

theorem publications_stop (steps : Nat) (s : Session) (r : Reply) :
    publications steps s (.replied r .stop) = [] := by
  cases steps <;> rfl

theorem runFor_succ (steps : Nat) (s : Session) (c : Control) :
    runFor (steps + 1) s c = runFor steps (s.step c).1 (s.step c).2 := by
  match c with
  | .replied r .stop => rw [runFor_stop]; exact (runFor_stop steps s r).symm
  | .replied _ (.script ..) | .perform .. | .refresh .. | .cycle .. | .resolve .. | .refreshAll ..
  | .notify .. | .script .. | .finished .. | .analysed .. => rfl

theorem publications_succ (steps : Nat) (s : Session) (c : Control) :
    publications (steps + 1) s c =
      (s.publication? c).toList ++ publications steps (s.step c).1 (s.step c).2 := by
  match c with
  | .replied r .stop => rw [publications_stop]; exact (publications_stop steps s r).symm
  | .replied _ (.script ..) | .perform .. | .refresh .. | .cycle .. | .resolve .. | .refreshAll ..
  | .notify .. | .script .. | .finished .. | .analysed .. => rfl

theorem Leads.runFor (h : Leads s c ps s' (.replied r .stop)) :
    ∃ steps, Session.runFor steps s c = some (r, s') ∧ publications steps s c = ps := by
  generalize hc : Control.replied r .stop = c' at h
  induction h with
  | refl s c => subst hc; exact ⟨0, rfl, rfl⟩
  | @step s s' c c' ps _ ih =>
    obtain ⟨steps, hr, hp⟩ := ih hc
    exact ⟨steps + 1, by rw [runFor_succ, hr], by rw [publications_succ, hp]⟩

theorem runFor_mono {steps more : Nat} {x : Reply × Session} (hle : steps ≤ more)
    (h : runFor steps s c = some x) :
    runFor more s c = some x ∧ publications more s c = publications steps s c := by
  induction steps generalizing s c more with
  | zero =>
    match c, h with
    | .replied r .stop, h =>
      rw [runFor_stop] at h ⊢
      exact ⟨h, by rw [publications_stop, publications_stop]⟩
  | succ steps ih =>
    obtain ⟨more, rfl⟩ : ∃ n, more = n + 1 := ⟨more - 1, by omega⟩
    rw [runFor_succ] at h ⊢
    rw [publications_succ, publications_succ]
    obtain ⟨h₁, h₂⟩ := ih (Nat.le_of_succ_le_succ hle) h
    exact ⟨h₁, by rw [h₂]⟩

/-- An operation has one outcome, whatever steps it is given. -/
theorem runFor_unique {steps steps' : Nat} {x x' : Reply × Session} (h : runFor steps s c = some x)
    (h' : runFor steps' s c = some x') :
    x = x' ∧ publications steps s c = publications steps' s c := by
  have h₁ := runFor_mono (Nat.le_max_left steps steps') h
  have h₂ := runFor_mono (Nat.le_max_right steps steps') h'
  exact ⟨Option.some.inj (h₁.1.symm.trans h₂.1), h₁.2.symm.trans h₂.2⟩

/-- The subscribers do nothing when they are notified. -/
def Passive (s : Session) : Prop := ∀ e ∈ s.scripts, e.2 = []

/-- No script is left to run. -/
structure Quiet (s : Session) : Prop where
  scripts : ∀ e ∈ s.scripts, e.2 = []
  hooks : ∀ host, s.host? = some host → host.hooks = []

/-- The state after the subscribers have been notified, none of whom does anything. -/
def heard (s : Session) : List Nat → Session
  | [] => s
  | handle :: handles => heard ((s.record (.notified handle)).takeScript handle).1 handles

section heard
variable (handles : List Nat)

/-- Only what is recorded about the subscribers changes. -/
theorem heard_eq (s : Session) : ∃ scripts events, s.heard handles = { s with scripts, events } := by
  induction handles generalizing s with
  | nil => exact ⟨s.scripts, s.events, rfl⟩
  | cons _ _ ih => exact ih _

@[simp] theorem heard_slots : (s.heard handles).slots = s.slots := by
  obtain ⟨_, _, h⟩ := heard_eq handles s
  rw [h]

@[simp] theorem heard_graph : (s.heard handles).graph = s.graph := by
  obtain ⟨_, _, h⟩ := heard_eq handles s
  rw [h]

@[simp] theorem heard_settings : (s.heard handles).settings = s.settings := by
  obtain ⟨_, _, h⟩ := heard_eq handles s
  rw [h]

@[simp] theorem heard_host? : (s.heard handles).host? = s.host? := by
  obtain ⟨_, _, h⟩ := heard_eq handles s
  rw [h]

@[simp] theorem heard_subscribers : (s.heard handles).subscribers = s.subscribers := by
  obtain ⟨_, _, h⟩ := heard_eq handles s
  rw [h]

@[simp] theorem heard_parses : (s.heard handles).parses = s.parses := by
  obtain ⟨_, _, h⟩ := heard_eq handles s
  rw [h]

theorem Passive.notified (h : s.Passive) (handle : Nat) :
    ((s.record (.notified handle)).takeScript handle).1.Passive :=
  fun e he => h e (List.mem_filter.1 he).1

theorem Passive.heard (h : s.Passive) : (s.heard handles).Passive := by
  induction handles generalizing s with
  | nil => exact h
  | cons handle _ ih => exact ih (h.notified handle)

theorem Quiet.heard (h : s.Quiet) : (s.heard handles).Quiet :=
  ⟨Passive.heard handles h.scripts, fun host hh => h.hooks host (by rwa [heard_host?] at hh)⟩

end heard

theorem Passive.takeScript (h : s.Passive) (handle : Nat) : (s.takeScript handle).2 = [] := by
  rw [Session.takeScript]
  cases hl : s.scripts.lookup handle with
  | none => rfl
  | some script =>
    obtain ⟨l, r, heq, -⟩ := List.lookup_eq_some_iff.1 hl
    exact h (handle, script) (by rw [heq]; simp)

theorem Passive.leads_notify (h : s.Passive) (handles : List Nat) (next : Continuation .nothing) :
    Leads s (.notify handles next) [] (s.heard handles) (.finished next) := by
  induction handles generalizing s with
  | nil => exact .one rfl rfl
  | cons handle handles ih =>
    have hscript : ((s.record (.notified handle)).takeScript handle).2 = [] :=
      Passive.takeScript (s := s.record (.notified handle)) h handle
    have hstep : s.step (.notify (handle :: handles) next) =
        (((s.record (.notified handle)).takeScript handle).1,
          .script .subscriber [] (.notify handles next)) := by
      rw [← hscript]; rfl
    exact .next hstep rfl (.next rfl rfl (.next rfl rfl (ih (h.notified handle))))

/-- Notifying subscribers that do nothing, if there is reason to, changes only what is recorded about
them. -/
theorem Passive.leads_notifyIf (h : s.Passive) (reason : Bool) (next : Continuation .nothing) :
    Leads s (.notifyIf s reason next) [] (s.heard (if reason then s.subscribers else []))
      (.finished next) := by
  cases reason with
  | true => exact h.leads_notify _ _
  | false => exact .refl _ _

theorem Quiet.leads_notify (h : s.Quiet) (handles : List Nat) (next : Continuation .nothing) :
    Leads s (.notify handles next) [] (s.heard handles) (.finished next) :=
  Passive.leads_notify h.scripts handles next

theorem Quiet.leads_notifyIf (h : s.Quiet) (reason : Bool) (next : Continuation .nothing) :
    Leads s (.notifyIf s reason next) [] (s.heard (if reason then s.subscribers else []))
      (.finished next) :=
  Passive.leads_notifyIf h.scripts reason next

/-! ## Sessions from outside -/

end Session

/-- Whether an operation leaves no script behind that could call on the session again. -/
def Operation.isPassive : Operation → Bool
  | subscribe script => script.isEmpty
  | _ => true

namespace Session

inductive Reached (settings : Settings) (library? : Option Library) : List Publication → Session → Prop
  | start : Reached settings library? [] (.start settings (library?.map (⟨·, []⟩)))
  | perform {ledger : List Publication} {s s' : Session} {operation : Operation} {steps : Nat}
      {r : Reply} (h : Reached settings library? ledger s) (hp : operation.isPassive)
      (hs : s.perform steps operation = some (r, s')) :
      Reached settings library? (ledger ++ publications steps s (.perform operation .stop)) s'
  | refresh {ledger ps : List Publication} {s : Session} {ids : List String} {p : Pool}
      (h : Reached settings library? ledger s) (hl : library? = none)
      (hp : (Pool.start s ids).Leads ps p) (hd : p.Done) :
      Reached settings library? (ledger ++ ps) p.session

/-- Performs operations one after the other, each within a number of steps, and keeps the ledger. -/
def performAll (steps : Nat) :
    List Publication → Session → List Operation → Option (List Publication × Session)
  | ledger, s, [] => some (ledger, s)
  | ledger, s, operation :: rest =>
    (s.perform steps operation).bind fun x =>
      performAll steps (ledger ++ publications steps s (.perform operation .stop)) x.2 rest

theorem Reached.performAll {settings : Settings} {library? : Option Library}
    {ledger ledger' : List Publication} {steps : Nat} {operations : List Operation}
    (h : Reached settings library? ledger s) (hp : ∀ operation ∈ operations, operation.isPassive)
    (hs : Session.performAll steps ledger s operations = some (ledger', s')) :
    Reached settings library? ledger' s' := by
  induction operations generalizing s ledger with
  | nil =>
    obtain ⟨rfl, rfl⟩ := Prod.mk.inj (Option.some.inj hs)
    exact h
  | cons operation rest ih =>
    obtain ⟨⟨r, s₁⟩, hs₁, hs⟩ := Option.bind_eq_some_iff.1 hs
    exact ih (.perform h (hp operation (.head _)) hs₁) (fun o ho => hp o (.tail _ ho)) hs

end Session

end GrammarAtlas
