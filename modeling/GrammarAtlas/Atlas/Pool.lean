import GrammarAtlas.Atlas.Machine

/-! # Several workers on one session

A pool brings several documents up to date, one worker to a document, and the workers take their
turns in any order. They share the session. Each has a stack of errands: to see to a document, and,
while that waits, to the documents that it imports.

A slot is looked at and changed as a whole, and so is the graph; between one such access and the next
other workers may do anything. The stages of an errand are cut accordingly. That a slot is in flight
may therefore be the doing of another worker:

* An errand for an import never waits for it. The table that is published is taken, if there is one.
* The errand that a worker begins with waits if nothing has been published for its document yet. It
  need not wait until the end: the worker may give up, and has an empty analysis then.

The subscribers of a session in a pool do nothing, and the host does no more than look grammars up. -/

namespace GrammarAtlas

/-- What is to be done next for a document. -/
inductive Stage where
  /-- Look whether its slot is fresh, is in flight, or can be taken up. -/
  | claim
  /-- Another worker has the first analysis under way. -/
  | wait
  /-- The text has been read. -/
  | extract (run : Run)
  | record (run : Run)
  | resolve (run : Run)
  /-- An imported document is being seen to, on an errand of its own. -/
  | await (run : Run) (grammar : String) (source : Nat)
  | takeTable (run : Run) (grammar : String) (source : Nat)
  /-- The names have been resolved. -/
  | complete (run : Run) (resolution : Resolution)
  | publish (run : Run) (resolution : Resolution)
  /-- The analysis has been overtaken. -/
  | reread (changed : Bool)
  /-- The slot has been let go, after a changed view was published. -/
  | inform (a : Analysis)
  | invalidate (ids : List String) (a : Analysis)

/-- The work on one document, on behalf of the one that imports it or of a caller from outside. -/
structure Errand where
  slot : Nat
  requester? : Option String
  stage : Stage

/-- What becomes of an errand after one stage of it. -/
inductive Move where
  | stay (errand : Errand)
  /-- Another errand goes first. -/
  | call (errand first : Errand)
  | answer (a : Analysis)

namespace Session

/-- Reads the latest text of a slot, and begins its analysis. -/
def beginRun (s : Session) (n : Nat) (slot : Slot) (requester? : Option String) (changed : Bool) :
    Session × Move :=
  ({ s with parses := s.parses + 1 },
    .stay ⟨n, requester?, .extract (s.readSlot n slot requester? changed).2⟩)

def claimSlot (s : Session) (n : Nat) (slot : Slot) (requester? : Option String) : Session × Move :=
  if slot.isFresh || slot.closed then (s, .answer slot.current)
  else if slot.inFlight then
    if slot.published?.isSome || requester?.isSome then (s, .answer slot.current)
    else (s, .stay ⟨n, requester?, .wait⟩)
  else (s.modifySlot n ({ · with inFlight := true })).beginRun n slot requester? false

/-- Goes on with a slot that has been taken up. It is let go once it is fresh. -/
def continueSlot (s : Session) (n : Nat) (slot : Slot) (requester? : Option String)
    (changed : Bool) : Session × Move :=
  if slot.closed || slot.isFresh then
    (s.modifySlot n ({ · with inFlight := false }),
      if changed then .stay ⟨n, requester?, .inform slot.current⟩ else .answer slot.current)
  else s.beginRun n slot requester? changed

/-- Asks for the table of an imported grammar, as `askFor` does. -/
def seek (s : Session) (e : Errand) (run : Run) (id grammar : String) : Session × Move :=
  match ((s.graph.provider? grammar).filter (· != id)).bind s.slotOf? with
  | some source =>
    (s, .call { e with stage := .await run grammar source } ⟨source, some id, .claim⟩)
  | none =>
    match s.host? with
    | none => (s, .stay { e with stage := .resolve (run.learn grammar none) })
    | some host =>
      let table? := host.library.table? grammar
      (s.record (.hostAsked grammar table?.isSome),
        .stay { e with stage := .resolve (run.learn grammar table?) })

def resolveNames (s : Session) (e : Errand) (run : Run) (id : String) : Session × Move :=
  match Resolution.attempt run.known run.grammar.tree run.table s.settings.warnUnresolved with
  | .error grammar => s.seek e run id grammar
  | .ok resolution => (s, .stay { e with stage := .complete run resolution })

/-- Publishes the analysis of a run, in the place of an older one. It may have been overtaken since
that was last checked. -/
def publishRun (s : Session) (e : Errand) (run : Run) (slot : Slot) (resolution : Resolution) :
    Session × Move :=
  let a := Analysis.assemble run.snapshot run.epoch run.grammar run.table resolution
  if slot.closed || !slot.isNewer a then s.continueSlot e.slot slot e.requester? run.changed
  else
    (s.modifySlot e.slot (·.publish a)).continueSlot e.slot (slot.publish a) e.requester?
      (run.changed || slot.showsChange a)

/-- Notifies the subscribers, none of whom does anything. -/
def announce (s : Session) : Session :=
  s.subscribers.foldl (fun s handle => ((s.record (.notified handle)).takeScript handle).1) s

/-- Goes on with an errand, unless it has to wait. -/
def advance (s : Session) (e : Errand) : Option (Session × Move) := do
  let slot ← s.slots[e.slot]?
  match e.stage with
  | .claim => return s.claimSlot e.slot slot e.requester?
  | .wait =>
    if slot.inFlight && slot.published?.isNone && !slot.closed then none
    else return s.claimSlot e.slot slot e.requester?
  | .extract run =>
    return (s, .stay { e with
      stage := if slot.supersedes run.snapshot run.epoch then .reread run.changed else .record run })
  | .record run =>
    return ({ s with
        graph := s.graph.setImports slot.id (run.table.imports.map Import.grammar) },
      .stay { e with stage := .resolve run })
  | .resolve run => return s.resolveNames e run slot.id
  | .await _ _ _ => none
  | .takeTable run grammar source =>
    let table? := (s.slots[source]?.bind Slot.published?).map Analysis.table
    return (s, .stay { e with stage := .resolve (run.learn grammar table?) })
  | .complete run resolution =>
    return (s, .stay { e with
      stage :=
        if slot.supersedes run.snapshot run.epoch then .reread run.changed
        else .publish run resolution })
  | .publish run resolution => return s.publishRun e run slot resolution
  | .reread changed => return s.continueSlot e.slot slot e.requester? changed
  | .inform a =>
    let ids := s.reached slot.id (s.graph.name? slot.id).toList e.requester?
    return (s, .stay { e with stage := .invalidate ids a })
  | .invalidate (id :: ids) a => return (s.invalidate id, .stay { e with stage := .invalidate ids a })
  | .invalidate [] a => return (s.announce, .answer a)

end Session

inductive Worker where
  | idle (id : String)
  /-- The worker is on an errand. Those below wait for it, the nearest first. -/
  | busy (errand : Errand) (below : List Errand)
  /-- There is an analysis, or the name of a document that is not registered. -/
  | done (answer : Except String Analysis)

namespace Worker

/-- What a worker does when the errand it was on has been answered. The answer is that of the worker
if nobody waits for it. -/
def resume (a : Analysis) : List Errand → Worker
  | [] => .done (.ok a)
  | e :: below =>
    match e.stage with
    | .await run grammar source => .busy { e with stage := .takeTable run grammar source } below
    | _ => .busy e below

def follow (below : List Errand) : Move → Worker
  | .stay e => .busy e below
  | .call e first => .busy first (e :: below)
  | .answer a => resume a below

def answer? : Worker → Option (Except String Analysis)
  | done answer => some answer
  | _ => none

/-- Does what is next, unless there is nothing to do or the worker has to wait. -/
def work (s : Session) : Worker → Option (Session × Worker)
  | idle id =>
    match s.slotOf? id with
    | none => some (s, .done (.error id))
    | some n => some (s, .busy ⟨n, none, .claim⟩ [])
  | busy e below => (s.advance e).map fun (s, move) => (s, follow below move)
  | done _ => none

/-- Stops waiting, and takes what there is. -/
def giveUp (s : Session) : Worker → Option Worker
  | busy ⟨n, _, .wait⟩ below => s.slots[n]?.map fun slot => resume slot.current below
  | _ => none

end Worker

structure Pool where
  session : Session
  workers : List Worker

namespace Pool

/-- Which worker does something. -/
inductive Turn where
  | go (worker : Nat)
  /-- The worker has waited for as long as the settings say. -/
  | giveUp (worker : Nat)
deriving Repr, DecidableEq

instance : Inhabited Pool := ⟨.start {} none, []⟩

def start (s : Session) (ids : List String) : Pool := ⟨s, ids.map .idle⟩

/-- What a turn comes to, if it can be taken. -/
def take (p : Pool) : Turn → Option Pool
  | .go i => do
    let w ← p.workers[i]?
    let (s, w) ← w.work p.session
    return ⟨s, p.workers.set i w⟩
  | .giveUp i => do
    let w ← p.workers[i]?
    let w ← w.giveUp p.session
    return ⟨p.session, p.workers.set i w⟩

/-- Takes the given turns, as far as they can be taken. -/
def play (p : Pool) (turns : List Turn) : Pool :=
  turns.foldl (fun p turn => (p.take turn).getD p) p

/-- The first worker that can go on does so. -/
def goOn (p : Pool) : Option Pool :=
  (List.range p.workers.length).findSome? fun i => p.take (.go i)

/-- Lets the first worker that can go on do so, until there is none. -/
def finish (p : Pool) : Option Pool :=
  repeatM (fun p => some (match p.goOn with
    | some p => .inl p
    | none => .inr p)) p

def answers (p : Pool) : Option (List (Except String Analysis)) := p.workers.mapM Worker.answer?

end Pool

/-- Brings several documents up to date. The workers begin with the given turns; after that they come
one after the other. -/
def Session.refreshBy (turns : List Pool.Turn) (s : Session) (ids : List String) :
    Option (List (Except String Analysis) × Session) := do
  let p ← ((Pool.start s ids).play turns).finish
  return (← p.answers, p.session)

end GrammarAtlas
