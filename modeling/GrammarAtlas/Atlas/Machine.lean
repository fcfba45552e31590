import GrammarAtlas.Atlas.Session

/-! # How operations proceed

Operations call on each other: a query makes a document fresh, for which its imports are made fresh,
which may notify subscribers, whose scripts are operations again. The machine makes each single step
of that explicit. A `Control` says what is being done, and holds the `Continuation` that says what
comes after it. So all states in which a script can observe a session are states of the machine.

`Session.perform` lets the machine run for a number of steps and gives no answer if they do not
suffice. `Session.runToEnd` sets no limit.

The machine is of one thread. So a slot that it finds in flight is one that it is analysing itself,
further down; to wait for it would be of no use, and a query takes what there is, as an import does.
What this leaves out is other workers that have slots in flight at the same time, for which a query
does wait. Those are in `Atlas.Pool`. -/

namespace GrammarAtlas

/-- An analysis of a document under way: what has been read, and the imported tables got so far. -/
structure Run where
  slot : Nat
  /-- The document for whose analysis this one is made. -/
  requester? : Option String
  /-- A changed view has been published since the slot was taken up. -/
  changed : Bool
  snapshot : Snapshot
  epoch : Nat
  grammar : Grammar
  table : SymbolTable
  known : Known

def Run.learn (run : Run) (grammar : String) (table? : Option SymbolTable) : Run :=
  { run with known := run.known ++ [(grammar, table?)] }

/-- What a part of the work ends with. -/
inductive Outcome where
  | nothing
  | analysis
  | reply

/-- What is done with an outcome of the given sort. -/
inductive Continuation : Outcome → Type where
  /-- The operation that was asked for from outside has ended. -/
  | stop : Continuation .reply
  /-- An operation of a script has ended; the rest of the script follows. -/
  | script (actor : Actor) (operation : Operation) (rest : List Operation)
      (next : Continuation .nothing) : Continuation .reply
  /-- A subscriber is done; the others follow. -/
  | notify (handles : List Nat) (next : Continuation .nothing) : Continuation .nothing
  | reply (r : Reply) (next : Continuation .reply) : Continuation .nothing
  /-- The text of a query has been filed; the document is looked up. -/
  | consult (id text : String) (query : Query) (next : Continuation .reply) :
      Continuation .nothing
  | answer (query : Query) (next : Continuation .reply) : Continuation .analysis
  /-- One of several documents is fresh; the others follow. -/
  | refreshRest (ready : List (Except String Analysis)) (ids : List String)
      (next : Continuation .reply) : Continuation .analysis
  | deliver (a : Analysis) (next : Continuation .analysis) : Continuation .nothing
  /-- The imported document of slot `source` has been made fresh; its table is taken. -/
  | takeTable (run : Run) (grammar : String) (source : Nat) (next : Continuation .analysis) :
      Continuation .analysis
  /-- The host has run its script; its answer is taken. -/
  | takeAnswer (run : Run) (grammar : String) (table? : Option SymbolTable)
      (next : Continuation .analysis) : Continuation .nothing

inductive Control where
  | perform (operation : Operation) (next : Continuation .reply)
  | refresh (slot : Nat) (requester? : Option String) (next : Continuation .analysis)
  /-- Analyse the slot, which has been taken up, until it is fresh. -/
  | cycle (slot : Nat) (requester? : Option String) (changed : Bool)
      (next : Continuation .analysis)
  | resolve (run : Run) (next : Continuation .analysis)
  /-- Bring the documents `ids` up to date, one after the other. -/
  | refreshAll (ready : List (Except String Analysis)) (ids : List String)
      (next : Continuation .reply)
  | notify (handles : List Nat) (next : Continuation .nothing)
  | script (actor : Actor) (script : List Operation) (next : Continuation .nothing)
  | finished (next : Continuation .nothing)
  | analysed (a : Analysis) (next : Continuation .analysis)
  | replied (r : Reply) (next : Continuation .reply)

namespace Control

/-- Notify the subscribers of `s` if there is reason to. -/
def notifyIf (s : Session) (reason : Bool) (next : Continuation .nothing) : Control :=
  if reason then .notify s.subscribers next else .finished next

end Control

namespace Session

def begin (s : Session) (next : Continuation .reply) : Operation → Session × Control
  | .update id text =>
    let (s, new) := s.setText id text
    if new then
      let (s, reached) := s.rename id text
      (s, .notifyIf s reached (.reply (.flag true) next))
    else (s, .replied (.flag false) next)
  | .close id =>
    match s.slotOf? id with
    | none => (s, .replied (.unknownDocument id) next)
    | some n =>
      let grammars := (s.graph.name? id).toList
      let (s, reached) := (s.drop n id).invalidateReached id grammars none
      (s, .notifyIf s reached (.reply .done next))
  | .reset =>
    let s := s.documents.foldl dropNamed s
    (s, .notify s.subscribers (.reply .done next))
  | .query id (some text) query =>
    let (s, new) := s.setText id text
    if new then
      let (s, reached) := s.rename id text
      (s, .notifyIf s reached (.consult id text query next))
    else (s, .finished (.consult id text query next))
  | .query id none query =>
    match s.slotOf? id with
    | none => (s, .replied (.unknownDocument id) next)
    | some n => (s, .refresh n none (.answer query next))
  | .refresh ids => (s, .refreshAll [] ids next)
  | .freshness id => (s, .replied (.freshness (s.freshness? id)) next)
  | .documents => (s, .replied (.documents s.documents) next)
  | .subscribe script => (s.subscribe script, .replied (.handle s.nextHandle) next)
  | .unsubscribe handle =>
    (s.unsubscribe handle, .replied (.flag (s.subscribers.contains handle)) next)
  | .settings => (s, .replied (.settings s.settings) next)
  | .summary => (s, .replied (.summary s.summary) next)

/-- Takes up a slot that is not fresh. One that is closed, or is being analysed further down,
answers with what it has, whoever asks; where other workers analyse slots, it depends on who asks
(`Session.claimSlot`). -/
def refreshSlot (s : Session) (n : Nat) (requester? : Option String)
    (next : Continuation .analysis) : Session × Control :=
  match s.slots[n]? with
  | none => (s, .analysed (.empty ⟨"", 0⟩ 0) next)
  | some slot =>
    if slot.isFresh || slot.closed || slot.inFlight then (s, .analysed slot.current next)
    else (s.modifySlot n ({ · with inFlight := true }), .cycle n requester? false next)

/-- Reads the latest text of a slot. The imports enter the graph before any of them is looked up. -/
def readSlot (s : Session) (n : Nat) (slot : Slot) (requester? : Option String)
    (changed : Bool) : Session × Run :=
  let grammar := Grammar.parse slot.latest.text
  let table := SymbolTable.ofTree grammar.tree
  let known : Known :=
    if s.settings.resolveImports then [] else table.imports.map fun i => (i.grammar, none)
  ({ s with
      parses := s.parses + 1
      graph := s.graph.setImports slot.id (table.imports.map Import.grammar) },
    ⟨n, requester?, changed, slot.latest, slot.epoch, grammar, table, known⟩)

/-- Lets go of a slot. If its view has changed, the documents that import its grammar are
invalidated, all but the one on whose behalf it was analysed, and the subscribers are notified. -/
def releaseSlot (s : Session) (n : Nat) (slot : Slot) (requester? : Option String)
    (changed : Bool) (next : Continuation .analysis) : Session × Control :=
  let s := s.modifySlot n ({ · with inFlight := false })
  if changed then
    let grammars := (s.graph.name? slot.id).toList
    let (s, _) := s.invalidateReached slot.id grammars requester?
    (s, .notify s.subscribers (.deliver slot.current next))
  else (s, .analysed slot.current next)

def cycleSlot (s : Session) (n : Nat) (requester? : Option String) (changed : Bool)
    (next : Continuation .analysis) : Session × Control :=
  match s.slots[n]? with
  | none => (s, .analysed (.empty ⟨"", 0⟩ 0) next)
  | some slot =>
    if slot.closed || slot.isFresh then s.releaseSlot n slot requester? changed next
    else
      let (s, run) := s.readSlot n slot requester? changed
      (s, .resolve run next)

/-- Asks for the table of an imported grammar: the registered document that provides it, if that is
another one, or else the host. -/
def askFor (s : Session) (run : Run) (id grammar : String) (next : Continuation .analysis) :
    Session × Control :=
  match ((s.graph.provider? grammar).filter (· != id)).bind s.slotOf? with
  | some source => (s, .refresh source (some id) (.takeTable run grammar source next))
  | none =>
    match s.host? with
    | none => (s, .resolve (run.learn grammar none) next)
    | some host =>
      let table? := host.library.table? grammar
      let (s, script) := (s.record (.hostAsked grammar table?.isSome)).takeHook grammar
      (s, .script .host script (.takeAnswer run grammar table? next))

/-- Publishes the analysis of a run, unless it has been overtaken meanwhile. -/
def publish (s : Session) (run : Run) (slot : Slot) (resolution : Resolution)
    (next : Continuation .analysis) : Session × Control :=
  let a := Analysis.assemble run.snapshot run.epoch run.grammar run.table resolution
  if slot.supersedes run.snapshot run.epoch || !slot.isNewer a then
    (s, .cycle run.slot run.requester? run.changed next)
  else
    (s.modifySlot run.slot (·.publish a),
      .cycle run.slot run.requester? (run.changed || slot.showsChange a) next)

def resolveRun (s : Session) (run : Run) (next : Continuation .analysis) : Session × Control :=
  match s.slots[run.slot]? with
  | none => (s, .analysed (.empty run.snapshot run.epoch) next)
  | some slot =>
    match Resolution.attempt run.known run.grammar.tree run.table s.settings.warnUnresolved with
    | .error grammar => s.askFor run slot.id grammar next
    | .ok resolution => s.publish run slot resolution next

def resume (s : Session) : Continuation .nothing → Session × Control
  | .notify handles next => (s, .notify handles next)
  | .reply r next => (s, .replied r next)
  | .consult id text query next =>
    match s.slotOf? id with
    | some n => (s, .refresh n none (.answer query next))
    | none => (s, .analysed (.empty ⟨text, 0⟩ 0) (.answer query next))
  | .deliver a next => (s, .analysed a next)
  | .takeAnswer run grammar table? next => (s, .resolve (run.learn grammar table?) next)

def resumeAnalysed (s : Session) (a : Analysis) : Continuation .analysis → Session × Control
  | .answer query next => (s, .replied (query.answer a) next)
  | .refreshRest ready ids next => (s, .refreshAll (ready ++ [.ok a]) ids next)
  | .takeTable run grammar source next =>
    let table? := (s.slots[source]?.bind Slot.published?).map Analysis.table
    (s, .resolve (run.learn grammar table?) next)

/-- Goes on with a reply. Once it is there for the one who asked, nothing more happens. -/
def resumeReplied (s : Session) (r : Reply) : Continuation .reply → Session × Control
  | .stop => (s, .replied r .stop)
  | .script actor operation rest next =>
    (s.record (.performed actor operation r), .script actor rest next)

def step (s : Session) : Control → Session × Control
  | .perform operation next => s.begin next operation
  | .refresh n requester? next => s.refreshSlot n requester? next
  | .cycle n requester? changed next => s.cycleSlot n requester? changed next
  | .resolve run next => s.resolveRun run next
  | .refreshAll ready [] next => (s, .replied (.refreshed ready) next)
  | .refreshAll ready (id :: ids) next =>
    match s.slotOf? id with
    | none => (s, .refreshAll (ready ++ [.error id]) ids next)
    | some n => (s, .refresh n none (.refreshRest ready ids next))
  | .notify [] next => (s, .finished next)
  | .notify (handle :: handles) next =>
    let (s, script) := (s.record (.notified handle)).takeScript handle
    (s, .script .subscriber script (.notify handles next))
  | .script _ [] next => (s, .finished next)
  | .script actor (operation :: rest) next =>
    (s, .perform operation (.script actor operation rest next))
  | .finished next => s.resume next
  | .analysed a next => s.resumeAnalysed a next
  | .replied r next => s.resumeReplied r next

/-- Lets the machine run until it has a reply for the one who asked, for at most `steps` steps. -/
def runFor : Nat → Session → Control → Option (Reply × Session)
  | _, s, .replied r .stop => some (r, s)
  | 0, _, _ => none
  | steps + 1, s, control =>
    let (s, control) := s.step control
    runFor steps s control

/-- Performs an operation within a number of steps. -/
def perform (steps : Nat) (s : Session) (operation : Operation) : Option (Reply × Session) :=
  runFor steps s (.perform operation .stop)

/-- A number of steps that will do in practice. -/
def stepLimit : Nat := 1000000000000000

instance : Nonempty (Reply × Session) := ⟨.done, .start {} none⟩

/-- Lets the machine run until it has a reply for the one who asked. There is no result if it never
has one. -/
def runToEnd (s : Session) (control : Control) : Option (Reply × Session) :=
  repeatM (fun (s, control) =>
    match control with
    | .replied r .stop => some (.inr (r, s))
    | control => some (.inl (s.step control))) (s, control)

end Session

end GrammarAtlas
