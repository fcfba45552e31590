import GrammarAtlas.Atlas.Graph
import GrammarAtlas.Atlas.Slot

/-! # Sessions

A session is an atlas of documents in use: the slots and the import graph, the grammars that the
host supplies, and the subscribers that are notified when asking again may bring another answer.

What a subscriber does when it is first notified, and what the host does when it is asked for a
grammar, is a script: a list of operations on the session itself. This module has the operations and
what they do to the state at once; how they call on each other is in `Atlas.Machine`. -/

namespace GrammarAtlas

structure Settings where
  /-- How long a query waits for the first analysis of a document that another worker has under way,
  in milliseconds. No time passes here: a query of the machine never waits, and when a worker of a pool
  gives up waiting is a matter of the turns (`Pool.Turn.giveUp`). -/
  timeout : Nat := 250
  /-- Look names up in imported grammars. -/
  resolveImports : Bool := true
  /-- Report references that lead nowhere. -/
  warnUnresolved : Bool := true
deriving Repr, DecidableEq

namespace Settings

/-- A time in the largest unit that it fills, with what is left of it as a fraction. -/
def durationText (milliseconds : Nat) : String :=
  if milliseconds = 0 then "0ns"
  else if milliseconds < 1000 then toString milliseconds ++ "ms"
  else
    let rest := milliseconds % 1000
    let digits := (toString (1000 + rest)).toList.tail
    let fraction := (digits.reverse.dropWhile (· == '0')).reverse
    toString (milliseconds / 1000) ++
      (if fraction.isEmpty then "" else "." ++ String.ofList fraction) ++ "s"

def text (s : Settings) : String :=
  "IndexOptions \x7b first_analysis_timeout: " ++ durationText s.timeout ++
    ", resolve_imports: " ++ toString s.resolveImports ++
    ", warn_unresolved: " ++ toString s.warnUnresolved ++ " \x7d"

end Settings

/-! ## Operations -/

/-- What is asked of an analysis. -/
inductive Query where
  /-- All symbols but imported grammars. -/
  | overview (withReferences : Bool)
  | list (filter : SymbolFilter)
  | count (name : String)
  | analysis
  | symbol (name : String)
  | references (name : String)
  | occurrenceAt (position : EditorPosition)
  | diagnostics
deriving Repr

inductive Operation where
  /-- Puts a text in the place of the one of a document. -/
  | update (id text : String)
  | close (id : String)
  | reset
  /-- Asks about a document, whose text is replaced first if one is given. -/
  | query (id : String) (text? : Option String) (query : Query)
  /-- Brings several documents up to date, one after the other. That is what a pool comes to whose
  workers come one after the other; `Session.refreshBy` is for workers that take turns. -/
  | refresh (ids : List String)
  | freshness (id : String)
  | documents
  /-- Subscribes to changes, with what to do on the first notification. -/
  | subscribe (script : List Operation)
  | unsubscribe (handle : Nat)
  | settings
  | summary
deriving Repr

inductive Reply where
  | done
  | flag (b : Bool)
  | unknownDocument (id : String)
  | entries (entries : List SymbolEntry)
  | count (n : Nat)
  | analysis (a : Analysis)
  | symbol (found? : Option SymbolEntry)
  | references (occurrences : List Occurrence)
  | occurrence (found? : Option Occurrence)
  | diagnostics (diagnostics : List Diagnostic)
  /-- An analysis for each document, or its name if there is none of that name. -/
  | refreshed (analyses : List (Except String Analysis))
  | freshness (found? : Option Freshness)
  | documents (ids : List String)
  | handle (n : Nat)
  | settings (s : Settings)
  | summary (text : String)

def Query.answer (a : Analysis) : Query → Reply
  | overview withReferences => .entries (a.list { withoutImports := true, withReferences })
  | list filter => .entries (a.list filter)
  | count name => .count (a.referenceCount name)
  | analysis => .analysis a
  | symbol name => .symbol ((a.symbol? name).map (a.describe true))
  | references name => .references (a.references name)
  | occurrenceAt position => .occurrence (a.occurrenceAt? position)
  | diagnostics => .diagnostics a.diagnostics

def unknownDocumentMessage (id : String) : String :=
  "unknown document: " ++ id ++ " was never registered with the index"

inductive Actor where
  | host
  | subscriber
deriving Repr, DecidableEq

/-- What an observer of a session sees happen. -/
inductive Event where
  /-- The host was asked for a grammar, and had it or not. -/
  | hostAsked (grammar : String) (found : Bool)
  | notified (handle : Nat)
  /-- An operation of a script has ended. -/
  | performed (actor : Actor) (operation : Operation) (reply : Reply)

/-- What the host does, once, when it is asked for a grammar. -/
structure Hook where
  grammar : String
  script : List Operation
deriving Repr

structure Host where
  library : Library
  hooks : List Hook
deriving Repr

/-! ## State -/

structure Session where
  settings : Settings
  /-- All slots there ever were, by the order of registration. A document that was dropped and
  registered again has several, of which only the last is not closed. -/
  slots : List Slot
  graph : ImportGraph
  host? : Option Host
  /-- The handles of the subscribers, in the order of subscription. -/
  subscribers : List Nat
  /-- The scripts that are still to run, by the handle of the subscriber. -/
  scripts : List (Nat × List Operation)
  nextHandle : Nat
  parses : Nat
  events : List Event

namespace Session

def start (settings : Settings) (host? : Option Host) : Session :=
  ⟨settings, [], .empty, host?, [], [], 0, 0, []⟩

def record (s : Session) (e : Event) : Session := { s with events := e :: s.events }

/-- The number of the slot of a registered document. -/
def slotOf? (s : Session) (id : String) : Option Nat :=
  s.slots.findIdx? fun slot => slot.id == id && !slot.closed

def modifySlot (s : Session) (n : Nat) (f : Slot → Slot) : Session :=
  { s with slots := s.slots.modify n f }

def openSlots (s : Session) : List Slot := s.slots.filter (!·.closed)

def documents (s : Session) : List String := ascending (s.openSlots.map Slot.id)

def freshness? (s : Session) (id : String) : Option Freshness :=
  (s.slotOf? id).bind fun n => s.slots[n]?.map Slot.freshness

/-- The registered documents in ascending order, and how fresh each is. -/
def states (s : Session) : List (String × Freshness) :=
  s.documents.filterMap fun id => (s.freshness? id).map (id, ·)

/-- Counts up the epoch of a document, if it is registered. -/
def invalidate (s : Session) (id : String) : Session :=
  match s.slotOf? id with
  | some n => s.modifySlot n Slot.invalidate
  | none => s

/-- The registered documents that a change of `grammars` by `origin` reaches, without `except?`. -/
def reached (s : Session) (origin : String) (grammars : List String) (except? : Option String) :
    List String :=
  (s.graph.dependents origin grammars).filter fun id =>
    except? != some id && (s.slotOf? id).isSome

/-- Invalidates what a change of `grammars` reaches, and says whether there is any of it. -/
def invalidateReached (s : Session) (origin : String) (grammars : List String)
    (except? : Option String) : Session × Bool :=
  let ids := s.reached origin grammars except?
  (ids.foldl invalidate s, !ids.isEmpty)

/-- Files a text, and says whether it is new. -/
def setText (s : Session) (id text : String) : Session × Bool :=
  match s.slotOf? id with
  | some n =>
    if (s.slots[n]?.map (·.latest.hasText text)).getD false then (s, false)
    else (s.modifySlot n (·.setText text), true)
  | none => ({ s with slots := s.slots ++ [.new id text] }, true)

/-- Files the name that a new text declares, and invalidates the documents that import the old name
or the new one. Says whether there are any. -/
def rename (s : Session) (id text : String) : Session × Bool :=
  let grammar? := Grammar.sniffName? text
  let grammars := s.graph.affected id grammar?
  { s with graph := s.graph.setName id grammar? }.invalidateReached id grammars none

def drop (s : Session) (n : Nat) (id : String) : Session :=
  { s.modifySlot n Slot.close with graph := s.graph.erase id }

def dropNamed (s : Session) (id : String) : Session :=
  match s.slotOf? id with
  | some n => s.drop n id
  | none => { s with graph := s.graph.erase id }

def subscribe (s : Session) (script : List Operation) : Session :=
  { s with
    subscribers := s.subscribers ++ [s.nextHandle]
    scripts := s.scripts ++ [(s.nextHandle, script)]
    nextHandle := s.nextHandle + 1 }

def unsubscribe (s : Session) (handle : Nat) : Session :=
  { s with subscribers := s.subscribers.filter (· != handle) }

/-- Takes the script of a subscriber, which is run once. -/
def takeScript (s : Session) (handle : Nat) : Session × List Operation :=
  ({ s with scripts := s.scripts.filter fun (h, _) => h != handle },
    (s.scripts.lookup handle).getD [])

/-- Takes the script of the first hook for a grammar, which is run once. -/
def takeHook (s : Session) (grammar : String) : Session × List Operation :=
  match s.host? with
  | none => (s, [])
  | some host =>
    match host.hooks.find? (·.grammar == grammar) with
    | none => (s, [])
    | some hook =>
      let hooks := host.hooks.eraseP (·.grammar == grammar)
      ({ s with host? := some { host with hooks } }, hook.script)

def summary (s : Session) : String :=
  "GrammarIndex \x7b documents: " ++ toString s.openSlots.length ++
    ", options: " ++ s.settings.text ++ ", analysis_count: " ++ toString s.parses ++ ", .. \x7d"

end Session

end GrammarAtlas
