import GrammarAtlas.Editor
import GrammarAtlas.Resolution
import GrammarAtlas.Tree.Rule

/-! # Analyses

An analysis is all that is known about a text at one moment: its tree and faults, its table, and
what its names refer to. It is never changed, only replaced. -/

namespace GrammarAtlas

/-- The text of a document at one moment. Versions count up as texts replace each other. -/
structure Snapshot where
  text : String
  version : Nat
deriving Repr, DecidableEq

def Snapshot.hasText (s : Snapshot) (text : String) : Bool := s.text == text

structure Analysis where
  snapshot : Snapshot
  tree : Node
  faults : List Fault
  table : SymbolTable
  /-- Names that are referred to and declared nowhere, in the order of their first use. -/
  unresolved : List Symbol
  occurrences : List Occurrence
  /-- Faults first, then names declared again, then what was not found. -/
  diagnostics : List Diagnostic
  /-- How often the imported grammars had changed before the analysis. -/
  epoch : Nat
deriving Repr

/-- A symbol with the references to it. -/
structure SymbolEntry where
  symbol : Symbol
  referenceCount : Nat
  /-- Where the references are, if that was asked for. -/
  references : List Location
deriving Repr, DecidableEq

/-- What a listing of symbols includes. -/
structure SymbolFilter where
  /-- Symbols of these kinds only. -/
  kinds? : Option (List Symbol.Kind) := none
  /-- No names that are only referred to. -/
  definedOnly : Bool := false
  /-- No imported grammars. -/
  withoutImports : Bool := false
  /-- With the places of all references. -/
  withReferences : Bool := false
deriving Repr, DecidableEq

def SymbolFilter.accepts (f : SymbolFilter) (kind : Symbol.Kind) : Bool :=
  (!f.withoutImports || kind.namespace?.isSome) &&
    match f.kinds? with
    | some kinds => kinds.contains kind
    | none => true

namespace Analysis

/-- What stands in for an analysis that is not there yet. -/
def empty (snapshot : Snapshot) (epoch : Nat) : Analysis :=
  ⟨snapshot, .leaf .grammar .nowhere, [], .empty, [], [], [], epoch⟩

/-- Puts an analysis together. -/
def assemble (snapshot : Snapshot) (epoch : Nat) (grammar : Grammar) (table : SymbolTable)
    (resolution : Resolution) : Analysis where
  snapshot
  tree := grammar.tree
  faults := grammar.faults
  table
  unresolved := resolution.unresolved
  occurrences := resolution.occurrences
  diagnostics :=
    grammar.faults.map Diagnostic.ofFault ++ table.diagnostics ++ resolution.diagnostics
  epoch

def version (a : Analysis) : Nat := a.snapshot.version

/-- The references to `name` in any namespace. -/
def references (a : Analysis) (name : String) : List Occurrence :=
  a.occurrences.filter fun o => o.isReference && o.name == name

def referenceCount (a : Analysis) (name : String) : Nat := (a.references name).length

/-- The symbol called `name`; a declared one comes before one that is only referred to. -/
def symbol? (a : Analysis) (name : String) : Option Symbol :=
  (a.table.symbols ++ a.unresolved).find? (·.name == name)

/-- The places of the references to `s` in its own namespace. -/
def referencesTo (a : Analysis) (s : Symbol) : List Location :=
  match s.kind.namespace? with
  | some ns => (a.occurrences.filter (·.refersTo ns s.name)).map Occurrence.location
  | none => []

def describe (a : Analysis) (withReferences : Bool) (s : Symbol) : SymbolEntry :=
  let references := a.referencesTo s
  ⟨s, references.length, if withReferences then references else []⟩

/-- The symbols in the order of the text, then those that are only referred to. -/
def list (a : Analysis) (f : SymbolFilter) : List SymbolEntry :=
  let symbols := a.table.symbols ++ if f.definedOnly then [] else a.unresolved
  (symbols.filter fun s => f.accepts s.kind).map (a.describe f.withReferences)

/-- The occurrence under an editor position. -/
def occurrenceAt? (a : Analysis) (p : EditorPosition) : Option Occurrence := do
  let offset ← p.offset? a.snapshot.text.toList
  a.occurrences.find? (·.location.contains offset)

/-- Whether two analyses show the same symbols and occurrences. -/
def sameView (a b : Analysis) : Bool :=
  a.table.symbols == b.table.symbols && a.unresolved == b.unresolved &&
    a.occurrences == b.occurrences

end Analysis

end GrammarAtlas
