import GrammarAtlas.Analysis

/-! # Document slots

A slot holds the latest text of a document and the last analysis that was published for it. An
analysis runs only when it is asked for, one at a time, and holds until the text is replaced or an
imported grammar changes; the latter counts up the epoch. -/

namespace GrammarAtlas

/-- How the published analysis of a document stands to its text and imports. -/
inductive Freshness where
  | empty
  | fresh
  | stale
deriving Repr, DecidableEq

structure Slot where
  id : String
  latest : Snapshot
  /-- How often an imported grammar has changed. -/
  epoch : Nat
  published? : Option Analysis
  /-- An analysis of the document is under way. -/
  inFlight : Bool
  /-- The document has been dropped. Nothing is published any more. -/
  closed : Bool
deriving Repr

namespace Slot

def new (id text : String) : Slot := ⟨id, ⟨text, 1⟩, 0, none, false, false⟩

/-- Whether the published analysis is of the latest text and epoch. -/
def isFresh (s : Slot) : Bool :=
  match s.published? with
  | some a => a.snapshot == s.latest && a.epoch == s.epoch
  | none => false

def freshness (s : Slot) : Freshness :=
  if s.published?.isNone then .empty else if s.isFresh then .fresh else .stale

/-- The published analysis, or what stands in for it. -/
def current (s : Slot) : Analysis := s.published?.getD (.empty s.latest s.epoch)

/-- Replaces the text, under the next version. -/
def setText (s : Slot) (text : String) : Slot :=
  { s with latest := ⟨text, s.latest.version + 1⟩ }

def invalidate (s : Slot) : Slot := { s with epoch := s.epoch + 1 }

def close (s : Slot) : Slot := { s with closed := true }

/-- Whether an analysis begun for the given snapshot and epoch has been overtaken. -/
def supersedes (s : Slot) (snapshot : Snapshot) (epoch : Nat) : Bool :=
  s.closed || s.latest.version != snapshot.version || s.epoch != epoch

/-- Whether `a` is of a later version than what is published, or of a later epoch of the same. -/
def isNewer (s : Slot) (a : Analysis) : Bool :=
  match s.published? with
  | some p => p.version < a.version || (p.version == a.version && p.epoch < a.epoch)
  | none => true

/-- Whether the publication of `a` shows anything new. -/
def showsChange (s : Slot) (a : Analysis) : Bool :=
  match s.published? with
  | some p => !p.sameView a
  | none => true

def publish (s : Slot) (a : Analysis) : Slot := { s with published? := some a }

end Slot

end GrammarAtlas
