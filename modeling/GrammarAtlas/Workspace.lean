import GrammarAtlas.Atlas.Pool
import GrammarAtlas.Workspace.Path

/-! # Workspaces

A workspace is the files named on a command line, each a document of one session, so that imports
between them resolve. A command is a computation over that session and ends with an `Output`.

Files are read, and analysed, by several workers. What that leaves to chance is in a `Schedule`. -/

namespace GrammarAtlas

structure SourceFile where
  path : Path
  text : String
deriving Repr, DecidableEq

/-- The document that a file is registered as. Files of different paths may be registered as one. -/
def SourceFile.id (file : SourceFile) : String := file.path.display

structure Schedule where
  /-- Which one is named of several files that cannot be read. -/
  named : Nat := 0
  /-- The turns that the workers of a refresh begin with. -/
  turns : List Pool.Turn := []
deriving Repr, DecidableEq

inductive Failure where
  | unreadable (path : String)
  | faulty (files : Nat)
deriving Repr, DecidableEq

def Failure.message : Failure → String
  | unreadable path => "failed to read " ++ path
  | faulty files => toString files ++ " grammar file(s) with errors"

/-- A diagnostic as it is reported to the user. -/
structure Report where
  message : String
  code : String
  severity : Severity
  help? : Option String
  location : Location
deriving Repr, DecidableEq

namespace Report

/-- The words at the place that a report points to. -/
def label (r : Report) : String :=
  "line " ++ toString r.location.start.position.line ++
    ", column " ++ toString r.location.start.position.column

def length (r : Report) : Nat := r.location.stop.offset - r.location.start.offset

end Report

/-- What a command leaves: lines of text, reports, and perhaps a failure. -/
structure Output where
  lines : List String := []
  reports : List Report := []
  failure? : Option Failure := none
deriving Repr, DecidableEq

def Output.text (o : Output) : String := String.join (o.lines.map (· ++ "\n"))

/-- Computations over a session. They have no result if an operation does not end. -/
abbrev AtlasM := StateT Session Option

namespace AtlasM

def perform (operation : Operation) : AtlasM Reply := fun s =>
  s.runToEnd (.perform operation .stop)

def entries (file : SourceFile) (query : Query) : AtlasM (List SymbolEntry) := do
  match ← perform (.query file.id (some file.text) query) with
  | .entries entries => return entries
  | _ => failure

def count (file : SourceFile) (name : String) : AtlasM Nat := do
  match ← perform (.query file.id (some file.text) (.count name)) with
  | .count n => return n
  | _ => failure

def references (file : SourceFile) (name : String) : AtlasM (List Occurrence) := do
  match ← perform (.query file.id none (.references name)) with
  | .references occurrences => return occurrences
  | _ => failure

/-- Analyses of all files, in their order. -/
def analyses (turns : List Pool.Turn) (files : List SourceFile) : AtlasM (List Analysis) := do
  let results ← fun s => s.refreshBy turns (files.map SourceFile.id)
  results.mapM fun
    | .ok a => return a
    | .error _ => failure

end AtlasM

namespace Workspace

/-- Reads all files, unless there are some that cannot be read. Any of those may be named. -/
def readAll (named : Nat) (read? : Path → Option String) (paths : List Path) :
    Except Failure (List SourceFile) :=
  match paths.filter fun path => (read? path).isNone with
  | [] => .ok (paths.filterMap fun path => (read? path).map (⟨path, ·⟩))
  | path :: others => .error (.unreadable (((path :: others)[named]?).getD path).display)

/-- Registers the files with a new session, and runs a command over it. -/
def run (files : List SourceFile) (command : AtlasM Output) : Option Output := do
  let register : AtlasM Unit := files.forM fun file => do
    let _ ← AtlasM.perform (.update file.id file.text)
  let (output, _) ← (do register; command).run (.start {} none)
  return output

/-- Runs a command over files that have to be read first. -/
def runOn (named : Nat) (read? : Path → Option String) (paths : List Path)
    (command : List SourceFile → AtlasM Output) : Option Output :=
  match readAll named read? paths with
  | .error failure => some { failure? := some failure }
  | .ok files => run files (command files)

end Workspace

end GrammarAtlas
