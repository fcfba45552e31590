import GrammarAtlas.Workspace

/-! # Checking files

All diagnostics are reported, and the check fails if a file has an error among them. -/

namespace GrammarAtlas

namespace Verdict

/-- The advice for a diagnostic: that of the first fault at its place, if it stems from a fault. -/
def advice? (a : Analysis) (d : Diagnostic) : Option String :=
  match d.cause with
  | .fault _ => (a.faults.find? (·.location == d.location)).bind (·.cause.advice?)
  | .duplicate _ _ | .unresolved _ _ | .unknownImport _ => none

def report (a : Analysis) (d : Diagnostic) : Report :=
  ⟨d.message, d.code, d.severity, advice? a d, d.location⟩

/-- The diagnostics that are reported: without warnings if the user wants quiet. -/
def reported (quiet : Bool) (a : Analysis) : List Diagnostic :=
  a.diagnostics.filter fun d => !quiet || d.isError

def isFaulty (quiet : Bool) (a : Analysis) : Bool := (reported quiet a).any Diagnostic.isError

def ofAnalyses (quiet : Bool) (analyses : List Analysis) : Output :=
  let faulty := analyses.countP (isFaulty quiet)
  { reports := analyses.flatMap fun a => (reported quiet a).map (report a)
    failure? := if faulty = 0 then none else some (.faulty faulty) }

/-- Checks each file. -/
def command (turns : List Pool.Turn) (quiet : Bool) (files : List SourceFile) : AtlasM Output := do
  return ofAnalyses quiet (← AtlasM.analyses turns files)

end Verdict

end GrammarAtlas
