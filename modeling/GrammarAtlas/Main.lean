import GrammarAtlas.Command

/-! # The command line -/

namespace GrammarAtlas.CommandLine

def usage : String :=
  "usage: symbols [--exhaustive] [--imports] [--json] FILES | lens FILES | check [--quiet] FILES " ++
    "| refs FILE NAME [--with FILES]"

/-- Reads the text of a file, if it can be read. -/
def readText? (path : Path) : IO (Option String) := do
  try
    return some (← IO.FS.readFile path.display)
  catch _ =>
    return none

def printReport (r : Report) : IO Unit := do
  let word := match r.severity with
    | .error => "error"
    | .warning => "warning"
  IO.eprintln (word ++ " [" ++ r.code ++ "]: " ++ r.message ++ " (" ++ r.label ++ ")")
  if let some help := r.help? then IO.eprintln ("  help: " ++ help)

/-- Runs the command that the words ask for, and gives the exit code. -/
def run (words : List String) : IO UInt32 := do
  match Command.ofWords? words with
  | none =>
    IO.eprintln usage
    return 2
  | some command =>
    let texts ← command.paths.mapM fun path => return (path, ← readText? path)
    match command.run {} fun path => (texts.lookup path).join with
    | none =>
      IO.eprintln "the analysis did not end"
      return 1
    | some output =>
      IO.print output.text
      output.reports.forM printReport
      match output.failure? with
      | some failure =>
        IO.eprintln ("Error: " ++ failure.message)
        return 1
      | none => return 0

end GrammarAtlas.CommandLine

def main (words : List String) : IO UInt32 := GrammarAtlas.CommandLine.run words
