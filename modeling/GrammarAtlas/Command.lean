import GrammarAtlas.Workspace.Lens
import GrammarAtlas.Workspace.Listing
import GrammarAtlas.Workspace.Usage
import GrammarAtlas.Workspace.Verdict

/-! # Commands

What can be asked for on the command line, and how its words are read. -/

namespace GrammarAtlas

inductive Command where
  | symbols (paths : List Path) (style : Listing.Style)
  | lens (paths : List Path)
  | check (paths : List Path) (quiet : Bool)
  /-- References to a name in a file, which may import others. -/
  | references (path : Path) (name : String) (others : List Path)
deriving Repr, DecidableEq

namespace Command

/-- Runs a command, with a way to read files. -/
def run (schedule : Schedule) (read? : Path → Option String) : Command → Option Output
  | symbols paths style => Workspace.runOn schedule.named read? paths (Listing.command style)
  | lens paths => Workspace.runOn schedule.named read? paths Lens.command
  | check paths quiet =>
    Workspace.runOn schedule.named read? paths (Verdict.command schedule.turns quiet)
  | references path name others =>
    Workspace.runOn schedule.named read? (path :: others) (Usage.command name)

/-- The files that a command reads, in order. -/
def paths : Command → List Path
  | symbols paths _ | lens paths | check paths _ => paths
  | references path _ others => path :: others

/-- Divides words into the flags among `known` and the rest; other flags are not understood. -/
def flags? (known : List String) : List String → Option (List String × List String)
  | [] => some ([], [])
  | w :: ws => do
    let (flags, rest) ← flags? known ws
    if known.contains w then return (w :: flags, rest)
    else if w.startsWith "-" then none
    else return (flags, w :: rest)

/-- Reads the words of a command line. At least one file has to be named. -/
def ofWords? : List String → Option Command
  | "symbols" :: words => do
    let (flags, paths) ← flags? ["--exhaustive", "--imports", "--json"] words
    if paths.isEmpty then none
    else
      return .symbols (paths.map .ofString) ⟨flags.contains "--exhaustive", flags.contains "--imports",
        flags.contains "--json"⟩
  | "lens" :: words => do
    let (_, paths) ← flags? [] words
    if paths.isEmpty then none else return .lens (paths.map .ofString)
  | "check" :: words => do
    let (flags, paths) ← flags? ["--quiet", "-q"] words
    if paths.isEmpty then none else return .check (paths.map .ofString) (!flags.isEmpty)
  | ["refs", path, name] => some (.references (.ofString path) name [])
  | "refs" :: path :: name :: "--with" :: others =>
    if others.isEmpty then none else some (.references (.ofString path) name (others.map .ofString))
  | _ => none

end Command

end GrammarAtlas
