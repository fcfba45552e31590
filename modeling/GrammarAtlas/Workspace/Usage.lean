import GrammarAtlas.Workspace

/-! # References to a name

The references in the first file are listed; the others are there to be imported. -/

namespace GrammarAtlas

namespace Usage

def line (file : SourceFile) (o : Occurrence) : String :=
  file.id ++ ":" ++ toString o.location.start.position.line ++ ":" ++
    toString o.location.start.position.column ++ ": " ++ o.ns.text ++ " " ++ o.name

/-- Lists the references to `name` in the first file, and how many there are. -/
def command (name : String) (files : List SourceFile) : AtlasM Output := do
  match files with
  | [] => return {}
  | file :: _ =>
    let references ← AtlasM.references file name
    let count ← AtlasM.count file name
    return { lines := references.map (line file) ++ [name ++ ": " ++ toString count ++ " references"] }

end Usage

end GrammarAtlas
