import GrammarAtlas.Workspace

/-! # Lenses

A lens is the line that an editor shows above a declaration: how often its name is referred to. -/

namespace GrammarAtlas

namespace Lens

/-- The lens of a symbol whose name is referred to `count` times. -/
def line (name : String) (place : EditorPosition) (count : Nat) : String :=
  place.text ++ " " ++ name ++ ": " ++ toString count ++ " references"

/-- The lens of a listed symbol, if it is of a kind that has one and is declared. -/
def ofEntry (file : SourceFile) (e : SymbolEntry) : AtlasM (Option String) := do
  if e.symbol.kind.hasLens then
    match e.symbol.definition? with
    | some l =>
      let count ← AtlasM.count file e.symbol.name
      return some (line e.symbol.name (.ofPosition l.start.position) count)
    | none => return none
  else
    return none

def ofFile (file : SourceFile) : AtlasM (List String) := do
  let entries ← AtlasM.entries file (.overview false)
  return (← entries.mapM (ofEntry file)).filterMap id

/-- Shows the lenses of each file, under its name if there are several. -/
def command (files : List SourceFile) : AtlasM Output := do
  let lines ← files.mapM fun file => do
    let lenses ← ofFile file
    return if 1 < files.length then file.id :: lenses else lenses
  return { lines := lines.flatten }

end Lens

end GrammarAtlas
