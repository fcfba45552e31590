import GrammarAtlas.Symbol.Json
import GrammarAtlas.Workspace

/-! # Listings of symbols

Each file is followed by its symbols, as a table or as JSON. -/

namespace GrammarAtlas

/-- `s` filled up with blanks to `width` characters. -/
def padded (width : Nat) (s : String) : String :=
  s ++ String.ofList (List.replicate (width - s.length) ' ')

def Position.short (p : Position) : String := toString p.line ++ ":" ++ toString p.column

namespace Listing

structure Style where
  /-- Show the place of every reference. -/
  exhaustive : Bool := false
  /-- Also list the grammars that are imported. -/
  imports : Bool := false
  json : Bool := false
deriving Repr, DecidableEq

/-- The place, kind, name and number of references of a symbol, in columns. -/
def row (e : SymbolEntry) : String :=
  let place :=
    match e.symbol.definition? with
    | some l => l.start.position.short
    | none => "-"
  "  " ++ padded 8 place ++ " " ++ padded 20 e.symbol.kind.label ++ " " ++
    padded 24 e.symbol.name ++ " " ++ toString e.referenceCount

def entryLines (e : SymbolEntry) : List String :=
  row e :: e.references.map fun l => "    -> " ++ l.start.position.short

def fileLines (id : String) (entries : List SymbolEntry) : List String :=
  id :: entries.flatMap entryLines

def fileJson (id : String) (entries : List SymbolEntry) : Json :=
  .object [("file", .string id), ("symbols", .array (entries.map SymbolEntry.toJson))]

def importKinds : List Symbol.Kind := [.importedGrammar, .tokenVocabulary]

def entries (style : Style) (file : SourceFile) : AtlasM (List SymbolEntry) := do
  let symbols ← AtlasM.entries file (.overview style.exhaustive)
  if style.imports then
    return symbols ++ (← AtlasM.entries file (.list { kinds? := some importKinds }))
  else
    return symbols

def lines (style : Style) (listings : List (String × List SymbolEntry)) : List String :=
  if style.json then [(Json.array (listings.map fun (id, es) => fileJson id es)).text]
  else listings.flatMap fun (id, es) => fileLines id es

def command (style : Style) (files : List SourceFile) : AtlasM Output := do
  let listings ← files.mapM fun file => return (file.id, ← entries style file)
  return { lines := lines style listings }

end Listing

end GrammarAtlas
