import GrammarAtlas.Analysis
import GrammarAtlas.Text.Json

/-! # Symbols as JSON -/

namespace GrammarAtlas

def Position.toJson (p : Position) : Json :=
  .object [("line", .number p.line), ("col", .number p.column)]

def Location.toJson (l : Location) : Json :=
  .object [
    ("absolute_start", .number l.start.offset),
    ("absolute_end", .number l.stop.offset),
    ("start", l.start.position.toJson),
    ("end", l.stop.position.toJson)]

def Symbol.Origin.toJson : Symbol.Origin → Json
  | own => .string "Local"
  | builtIn => .string "BuiltIn"
  | imported grammar => .object [("Imported", .string grammar)]
  | unresolved => .string "Unresolved"

/-- The fields of a symbol, which those of an entry continue. -/
def Symbol.jsonFields (s : Symbol) : List (String × Json) :=
  [("name", .string s.name),
   ("kind", .string s.kind.label),
   ("definition", (s.definition?.map Location.toJson).getD .null),
   ("containing_mode", (s.mode?.map Json.string).getD .null),
   ("origin", s.origin.toJson)]

/-- References are left out where there are none to show. -/
def SymbolEntry.toJson (e : SymbolEntry) : Json :=
  .object (e.symbol.jsonFields ++ [("reference_count", .number e.referenceCount)] ++
    if e.references.isEmpty then []
    else [("references", .array (e.references.map Location.toJson))])

end GrammarAtlas
