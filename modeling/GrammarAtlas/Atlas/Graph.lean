import GrammarAtlas.Atlas.Directory

/-! # Who imports whom

The graph knows which grammar name each document declares and which grammars it imports. Several
documents may declare one name; the least of them provides it. `dependents` finds the documents that
a change of a grammar reaches, directly or through others. -/

namespace GrammarAtlas

structure ImportGraph where
  /-- The grammar that each document declares. -/
  names : Directory String
  /-- The documents that declare each grammar, in ascending order. -/
  providers : Directory (List String)
  /-- The grammars that each document imports, as of its last analysis. -/
  imports : Directory (List String)
deriving Repr

namespace ImportGraph

def empty : ImportGraph := ⟨[], [], []⟩

def name? (g : ImportGraph) (document : String) : Option String := g.names.get? document

def provider? (g : ImportGraph) (grammar : String) : Option String :=
  (g.providers.get? grammar).bind List.head?

def eraseName (g : ImportGraph) (document : String) : ImportGraph :=
  match g.name? document with
  | none => g
  | some grammar =>
    let others := ((g.providers.get? grammar).getD []).filter (· != document)
    { g with
      names := g.names.erase document
      providers :=
        if others.isEmpty then g.providers.erase grammar
        else g.providers.insert grammar others }

def insertName (g : ImportGraph) (document grammar : String) : ImportGraph :=
  let others := (g.providers.get? grammar).getD []
  { g with
    names := g.names.insert document grammar
    providers := g.providers.insert grammar (insertAscending document others) }

def setName (g : ImportGraph) (document : String) (grammar? : Option String) : ImportGraph :=
  if g.name? document = grammar? then g
  else
    let g := g.eraseName document
    match grammar? with
    | some grammar => g.insertName document grammar
    | none => g

/-- The grammars that are no longer what they were once a document declares `grammar?`: its old name
and its new one, and just its name if that stays. -/
def affected (g : ImportGraph) (document : String) (grammar? : Option String) : List String :=
  if g.name? document = grammar? then grammar?.toList
  else (g.name? document).toList ++ grammar?.toList

def setImports (g : ImportGraph) (document : String) (grammars : List String) : ImportGraph :=
  { g with
    imports :=
      if grammars.isEmpty then g.imports.erase document
      else g.imports.insert document grammars }

def erase (g : ImportGraph) (document : String) : ImportGraph :=
  { g.eraseName document with imports := g.imports.erase document }

/-- The documents besides `origin` and those in `found` that import `grammar`. -/
def importers (g : ImportGraph) (origin : String) (found : List String) (grammar : String) :
    List String :=
  (g.imports.filter fun (document, grammars) =>
    document != origin && !found.contains document && grammars.contains grammar).map
    fun (document, _) => document

/-- Extends `found` by the documents that import a grammar of the queue, or the grammar of such a
document. Each turn takes one grammar off the queue. -/
def spread (g : ImportGraph) (origin : String) :
    Nat → List String → List String → List String → List String
  | 0, _, _, found => found
  | _, [], _, found => found
  | turns + 1, grammar :: queue, seen, found =>
    if seen.contains grammar then g.spread origin turns queue seen found
    else
      let fresh := g.importers origin found grammar
      g.spread origin turns (queue ++ fresh.filterMap g.name?) (grammar :: seen) (found ++ fresh)

/-- The documents other than `origin` that import one of `grammars`, directly or through other
documents, in ascending order. Each document enters the search once, which bounds its turns. -/
def dependents (g : ImportGraph) (origin : String) (grammars : List String) : List String :=
  ascending (g.spread origin (grammars.length + g.imports.length + 1) grammars [] [])

end ImportGraph

end GrammarAtlas
