import GrammarAtlas.Occurrence

/-! # Resolving references

A reference is resolved against the grammar's own table, then the built-in symbols, then the tables
of imported grammars, breadth first. Those tables are not at hand from the start: `Known` holds the
answers got so far, and `Resolution.attempt` either resolves everything with them or names the next
grammar whose table it has to see. Asking and attempting again in turn (`Resolution.inquire`) asks
for each grammar once, and in the order in which the search comes upon them. -/

namespace GrammarAtlas

/-- The tables of the grammars asked for so far, in the order of asking. A grammar that is not
available has none. -/
abbrev Known := List (String × Option SymbolTable)

/-- A computation that may need the table of one more grammar, which it then names. -/
abbrev Inquiry := Except String

namespace Known

def table? (known : Known) (grammar : String) : Inquiry (Option SymbolTable) :=
  match known.lookup grammar with
  | some answer => .ok answer
  | none => .error grammar

def importCount : Known → Nat
  | [] => 0
  | (_, none) :: rest => importCount rest
  | (_, some table) :: rest => table.imports.length + importCount rest

end Known

/-- A grammar on the way of the search, and whether only its tokens count there. -/
abbrev Waypoint := String × Bool

namespace Waypoint

/-- The grammars that `table` leads to. Behind borrowed tokens all is borrowed tokens. -/
def following (table : SymbolTable) (tokensOnly : Bool) : List Waypoint :=
  table.imports.map fun i => (i.grammar, tokensOnly || i.tokensOnly)

end Waypoint

namespace Resolution

/-- The grammar among those in the queue, and those they lead to, that declares `name` first. Each
turn takes one grammar off the queue. -/
def search (known : Known) (ns : Namespace) (name : String) :
    Nat → List Waypoint → List Waypoint → Inquiry (Option String)
  | 0, _, _ => return none
  | _, [], _ => return none
  | turns + 1, (grammar, tokensOnly) :: queue, visited =>
    if visited.contains (grammar, tokensOnly) then search known ns name turns queue visited
    else if tokensOnly && ns != .token then
      search known ns name turns queue ((grammar, tokensOnly) :: visited)
    else do
      match ← known.table? grammar with
      | none => search known ns name turns queue ((grammar, tokensOnly) :: visited)
      | some table =>
        if table.defines ns name then return some grammar
        else
          search known ns name turns (queue ++ Waypoint.following table tokensOnly)
            ((grammar, tokensOnly) :: visited)

/-- The imported grammar that declares `name`. The search never comes back to the grammar itself. A
known table is passed twice at most, with all of its names and with its tokens, which bounds the
turns. -/
def findImported (known : Known) (own : SymbolTable) (ns : Namespace) (name : String) :
    Inquiry (Option String) :=
  let visited :=
    match own.grammarName? with
    | some grammar => [(grammar, false), (grammar, true)]
    | none => []
  search known ns name (own.imports.length + 2 * known.importCount + 1)
    (Waypoint.following own false) visited

/-- Where the name that a reference uses is declared. -/
def origin (known : Known) (own : SymbolTable) (ns : Namespace) (name : String) :
    Inquiry Symbol.Origin :=
  if own.defines ns name then return .own
  else if (Symbol.builtIn? ns name).isSome then return .builtIn
  else do
    match ← findImported known own ns name with
    | some grammar => return .imported grammar
    | none => return .unresolved

/-- The occurrence at the identifier `n` below `parent`. -/
def occurrence? (known : Known) (own : SymbolTable) (parent n : Node) :
    Inquiry (Option Occurrence) := do
  let some name := n.identifier? | return none
  match Occurrence.role? parent n name with
  | none => return none
  | some (.definition, ns) => return some ⟨name, n.location, .definition, ns, .own⟩
  | some (.reference, ns) =>
    return some ⟨name, n.location, .reference, ns, ← origin known own ns name⟩

/-- The occurrences at the given identifiers, each with the node above it. -/
def occurrencesAt (known : Known) (own : SymbolTable) :
    List (Node × Node) → Inquiry (List Occurrence)
  | [] => return []
  | (parent, n) :: rest => do
    let found? ← occurrence? known own parent n
    return found?.toList ++ (← occurrencesAt known own rest)

def unknownImports (known : Known) : List Import → Inquiry (List Diagnostic)
  | [] => return []
  | i :: rest => do
    let table? ← known.table? i.grammar
    let later ← unknownImports known rest
    return if table?.isNone then ⟨.unknownImport i.grammar, i.location⟩ :: later else later

def undeclared (o : Occurrence) : Symbol :=
  ⟨o.name, .ofUndeclared o.ns, none, none, .unresolved⟩

/-- The symbols of the names that the unresolved ones among `occurrences` use, each once, in the
order of their first use. -/
def undeclaredSymbols (occurrences : List Occurrence) : List Symbol :=
  (occurrences.filter Occurrence.isUnresolved).foldl
    (fun found o => if found.contains (undeclared o) then found else found ++ [undeclared o]) []

def unresolvedWarnings (occurrences : List Occurrence) : List Diagnostic :=
  (occurrences.filter Occurrence.isUnresolved).map fun o => ⟨.unresolved o.ns o.name, o.location⟩

end Resolution

/-- What the identifiers of a tree turned out to be. -/
structure Resolution where
  occurrences : List Occurrence
  /-- Names that are referred to and declared nowhere, in the order of their first use. -/
  unresolved : List Symbol
  diagnostics : List Diagnostic
deriving Repr, DecidableEq

namespace Resolution

/-- Resolves the identifiers of `tree`, whose own table is `own`, by the known tables. -/
def attempt (known : Known) (tree : Node) (own : SymbolTable) (warn : Bool) :
    Inquiry Resolution := do
  let unknown ← unknownImports known own.imports
  let occurrences ← occurrencesAt known own tree.identifiers
  return {
    occurrences
    unresolved := undeclaredSymbols occurrences
    diagnostics := unknown ++ if warn then unresolvedWarnings occurrences else [] }

end Resolution

/-- A fixed collection of grammars with their tables. -/
abbrev Library := List (String × SymbolTable)

namespace Library

/-- The table filed last under `grammar`. -/
def table? (library : Library) (grammar : String) : Option SymbolTable :=
  library.reverse.lookup grammar

def importCount : Library → Nat
  | [] => 0
  | (_, table) :: rest => table.imports.length + importCount rest

end Library

namespace Resolution

/-- Resolves by asking a library for one table after the other, at most `turns` times, and says what
was asked. -/
def inquireFrom (library : Library) (tree : Node) (own : SymbolTable) (warn : Bool) :
    Nat → Known → Option (Resolution × Known)
  | 0, _ => none
  | turns + 1, known =>
    match attempt known tree own warn with
    | .ok resolution => some (resolution, known)
    | .error grammar =>
      inquireFrom library tree own warn turns (known ++ [(grammar, library.table? grammar)])

/-- Resolves against a library. No grammar is asked for twice and each is named in an import, so
there are no more questions than imports. -/
def inquire (library : Library) (tree : Node) (own : SymbolTable) (warn : Bool) :
    Option (Resolution × Known) :=
  inquireFrom library tree own warn (own.imports.length + library.importCount + 1) []

end Resolution

end GrammarAtlas
