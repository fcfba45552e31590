import GrammarAtlas.Diagnostic
import GrammarAtlas.Tree

/-! # Symbol tables

`Declaration.ofTree` lists what a tree declares, in the order of the text, and `SymbolTable.ofTree`
enters it into a table. A name is entered once per namespace: the first declaration stands, and each
later one is reported. -/

namespace GrammarAtlas

/-- A grammar that another one draws on. -/
structure Import where
  grammar : String
  /-- Another name under which the grammar is imported. -/
  alias? : Option String
  location : Location
  /-- Only the tokens of the grammar are borrowed. -/
  tokensOnly : Bool
deriving Repr, DecidableEq

inductive Declaration where
  | symbol (kind : Symbol.Kind) (name : String) (location : Location) (mode? : Option String)
  | grammar (i : Import)
deriving Repr, DecidableEq

namespace Declaration

/-- The declaration of the name that `n` is the node of. -/
def ofName (kind : Symbol.Kind) (mode? : Option String) (n : Node) : Option Declaration :=
  n.identifier?.map fun name => .symbol kind name n.location mode?

/-- The declaration of the name of a rule or mode. -/
def ofNamed (kind : Symbol.Kind) (mode? : Option String) (n : Node) : List Declaration :=
  (n.nameNode?.bind (ofName kind mode?)).toList

/-- `text` without the quotes at both of its ends. -/
def unquoted (text : String) : String :=
  let isQuote (c : Char) : Bool := c == '\''
  String.ofList ((text.toList.dropWhile isQuote).reverse.dropWhile isQuote).reverse

/-- The grammar that an option borrows tokens from. -/
def ofOption (n : Node) : Option Declaration :=
  match n.kind, n.children with
  | .option "tokenVocab", value :: _ =>
    match value.kind with
    | .identifier name => some (.grammar ⟨name, none, value.location, true⟩)
    | .literal text => some (.grammar ⟨unquoted text, none, value.location, true⟩)
    | _ => none
  | _, _ => none

def ofDelegate (n : Node) : Option Declaration :=
  match n.kind with
  | .delegate name alias? => some (.grammar ⟨name, alias?, n.location, false⟩)
  | _ => none

mutual

/-- What a part of a grammar declares that stands in the given mode. -/
def ofPart (mode? : Option String) : Node → List Declaration
  | ⟨kind, location, children⟩ =>
    let n : Node := ⟨kind, location, children⟩
    match kind with
    | .parserRule => ofNamed .parserRule none n
    | .tokenRule fragment =>
      ofNamed (if fragment then .fragmentRule else .tokenRule) (mode?.getD defaultMode) n
    | .modeSection =>
      match n.name? with
      | some mode => ofNamed .mode none n ++ ofParts (some mode) children
      | none => []
    | .tokenList => children.filterMap (ofName .declaredToken none)
    | .channelList => children.filterMap (ofName .declaredChannel none)
    | .delegates => children.filterMap ofDelegate
    | .options => children.filterMap ofOption
    | _ => []

def ofParts (mode? : Option String) : List Node → List Declaration
  | [] => []
  | n :: ns => ofPart mode? n ++ ofParts mode? ns

end

/-- What a tree declares, in the order of the text. -/
def ofTree (root : Node) : List Declaration := ofParts none root.children

end Declaration

/-- What a grammar declares. -/
structure SymbolTable where
  grammarName? : Option String
  flavour : Flavour
  /-- The declared symbols in the order of the text, imported grammars included. -/
  symbols : List Symbol
  imports : List Import
  /-- The names that were declared again. -/
  diagnostics : List Diagnostic
deriving Repr, DecidableEq

namespace SymbolTable

def empty : SymbolTable := ⟨none, .combined, [], [], []⟩

/-- What `name` refers to in `ns`, if the table declares it. -/
def find? (table : SymbolTable) (ns : Namespace) (name : String) : Option Symbol :=
  table.symbols.find? (·.denotes ns name)

def defines (table : SymbolTable) (ns : Namespace) (name : String) : Bool :=
  (table.find? ns name).isSome

/-- The first grammar that tokens are borrowed from. -/
def vocabulary? (table : SymbolTable) : Option Import := table.imports.find? (·.tokensOnly)

def push (table : SymbolTable) (s : Symbol) : SymbolTable :=
  { table with symbols := table.symbols ++ [s] }

/-- Enters a declaration behind those of the table. -/
def declare (table : SymbolTable) : Declaration → SymbolTable
  | .symbol kind name location mode? =>
    match kind.namespace? with
    | some ns =>
      if table.defines ns name then
        { table with diagnostics := table.diagnostics ++ [⟨.duplicate ns name, location⟩] }
      else table.push ⟨name, kind, some location, mode?, .own⟩
    | none => table.push ⟨name, kind, some location, mode?, .own⟩
  | .grammar i =>
    let kind := if i.tokensOnly then Symbol.Kind.tokenVocabulary else .importedGrammar
    let table := table.push ⟨i.grammar, kind, some i.location, none, .own⟩
    { table with imports := table.imports ++ [i] }

def ofTree (root : Node) : SymbolTable :=
  (Declaration.ofTree root).foldl declare
    { empty with grammarName? := root.grammarName?, flavour := root.flavour }

end SymbolTable

end GrammarAtlas
