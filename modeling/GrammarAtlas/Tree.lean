import GrammarAtlas.Text.Location

/-! # Grammar trees

Names that may denote a symbol are always nodes of kind `identifier`, so one walk finds them all.
Names that never denote one (labels, keys of options, names of commands) belong to the kind of
their node. -/

namespace GrammarAtlas

/-- What the header of a grammar declares it to be. -/
inductive Flavour where
  /-- Token rules and parser rules in one text. -/
  | combined
  | lexer
  | parser
deriving Repr, DecidableEq, Inhabited

def Flavour.text : Flavour → String
  | combined => "grammar"
  | lexer => "lexer grammar"
  | parser => "parser grammar"

inductive Repetition where
  | optional
  | zeroOrMore
  | oneOrMore
deriving Repr, DecidableEq

namespace Node

inductive Kind where
  | grammar
  /-- The header; the child is the name. -/
  | header (flavour : Flavour)
  /-- A block of options; the children are of kind `option`. -/
  | options
  | option (key : String)
  /-- An import clause; the children are of kind `delegate`. -/
  | delegates
  | delegate (name : String) (alias? : Option String)
  /-- A list of declared tokens; the children are names. -/
  | tokenList
  /-- A list of declared channels; the children are names. -/
  | channelList
  | namedAction (name : String)
  /-- The children are the name of the mode and then its rules. -/
  | modeSection
  /-- The children are the name, what stands before the colon, `alternatives`, and handlers. -/
  | parserRule
  /-- The children are the name, perhaps options, and `alternatives`. -/
  | tokenRule (fragment : Bool)
  /-- The body of a rule; the children are of kind `alternative`. -/
  | alternatives
  /-- Alternatives in parentheses; the children are of kind `alternative`. -/
  | block
  | alternative (label? : Option String)
  /-- A labeled element; an additive label collects into a list. -/
  | labeled (label : String) (additive : Bool)
  | repeated (repetition : Repetition) (greedy : Bool)
  /-- All but what the child allows. -/
  | negated
  | range
  | identifier (name : String)
  | literal (text : String)
  | charSet (text : String)
  | wildcard
  | action
  | predicate
  | elementOptions
  /-- The commands of a token rule; the children are of kind `command`. -/
  | commands
  /-- The child, if any, is the argument. -/
  | command (name : String)
  | handler
  | error
deriving Repr, DecidableEq, Inhabited

end Node

structure Node where
  kind : Node.Kind
  location : Location
  children : List Node
deriving Repr, Inhabited

namespace Node

def leaf (kind : Kind) (location : Location) : Node := ⟨kind, location, []⟩

def identifier? (n : Node) : Option String :=
  match n.kind with
  | .identifier name => some name
  | _ => none

def isIdentifier (n : Node) : Bool := n.identifier?.isSome

/-- The first identifier among the children: the name that a header, rule or mode declares. -/
def nameNode? (n : Node) : Option Node := n.children.find? isIdentifier

def name? (n : Node) : Option String := n.nameNode?.bind identifier?

def isHeader (n : Node) : Bool :=
  match n.kind with
  | .header _ => true
  | _ => false

def header? (n : Node) : Option Node := n.children.find? isHeader

def grammarName? (n : Node) : Option String := n.header?.bind name?

/-- The declared flavour of a root; a grammar without a header is a combined one. -/
def flavour (n : Node) : Flavour :=
  match n.header?.map kind with
  | some (.header flavour) => flavour
  | _ => .combined

mutual

/-- The nodes of a tree in pre-order, each with its parent and its depth. -/
def visits (parent? : Option Node) (depth : Nat) : Node → List (Option Node × Nat × Node)
  | ⟨kind, location, children⟩ =>
    (parent?, depth, ⟨kind, location, children⟩) ::
      visitsAll (some ⟨kind, location, children⟩) (depth + 1) children

def visitsAll (parent? : Option Node) (depth : Nat) :
    List Node → List (Option Node × Nat × Node)
  | [] => []
  | n :: ns => visits parent? depth n ++ visitsAll parent? depth ns

end

/-- The nodes of a tree in pre-order, the root first at depth 0. -/
def walk (root : Node) : List (Option Node × Nat × Node) := root.visits none 0

def count (root : Node) : Nat := root.walk.length

/-- The identifiers of a tree in pre-order, each with its parent. -/
def identifiers (root : Node) : List (Node × Node) :=
  root.walk.filterMap fun
    | (some parent, _, n) => if n.isIdentifier then some (parent, n) else none
    | (none, _, _) => none

end Node

end GrammarAtlas
