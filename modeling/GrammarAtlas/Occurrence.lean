import GrammarAtlas.Symbol.Table

/-! # Occurrences

An identifier of a tree either declares a name or refers to one; which, and in which namespace,
follows from the node above it. -/

namespace GrammarAtlas

namespace Occurrence

inductive Role where
  | definition
  | reference
deriving Repr, DecidableEq

/-- Whether `n` is the node of the name that `parent` declares. -/
def isNameOf (n parent : Node) : Bool :=
  parent.nameNode?.map Node.location == some n.location

/-- What the identifier `n` called `name` does below `parent`. Names in headers and options, and the
arguments of most commands, do neither. -/
def role? (parent n : Node) (name : String) : Option (Role × Namespace) :=
  match parent.kind with
  | .parserRule => if isNameOf n parent then some (.definition, .rule) else none
  | .tokenRule _ => if isNameOf n parent then some (.definition, .token) else none
  | .modeSection => if isNameOf n parent then some (.definition, .mode) else none
  | .tokenList => some (.definition, .token)
  | .channelList => some (.definition, .channel)
  | .alternative _ | .labeled _ _ | .repeated _ _ | .negated =>
    some (.reference, .ofElement name)
  | .command "pushMode" | .command "mode" => some (.reference, .mode)
  | .command "type" => some (.reference, .token)
  | .command "channel" => some (.reference, .channel)
  | _ => none

end Occurrence

/-- One appearance of a name in a text. -/
structure Occurrence where
  name : String
  location : Location
  role : Occurrence.Role
  ns : Namespace
  /-- Where the name is declared. -/
  origin : Symbol.Origin
deriving Repr, DecidableEq

namespace Occurrence

def isReference (o : Occurrence) : Bool := o.role == .reference

def isUnresolved (o : Occurrence) : Bool := o.origin == .unresolved

/-- Whether the occurrence refers to `name` in `ns`. -/
def refersTo (o : Occurrence) (ns : Namespace) (name : String) : Bool :=
  o.isReference && o.ns == ns && o.name == name

end Occurrence

end GrammarAtlas
