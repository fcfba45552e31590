import GrammarAtlas.Token.Stream
import GrammarAtlas.Tree

/-! # Reading tokens

The parser is a state monad over a `Cursor`: the token read last, the tokens ahead, and the faults
found so far. Nothing in it fails. A production that does not find what it expects reports that and
goes on, so each returns a node for what it did find.

Lookahead predicates are functions of the tokens ahead, and recovery skips tokens by recursion on
them. -/

namespace GrammarAtlas

/-! ## Lookahead -/

namespace Lookahead

def kindAt (ahead : List Token) (n : Nat) : Token.Kind :=
  match ahead[n]? with
  | some t => t.kind
  | none => .finish

def isNameAt (ahead : List Token) (n : Nat) : Bool := (kindAt ahead n).isName

def isWordAt (ahead : List Token) (n : Nat) (w : String) : Bool :=
  match ahead[n]? with
  | some t => t.isWord w
  | none => false

/-- The words that may stand before the name of a rule. -/
def modifiers : List String := ["public", "private", "protected", "fragment"]

def isModifier (t : Token) : Bool := modifiers.any t.isWord

/-- `mode NAME` -/
def startsMode (ahead : List Token) : Bool := isWordAt ahead 0 "mode" && isNameAt ahead 1

/-- `NAME :` after any number of modifiers. -/
def startsNamedRule : List Token → Bool
  | t :: u :: rest =>
    if isModifier t && u.isName then startsNamedRule (u :: rest)
    else t.isName && u.kind == .colon
  | _ => false

/-- Whether a rule or a mode surely begins here. That is where a rule without its semicolon ends. -/
def startsRule (ahead : List Token) : Bool :=
  (startsMode ahead && kindAt ahead 2 == .semicolon) || startsNamedRule ahead

def startsAtom (ahead : List Token) : Bool :=
  match kindAt ahead 0 with
  | .upperName | .lowerName | .quoted | .bracket | .dot | .tilde => true
  | _ => false

def startsElement (ahead : List Token) : Bool :=
  startsAtom ahead ||
    match kindAt ahead 0 with
    | .openParen | .action => true
    | _ => false

def endsAlternative (ahead : List Token) : Bool :=
  (match kindAt ahead 0 with
    | .bar | .closeParen | .semicolon | .hash | .arrow | .finish => true
    | _ => false) ||
    startsRule ahead

/-- The word `w` with an opening brace behind it. -/
def startsBlock (ahead : List Token) (w : String) : Bool :=
  isWordAt ahead 0 w && kindAt ahead 1 == .openBrace

end Lookahead

/-! ## The cursor -/

structure Cursor where
  last? : Option Token
  ahead : List Token
  /-- What is seen once no token is left. -/
  finish : Token
  /-- The faults found so far, the newest first. -/
  faults : List Fault
deriving Repr

namespace Cursor

def ofStream (stream : TokenStream) : Cursor := ⟨none, stream.tokens, stream.finish, []⟩

def peek (c : Cursor) : Token := c.ahead.headD c.finish

def lastStop (c : Cursor) : Mark :=
  match c.last? with
  | some t => t.stop
  | none => .origin

/-- The location of a node that began at `start` and ends with the token read last. A node without
tokens is empty. -/
def since (c : Cursor) (start : Mark) : Location :=
  ⟨start, if c.lastStop.offset < start.offset then start else c.lastStop⟩

def report (cause : Fault.Cause) (location : Location) (c : Cursor) : Cursor :=
  { c with faults := ⟨cause, location⟩ :: c.faults }

/-- Reports that `expected` was looked for in vain at the next token. -/
def reportMissing (expected : String) (c : Cursor) : Cursor :=
  let t := c.peek
  let cause :=
    if t.kind = .finish then .unexpectedEnd expected
    else .unexpected ("'" ++ t.text ++ "'") expected
  c.report cause t.location

def skipWhile (p : List Token → Bool) (c : Cursor) : Cursor :=
  go c.last? c.ahead
where
  go (last? : Option Token) : List Token → Cursor
    | [] => { c with last?, ahead := [] }
    | t :: ts => if p (t :: ts) then go (some t) ts else { c with last?, ahead := t :: ts }

/-- Skips past the next semicolon, or up to the next rule that begins on a line of its own; at
least one token, if there is one. -/
def skipRule (c : Cursor) : Cursor :=
  go true c.last? c.ahead
where
  go (first : Bool) (last? : Option Token) : List Token → Cursor
    | [] => { c with last?, ahead := [] }
    | t :: ts =>
      if t.kind = .semicolon then { c with last? := some t, ahead := ts }
      else if !first && t.onFreshLine && Lookahead.startsRule (t :: ts) then
        { c with last?, ahead := t :: ts }
      else go false (some t) ts

/-- Skips past the parenthesis that closes the last of `depth + 1` open ones. -/
def skipParens (c : Cursor) : Cursor :=
  go 0 c.last? c.ahead
where
  go (depth : Nat) (last? : Option Token) : List Token → Cursor
    | [] => { c with last?, ahead := [] }
    | t :: ts =>
      match t.kind, depth with
      | .openParen, depth => go (depth + 1) (some t) ts
      | .closeParen, 0 => { c with last? := some t, ahead := ts }
      | .closeParen, depth + 1 => go depth (some t) ts
      | _, depth => go depth (some t) ts

end Cursor

/-! ## Primitive steps -/

abbrev ParseM := StateM Cursor

namespace ParseM

open Lookahead

def peek : ParseM Token := return (← get).peek

def sees (p : List Token → Bool) : ParseM Bool := return p (← get).ahead

def seesKind (kind : Token.Kind) : ParseM Bool := sees fun ahead => kindAt ahead 0 == kind

def seesName : ParseM Bool := sees fun ahead => isNameAt ahead 0

/-- Reads the next token; at the end of the text it stays there. -/
def advance : ParseM Token :=
  modifyGet fun c =>
    match c.ahead with
    | [] => (c.finish, c)
    | t :: ts => (t, { c with last? := some t, ahead := ts })

/-- Reads the next token if it is of the given kind. -/
def accept (kind : Token.Kind) : ParseM (Option Token) := do
  if ← seesKind kind then return some (← advance) else return none

def reportMissing (expected : String) : ParseM Unit := modify (·.reportMissing expected)

def reportAt (cause : Fault.Cause) (t : Token) : ParseM Unit := modify (·.report cause t.location)

/-- Reads the next token if it is of the given kind, and reports it missing otherwise. -/
def expect (kind : Token.Kind) : ParseM (Option Token) := do
  let found ← accept kind
  if found.isNone then reportMissing kind.noun
  return found

/-- A node that began at `start` and ends with the token read last. -/
def close (kind : Node.Kind) (start : Mark) (children : List Node) : ParseM Node :=
  return ⟨kind, (← get).since start, children⟩

def identifier (t : Token) : Node := .leaf (.identifier t.text) t.location

def literal (t : Token) : Node := .leaf (.literal t.text) t.location

/-- Takes at most `turns` turns. A turn may yield a node, and says whether another one follows. -/
def collect (turn : ParseM (Option Node × Bool)) : Nat → ParseM (List Node)
  | 0 => return []
  | turns + 1 => do
    let (node?, more) ← turn
    let rest ← if more then collect turn turns else pure []
    return node?.toList ++ rest

/-- Takes turns until one says it is the last. Each but the last reads a token, so their number is
bounded by the tokens ahead. -/
def gather (turn : ParseM (Option Node × Bool)) : ParseM (List Node) := do
  collect turn ((← get).ahead.length + 1)

/-- Yields the node of `p` as long as the tokens ahead satisfy `condition`. -/
def gatherWhile (condition : List Token → Bool) (p : ParseM Node) : ParseM (List Node) :=
  gather do
    if ← sees condition then return (some (← p), true) else return (none, false)

/-- Ends a rule at its semicolon, or where the next rule begins. -/
def finishRule : ParseM Unit := do
  if (← accept .semicolon).isNone then
    reportMissing "';'"
    unless ← sees startsRule do modify Cursor.skipRule

/-- Takes a run of tokens that have no place in an alternative into one node. -/
def skipGarbage : ParseM Node := do
  let start := (← peek).start
  reportMissing "grammar element"
  let _ ← advance
  modify (·.skipWhile fun ahead => !startsElement ahead && !endsAlternative ahead)
  close .error start []

end ParseM

end GrammarAtlas
