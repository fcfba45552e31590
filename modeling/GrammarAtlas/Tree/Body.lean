import GrammarAtlas.Tree.Prequel

/-! # Bodies of rules

Blocks nest, and so do negations. `Nested` holds the two productions that lead further in, and
`Nested.within` builds them for a given number of levels that are still allowed, by recursion on
that number. -/

namespace GrammarAtlas

/-- How many levels of blocks and negations a body may have. -/
def nestingLimit : Nat := 128

namespace ParseM

open Lookahead

/-- A command of a token rule, whose name has been seen. -/
def command (name : Token) : ParseM Node := do
  let _ ← advance
  let mut arguments := []
  if (← accept .openParen).isSome then
    let argument ← peek
    if argument.isName then
      let _ ← advance
      arguments := [identifier argument]
    else if argument.kind = .integer then
      let _ ← advance
      arguments := [literal argument]
    else
      reportMissing "lexer command argument"
    let _ ← expect .closeParen
  close (.command name.text) name.start arguments

/-- `-> NAME, NAME(ARGUMENT)` -/
def commands : ParseM Node := do
  let start := (← advance).start
  let children ← gather do
    let name ← peek
    if name.isName then
      let node ← command name
      return (some node, (← accept .comma).isSome)
    else
      reportMissing "lexer command"
      return (none, false)
  close .commands start children

/-- The element begun at `start`, with the sign of repetition ahead, if there is one. -/
def repeated (start : Mark) (element : Node) : ParseM Node := do
  let repetition? :=
    match (← peek).kind with
    | .question => some Repetition.optional
    | .star => some .zeroOrMore
    | .plus => some .oneOrMore
    | _ => none
  match repetition? with
  | none => return element
  | some repetition =>
    let _ ← advance
    let greedy := (← accept .question).isNone
    close (.repeated repetition greedy) start [element]

/-- The productions that lead one level further in. -/
structure Nested where
  block : ParseM Node
  atom : ParseM Node

def labelTarget (nested : Nested) : ParseM Node := do
  if ← seesKind .openParen then nested.block
  else if ← sees startsAtom then nested.atom
  else
    reportMissing "labeled element"
    close .error (← peek).start []

def element (nested : Nested) : ParseM Node := do
  let t ← peek
  if t.isName && (← sees fun ahead => kindAt ahead 1 == .equals || kindAt ahead 1 == .plusEquals)
  then
    let _ ← advance
    let additive := (← advance).kind == .plusEquals
    let target ← labelTarget nested
    repeated t.start (← close (.labeled t.text additive) t.start [target])
  else if ← seesKind .openParen then
    repeated t.start (← nested.block)
  else if (← accept .action).isSome then
    if (← accept .question).isSome then
      let _ ← accept .angle
      close .predicate t.start []
    else
      close .action t.start []
  else
    repeated t.start (← nested.atom)

def alternative (nested : Nested) : ParseM Node := do
  let start := (← peek).start
  let mut children := []
  if let some options ← accept .angle then
    children := [← close .elementOptions options.start []]
  let elements ← gatherWhile (fun ahead => !endsAlternative ahead) do
    if ← sees startsElement then element nested else skipGarbage
  children := children ++ elements
  let mut label? := none
  if (← accept .hash).isSome then
    if ← seesName then
      label? := some (← advance).text
    else
      reportMissing "alternative label"
  if ← seesKind .arrow then
    children := children ++ [← commands]
  close (.alternative label?) start children

/-- One alternative or more, with bars between them. -/
def alternativeList (nested : Nested) : ParseM (List Node) :=
  gather do
    let node ← alternative nested
    return (some node, (← accept .bar).isSome)

/-- A block whose contents are read with `nested`. Options at its head have no node. -/
def block (nested : Nested) : ParseM Node := do
  let start := (← advance).start
  if ← sees (startsBlock · "options") then
    let _ ← options
    let _ ← expect .colon
  let children ← alternativeList nested
  let _ ← expect .closeParen
  close .block start children

/-- A block past the limit, which is skipped. -/
def deepBlock : ParseM Node := do
  let opening ← advance
  reportAt (.tooDeep nestingLimit) opening
  modify Cursor.skipParens
  close .error opening.start []

/-- What is negated by the sign `sign`. Past the limit there is no production for it, and the
further signs are skipped. -/
def negand (sign : Token) (nested? : Option Nested) : ParseM Node := do
  match nested? with
  | none =>
    reportAt (.tooDeep nestingLimit) sign
    modify (·.skipWhile fun ahead => kindAt ahead 0 == .tilde)
    close .error sign.start []
  | some nested =>
    if ← seesKind .openParen then nested.block
    else if ← sees startsAtom then nested.atom
    else
      reportMissing "set element"
      close .error (← peek).start []

def atom (nested? : Option Nested) : ParseM Node := do
  let t ← peek
  match t.kind with
  | .upperName =>
    let _ ← advance
    let _ ← accept .angle
    return identifier t
  | .lowerName =>
    let _ ← advance
    let _ ← accept .bracket
    let _ ← accept .angle
    return identifier t
  | .quoted =>
    let _ ← advance
    if (← accept .dotDot).isSome then
      let mut children := [literal t]
      if let some last ← accept .quoted then
        children := [literal t, literal last]
      else
        reportMissing "string literal"
      close .range t.start children
    else
      let _ ← accept .angle
      return literal t
  | .bracket =>
    let _ ← advance
    return .leaf (.charSet t.text) t.location
  | .dot =>
    let _ ← advance
    let _ ← accept .angle
    close .wildcard t.start []
  | .tilde =>
    let _ ← advance
    let target ← negand t nested?
    close .negated t.start [target]
  | _ =>
    reportMissing "grammar element"
    close .error t.start []

/-- The productions within which `room` further levels are allowed. A block takes a level, and so
does the negation of anything but a block. -/
def Nested.within : Nat → Nested
  | 0 => ⟨deepBlock, ParseM.atom none⟩
  | room + 1 =>
    let inner := within room
    let block := ParseM.block inner
    ⟨block, ParseM.atom (some ⟨block, inner.atom⟩)⟩

def alternatives : ParseM Node := do
  let start := (← peek).start
  let children ← alternativeList (Nested.within nestingLimit)
  close .alternatives start children

end ParseM

end GrammarAtlas
