import GrammarAtlas.Tree.Cursor

/-! # Header and declarations

What stands in a grammar besides its rules: the header, options, imports, declared tokens and
channels, and named actions. -/

namespace GrammarAtlas.ParseM

open Lookahead

/-- The flavour that the words ahead declare, if they begin a header. -/
def headerFlavour? (ahead : List Token) : Option Flavour :=
  if isWordAt ahead 0 "lexer" && isWordAt ahead 1 "grammar" then some .lexer
  else if isWordAt ahead 0 "parser" && isWordAt ahead 1 "grammar" then some .parser
  else if isWordAt ahead 0 "grammar" then some .combined
  else none

/-- The header of the given flavour, whose words are ahead. -/
def header (flavour : Flavour) : ParseM Node := do
  let start := (← peek).start
  if flavour ≠ .combined then let _ ← advance
  let _ ← advance
  let mut children := []
  if ← seesName then
    children := [identifier (← advance)]
  else
    reportMissing "grammar name"
  let _ ← expect .semicolon
  close (.header flavour) start children

/-- The further parts of a dotted name, as they stand in the text. -/
def dottedParts : Nat → ParseM String
  | 0 => return ""
  | turns + 1 => do
    if ← sees fun ahead => kindAt ahead 0 == .dot && isNameAt ahead 1 then
      let dot ← advance
      let part ← advance
      return dot.lead ++ dot.text ++ part.lead ++ part.text ++ (← dottedParts turns)
    else
      return ""

def optionValue : ParseM (Option Node) := do
  let t ← peek
  match t.kind with
  | .upperName | .lowerName =>
    let _ ← advance
    let parts ← dottedParts (← get).ahead.length
    return some (← close (.identifier (t.text ++ parts)) t.start [])
  | .quoted | .integer =>
    let _ ← advance
    return some (literal t)
  | .action =>
    let _ ← advance
    return some (← close .action t.start [])
  | _ =>
    reportMissing "option value"
    return none

/-- `key = value ;` -/
def optionEntry : ParseM (Option Node) := do
  let key ← peek
  if !key.isName then
    reportMissing "option name"
    return none
  let _ ← advance
  if (← expect .equals).isNone then return none
  let some value ← optionValue | return none
  let _ ← expect .semicolon
  return some (← close (.option key.text) key.start [value])

/-- A block of options. An entry that cannot be read is skipped up to its semicolon. -/
def options : ParseM Node := do
  let start := (← advance).start
  let _ ← advance
  let children ← gather do
    if ← sees fun ahead => kindAt ahead 0 == .closeBrace || kindAt ahead 0 == .finish then
      return (none, false)
    let option? ← optionEntry
    if option?.isNone then
      modify (·.skipWhile fun ahead =>
        kindAt ahead 0 != .semicolon && kindAt ahead 0 != .closeBrace)
      let _ ← accept .semicolon
    return (option?, true)
  let _ ← expect .closeBrace
  close .options start children

/-- `NAME` or `ALIAS = NAME` -/
def delegate (first : Token) : ParseM Node := do
  let _ ← advance
  let plain := Node.Kind.delegate first.text none
  if (← accept .equals).isSome then
    let second ← peek
    if second.isName then
      let _ ← advance
      close (.delegate second.text (some first.text)) first.start []
    else
      reportMissing "grammar name"
      close plain first.start []
  else
    close plain first.start []

def delegates : ParseM Node := do
  let start := (← advance).start
  let children ← gather do
    let first ← peek
    if first.isName then
      let node ← delegate first
      return (some node, (← accept .comma).isSome)
    else
      reportMissing "grammar name"
      return (none, false)
  let _ ← expect .semicolon
  close .delegates start children

/-- A block of names, for declared tokens and channels. -/
def nameList (kind : Node.Kind) : ParseM Node := do
  let start := (← advance).start
  let _ ← advance
  let children ← gather do
    if ← seesName then
      let node := identifier (← advance)
      return (some node, (← accept .comma).isSome)
    else
      return (none, false)
  let _ ← expect .closeBrace
  close kind start children

/-- The text of the name ahead; without one nothing is read, and the name is empty. -/
def actionName : ParseM (Option String) := do
  if ← seesName then
    return some (← advance).text
  else
    reportMissing "action name"
    return none

/-- `@ NAME {...}` or `@ SCOPE :: NAME {...}` -/
def namedAction : ParseM Node := do
  let start := (← advance).start
  let mut name := (← actionName).getD ""
  if (← accept .doubleColon).isSome then
    if let some part ← actionName then
      name := name ++ "::" ++ part
  let _ ← expect .action
  close (.namedAction name) start []

/-- The declaration ahead, if one begins here. -/
def prequel : ParseM (Option Node) := do
  if ← sees (startsBlock · "options") then
    return some (← options)
  else if ← sees (startsBlock · "tokens") then
    return some (← nameList .tokenList)
  else if ← sees (startsBlock · "channels") then
    return some (← nameList .channelList)
  else if ← sees fun ahead => isWordAt ahead 0 "import" && isNameAt ahead 1 then
    return some (← delegates)
  else if ← seesKind .atSign then
    return some (← namedAction)
  else
    return none

end GrammarAtlas.ParseM
