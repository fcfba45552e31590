import GrammarAtlas.Tree.Body

/-! # Rules, modes and whole grammars

`Grammar.parse` reads a text into a tree and its faults. -/

namespace GrammarAtlas

namespace ParseM

open Lookahead

def tokenRule (flavour : Flavour) (start : Mark) (fragment : Bool) (name : Token) :
    ParseM Node := do
  let _ ← advance
  if flavour = .parser then reportAt (.tokenRuleInParserGrammar name.text) name
  let mut children := [identifier name]
  if ← sees (startsBlock · "options") then
    children := children ++ [← options]
  if (← expect .colon).isNone then
    modify Cursor.skipRule
  else
    children := children ++ [← alternatives]
    finishRule
  close (.tokenRule fragment) start children

/-- The word `w` with an argument in brackets. -/
def clause (w : String) : ParseM (List Node) := do
  if ← sees fun ahead => isWordAt ahead 0 w && kindAt ahead 1 == .bracket then
    let _ ← advance
    let argument ← advance
    return [← close .action argument.start []]
  else
    return []

/-- `throws NAME, NAME`, which has no node. -/
def throwsClause : ParseM Unit := do
  if ← sees (isWordAt · 0 "throws") then
    let _ ← advance
    let _ ← gather do
      if ← sees fun ahead => isNameAt ahead 0 && !isWordAt ahead 0 "locals" then
        let _ ← advance
        return (none, (← accept .comma).isSome)
      else
        return (none, false)

/-- What may stand between the name of a parser rule and its colon. -/
def rulePrequel : ParseM (List Node) := do
  let mut children := []
  if let some arguments ← accept .bracket then
    children := [← close .action arguments.start []]
  children := children ++ (← clause "returns")
  throwsClause
  children := children ++ (← clause "locals")
  let declarations ← gather do
    if ← sees (startsBlock · "options") then return (some (← options), true)
    else if ← seesKind .atSign then return (some (← namedAction), true)
    else return (none, false)
  return children ++ declarations

def startsHandler (ahead : List Token) : Bool :=
  (isWordAt ahead 0 "catch" && kindAt ahead 1 == .bracket) ||
    (isWordAt ahead 0 "finally" && kindAt ahead 1 == .action)

/-- `catch [...] {...}` or `finally {...}` -/
def handler : ParseM Node := do
  let word ← advance
  if word.text = "catch" then let _ ← expect .bracket
  let _ ← expect .action
  close .handler word.start []

def parserRule (flavour : Flavour) (start : Mark) (name : Token) : ParseM Node := do
  let _ ← advance
  if flavour = .lexer then reportAt (.parserRuleInLexerGrammar name.text) name
  let mut children := identifier name :: (← rulePrequel)
  if (← expect .colon).isNone then
    modify Cursor.skipRule
  else
    children := children ++ [← alternatives]
    finishRule
    children := children ++ (← gatherWhile startsHandler handler)
  close .parserRule start children

/-- Reads modifiers as long as a name follows, and says whether `fragment` is among them. -/
def ruleModifiers : Nat → ParseM Bool
  | 0 => return false
  | turns + 1 => do
    if ← sees fun ahead => ahead.head?.any isModifier && isNameAt ahead 1 then
      let word ← advance
      let later ← ruleModifiers turns
      return word.isWord "fragment" || later
    else
      return false

/-- The rule ahead. What begins no rule is skipped. -/
def rule (flavour : Flavour) : ParseM Node := do
  let start := (← peek).start
  let fragment ← ruleModifiers (← get).ahead.length
  let name ← peek
  match name.kind with
  | .upperName => tokenRule flavour start fragment name
  | .lowerName => parserRule flavour start name
  | _ =>
    reportMissing "rule name"
    modify Cursor.skipRule
    close .error start []

/-- A mode with the rules up to the next one. -/
def modeSection (flavour : Flavour) : ParseM Node := do
  let start := (← advance).start
  let name ← advance
  if flavour ≠ .lexer then reportAt (.modeOutsideLexerGrammar name.text) name
  let _ ← expect .semicolon
  let rules ← gatherWhile (fun ahead => !ahead.isEmpty && !startsMode ahead) (rule flavour)
  close .modeSection start (identifier name :: rules)

def grammarPart (flavour : Flavour) : ParseM Node := do
  if let some node ← prequel then return node
  else if ← sees startsMode then modeSection flavour
  else rule flavour

/-- The header, and the flavour that it declares. A missing one is reported at the first token. -/
def grammarHeader : ParseM (List Node × Flavour) := do
  match headerFlavour? (← get).ahead with
  | some flavour => return ([← header flavour], flavour)
  | none =>
    reportAt .missingHeader (← peek)
    return ([], .combined)

def grammar : ParseM Node := do
  let (first, flavour) ← grammarHeader
  let parts ← gatherWhile (fun ahead => !ahead.isEmpty) (grammarPart flavour)
  return ⟨.grammar, ⟨.origin, (← get).finish.stop⟩, first ++ parts⟩

end ParseM

/-- A grammar text as it was read. -/
structure Grammar where
  tree : Node
  /-- What is wrong with the text, in the order of the text. -/
  faults : List Fault
deriving Repr

namespace Grammar

/-- Reads a grammar. Faults that start together are ordered by when they were found, those of
single tokens first. -/
def parse (text : String) : Grammar :=
  let (stream, tokenFaults) := TokenStream.ofChars text.toList
  let (tree, cursor) := ParseM.grammar.run (.ofStream stream)
  ⟨tree, Fault.arrange (tokenFaults ++ cursor.faults.reverse)⟩

theorem parse_eq (text : String) : parse text =
    ⟨(ParseM.grammar.run (.ofStream (TokenStream.ofChars text.toList).1)).1,
      Fault.arrange ((TokenStream.ofChars text.toList).2 ++
        (ParseM.grammar.run (.ofStream (TokenStream.ofChars text.toList).1)).2.faults.reverse)⟩ := by
  unfold parse
  split
  rename_i stream faults hstream
  split
  rename_i tree c hrun
  rw [hstream, hrun]

/-- The declared name of a grammar, read off its first tokens. -/
def sniffName? (text : String) : Option String :=
  let tokens := (TokenStream.ofChars text.toList).1.tokens
  let tokens :=
    match tokens with
    | t :: rest => if t.isWord "lexer" || t.isWord "parser" then rest else tokens
    | [] => []
  match tokens with
  | t :: name :: _ => if t.isWord "grammar" && name.isName then some name.text else none
  | _ => none

end Grammar

end GrammarAtlas
