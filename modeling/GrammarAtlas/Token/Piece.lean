import GrammarAtlas.Text.Alphabetic
import GrammarAtlas.Text.Blank
import GrammarAtlas.Text.Bytes
import GrammarAtlas.Text.Numeric
import GrammarAtlas.Text.Uppercase
import GrammarAtlas.Token

/-! # Cutting a text into pieces

`Piece.cut` cuts a text, from its first character to its last, into blanks, comments, lexemes of
tokens, and runs of characters that begin no token. Nothing is left out: the pieces put together
are the text.

What a piece is follows from its first characters, but for the braces. A brace opens a declaration
block only after one of the words that introduce such a block, and a closing brace is a token only
while such a block is open; `Piece.Context` carries that from piece to piece. -/

namespace GrammarAtlas

namespace Piece

inductive Form where
  | blank
  | comment (closed : Bool)
  | lexeme (kind : Token.Kind) (closed : Bool)
  /-- A run of characters that begin no token. -/
  | stray
deriving Repr, DecidableEq

/-- How many characters belong to what was begun, and whether its end was found. -/
structure Extent where
  length : Nat
  closed : Bool
deriving Repr, DecidableEq

def Extent.shift (n : Nat) (e : Extent) : Extent := ⟨e.length + n, e.closed⟩

/-- The rest of a comment after its opening. -/
def commentBody : List Char → Extent
  | [] => ⟨0, false⟩
  | '*' :: '/' :: _ => ⟨2, true⟩
  | _ :: cs => (commentBody cs).shift 1

/-- The rest of a string after its opening quote. It must close on its line. -/
def quotedBody : List Char → Extent
  | [] => ⟨0, false⟩
  | ['\\'] => ⟨1, false⟩
  | '\\' :: _ :: cs => (quotedBody cs).shift 2
  | '\'' :: _ => ⟨1, true⟩
  | '\n' :: _ => ⟨0, false⟩
  | _ :: cs => (quotedBody cs).shift 1

def bracketBody : List Char → Extent
  | [] => ⟨0, false⟩
  | ['\\'] => ⟨1, false⟩
  | '\\' :: _ :: cs => (bracketBody cs).shift 2
  | ']' :: _ => ⟨1, true⟩
  | _ :: cs => (bracketBody cs).shift 1

/-- The rest of element options after the opening angle. They end, if need be unclosed, with the
element of the rule. -/
def angleBody : List Char → Extent
  | [] => ⟨0, false⟩
  | c :: cs =>
    if c = '>' then ⟨1, true⟩
    else if c = ';' || c = ':' || c = '|' || c = '\n' then ⟨0, false⟩
    else (angleBody cs).shift 1

/-- Where the reading of an action stands: braces count in code only. -/
inductive ActionPart where
  | code
  | quoted (quote : Char)
  | lineComment
  | comment
deriving Repr, DecidableEq

/-- The rest of an action within which `depth + 1` braces are open. -/
def actionBody : Nat → ActionPart → List Char → Extent
  | _, _, [] => ⟨0, false⟩
  | 0, .code, '}' :: _ => ⟨1, true⟩
  | depth + 1, .code, '}' :: cs => (actionBody depth .code cs).shift 1
  | depth, .code, '{' :: cs => (actionBody (depth + 1) .code cs).shift 1
  | depth, .code, '"' :: cs => (actionBody depth (.quoted '"') cs).shift 1
  | depth, .code, '\'' :: cs => (actionBody depth (.quoted '\'') cs).shift 1
  | depth, .code, '/' :: '/' :: cs => (actionBody depth .lineComment cs).shift 2
  | depth, .code, '/' :: '*' :: cs => (actionBody depth .comment cs).shift 2
  | _, .code, ['\\'] => ⟨1, false⟩
  | depth, .code, '\\' :: _ :: cs => (actionBody depth .code cs).shift 2
  | depth, .code, _ :: cs => (actionBody depth .code cs).shift 1
  | _, .quoted _, ['\\'] => ⟨1, false⟩
  | depth, .quoted quote, '\\' :: _ :: cs => (actionBody depth (.quoted quote) cs).shift 2
  | depth, .quoted quote, c :: cs =>
    if c = quote || c = '\n' then (actionBody depth .code cs).shift 1
    else (actionBody depth (.quoted quote) cs).shift 1
  | depth, .lineComment, c :: cs =>
    if c = '\n' then (actionBody depth .code cs).shift 1
    else (actionBody depth .lineComment cs).shift 1
  | depth, .comment, '*' :: '/' :: cs => (actionBody depth .code cs).shift 2
  | depth, .comment, _ :: cs => (actionBody depth .comment cs).shift 1

def continuesName (c : Char) : Bool := isAlphabetic c || isNumeric c || c == '_'

/-- Characters that neither separate nor begin a token. -/
def isStray (c : Char) : Bool :=
  !(isBlank c || continuesName c || "'[]\x7b\x7d<>:;,()|=+?*~.-#@/".toList.contains c)

/-- What the pieces read so far say about braces. -/
structure Context where
  /-- The last token is a word that introduces a declaration block. -/
  introduced : Bool := false
  inBlock : Bool := false
deriving Repr, DecidableEq

def blockWords : List String := ["options", "tokens", "channels"]

/-- The context behind a piece of the given form and text. -/
def Context.after (context : Context) (text : List Char) : Form → Context
  | .blank | .comment _ => context
  | .lexeme .upperName _ | .lexeme .lowerName _ =>
    { context with introduced := blockWords.contains (String.ofList text) }
  | .lexeme .openBrace _ => ⟨false, true⟩
  | .lexeme .closeBrace _ => ⟨false, false⟩
  | .lexeme _ _ | .stray => { context with introduced := false }

/-- A lexeme whose extent behind its first character is `e`. -/
def delimited (kind : Token.Kind) (e : Extent) : Form × Nat := (.lexeme kind e.closed, e.length)

def sign (kind : Token.Kind) : Form × Nat := (.lexeme kind true, 0)

def doubleSign (kind : Token.Kind) : Form × Nat := (.lexeme kind true, 1)

/-- A run of characters that begin no token, the first of which has been seen. -/
def strayRun (cs : List Char) : Form × Nat := (.stray, (cs.takeWhile isStray).length)

/-- The lexeme or stray run that begins with the sign `c` and goes on in `cs`. -/
def signed (context : Context) (c : Char) (cs : List Char) : Form × Nat :=
  match c with
  | '\'' => delimited .quoted (quotedBody cs)
  | '[' => delimited .bracket (bracketBody cs)
  | '{' =>
    if context.introduced then sign .openBrace
    else delimited .action (actionBody 0 .code cs)
  | '}' => if context.inBlock then sign .closeBrace else strayRun cs
  | '<' => delimited .angle (angleBody cs)
  | ':' => if cs.head? = some ':' then doubleSign .doubleColon else sign .colon
  | ';' => sign .semicolon
  | ',' => sign .comma
  | '(' => sign .openParen
  | ')' => sign .closeParen
  | '|' => sign .bar
  | '=' => sign .equals
  | '+' => if cs.head? = some '=' then doubleSign .plusEquals else sign .plus
  | '?' => sign .question
  | '*' => sign .star
  | '~' => sign .tilde
  | '.' => if cs.head? = some '.' then doubleSign .dotDot else sign .dot
  | '-' => if cs.head? = some '>' then doubleSign .arrow else strayRun cs
  | '#' => sign .hash
  | '@' => sign .atSign
  | _ => strayRun cs

/-- The form of the piece that begins with `c` and goes on in `cs`, and how many characters of `cs`
belong to it. -/
def read (context : Context) (c : Char) (cs : List Char) : Form × Nat :=
  if isBlank c then (.blank, (cs.takeWhile isBlank).length)
  else if c = '/' && cs.head? = some '/' then
    (.comment true, (cs.takeWhile (· != '\n')).length)
  else if c = '/' && cs.head? = some '*' then
    let e := (commentBody cs.tail).shift 1
    (.comment e.closed, e.length)
  else if isAlphabetic c || c = '_' then
    (.lexeme (if isUppercase c then .upperName else .lowerName) true,
      (cs.takeWhile continuesName).length)
  else if c.isDigit then (.lexeme .integer true, (cs.takeWhile Char.isDigit).length)
  else signed context c cs

end Piece

/-- A stretch of a text that begins at byte `start`. -/
structure Piece where
  form : Piece.Form
  start : Nat
  text : List Char
deriving Repr, DecidableEq

namespace Piece

def stop (p : Piece) : Nat := p.start + byteLength p.text

/-- Cuts `cs`, which begins at byte `start`, into at most `turns` pieces. -/
def cutFrom : Nat → Context → Nat → List Char → List Piece
  | 0, _, _, _ => []
  | _, _, _, [] => []
  | turns + 1, context, start, c :: cs =>
    let (form, more) := read context c cs
    let text := c :: cs.take more
    ⟨form, start, text⟩ ::
      cutFrom turns (context.after text form) (start + byteLength text) (cs.drop more)

/-- The pieces of a text. Each takes a character at least, so there are no more than characters. -/
def cut (cs : List Char) : List Piece := cutFrom cs.length {} 0 cs

end Piece

end GrammarAtlas
