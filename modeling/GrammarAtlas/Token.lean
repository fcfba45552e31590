import GrammarAtlas.Text.Location

/-! # Tokens

Words such as `mode` or `options` have no kind of their own: they are names, and the place in which
they stand decides what they mean. -/

namespace GrammarAtlas

namespace Token

inductive Kind where
  /-- A name that begins with a capital. -/
  | upperName
  | lowerName
  | integer
  | quoted
  /-- `[...]`: a set of characters, or the arguments of a rule. -/
  | bracket
  /-- `{...}`: embedded code. -/
  | action
  /-- `<...>`: options of an element. -/
  | angle
  /-- The brace that opens a block of options, tokens or channels. -/
  | openBrace
  | closeBrace
  | colon
  | doubleColon
  | semicolon
  | comma
  | openParen
  | closeParen
  | bar
  | equals
  | plusEquals
  | question
  | star
  | plus
  | tilde
  | dot
  | dotDot
  | arrow
  | hash
  | atSign
  | finish
deriving Repr, DecidableEq, Inhabited

namespace Kind

def isName : Kind → Bool
  | upperName | lowerName => true
  | _ => false

/-- How a fault that expects the kind calls it. -/
def noun : Kind → String
  | upperName | lowerName => "identifier"
  | integer => "integer"
  | quoted => "string literal"
  | bracket => "'[...]'"
  | action => "action block"
  | angle => "element options"
  | openBrace => "'\x7b'"
  | closeBrace => "'\x7d'"
  | colon => "':'"
  | doubleColon => "'::'"
  | semicolon => "';'"
  | comma => "','"
  | openParen => "'('"
  | closeParen => "')'"
  | bar => "'|'"
  | equals => "'='"
  | plusEquals => "'+='"
  | question => "'?'"
  | star => "'*'"
  | plus => "'+'"
  | tilde => "'~'"
  | dot => "'.'"
  | dotDot => "'..'"
  | arrow => "'->'"
  | hash => "'#'"
  | atSign => "'@'"
  | finish => "end of input"

end Kind

end Token

/-- A token with its place in the text. `lead` is all that stands between the token before it and
the token itself: blanks, comments, and characters that begin no token. -/
structure Token where
  kind : Token.Kind
  start : Mark
  stop : Mark
  lead : String
  text : String
deriving Repr, DecidableEq, Inhabited

namespace Token

def location (t : Token) : Location := ⟨t.start, t.stop⟩

def isName (t : Token) : Bool := t.kind.isName

theorem isName_iff {t : Token} : t.isName ↔ t.kind = .upperName ∨ t.kind = .lowerName := by
  rw [isName]
  cases t.kind <;> simp [Kind.isName]

/-- Whether the token is the word `w`. Words that mean something are written small. -/
def isWord (t : Token) (w : String) : Bool := t.kind == .lowerName && t.text == w

theorem isWord_iff {t : Token} {w : String} : t.isWord w ↔ t.kind = .lowerName ∧ t.text = w := by
  rw [isWord, Bool.and_eq_true, beq_iff_eq, beq_iff_eq]

/-- Whether a new line starts somewhere between the token before it and the token. -/
def onFreshLine (t : Token) : Bool := t.lead.toList.contains '\n'

end Token

end GrammarAtlas
