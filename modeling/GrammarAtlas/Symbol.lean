import GrammarAtlas.Text.Location
import GrammarAtlas.Text.Uppercase

/-! # Symbols

A symbol is a declared name: of a rule, a token, a mode or a channel, or of an imported grammar. The
first four kinds live in namespaces of their own, so a mode and a token of one name are two
symbols. -/

namespace GrammarAtlas

inductive Namespace where
  | rule
  | token
  | mode
  | channel
deriving Repr, DecidableEq

namespace Namespace

def text : Namespace → String
  | rule => "rule"
  | token => "token"
  | mode => "mode"
  | channel => "channel"

/-- The namespace of a name in the body of a rule: a capital makes it a token. -/
def ofElement (name : String) : Namespace :=
  match name.toList with
  | c :: _ => if isUppercase c then token else rule
  | [] => rule

end Namespace

/-- The mode of token rules that stand in no other mode. -/
def defaultMode : String := "DEFAULT_MODE"

namespace Symbol

inductive Kind where
  | parserRule
  | tokenRule
  | fragmentRule
  | mode
  | declaredToken
  | declaredChannel
  | builtInToken
  | builtInMode
  | builtInChannel
  /-- A grammar named in an import clause. -/
  | importedGrammar
  /-- The grammar whose tokens the options borrow. -/
  | tokenVocabulary
deriving Repr, DecidableEq

namespace Kind

/-- The namespace of symbols of the kind. Imported grammars cannot be referred to. -/
def namespace? : Kind → Option Namespace
  | parserRule => some .rule
  | tokenRule | fragmentRule | declaredToken | builtInToken => some .token
  | mode | builtInMode => some .mode
  | declaredChannel | builtInChannel => some .channel
  | importedGrammar | tokenVocabulary => none

/-- Whether an editor shows next to the symbol how often it is referred to. -/
def hasLens : Kind → Bool
  | parserRule | tokenRule | fragmentRule | mode => true
  | declaredToken | declaredChannel | builtInToken | builtInMode | builtInChannel
  | importedGrammar | tokenVocabulary => false

/-- The kind given to a name that is referred to and declared nowhere. -/
def ofUndeclared : Namespace → Kind
  | .rule => parserRule
  | .token => tokenRule
  | .mode => mode
  | .channel => declaredChannel

def label : Kind → String
  | parserRule => "ParserRule"
  | tokenRule => "LexerToken"
  | fragmentRule => "FragmentLexerToken"
  | mode => "LexerMode"
  | declaredToken => "VirtualLexerToken"
  | declaredChannel => "TokenChannel"
  | builtInToken => "BuiltInLexerToken"
  | builtInMode => "BuiltInMode"
  | builtInChannel => "BuiltInChannel"
  | importedGrammar => "Import"
  | tokenVocabulary => "TokenVocab"

end Kind

/-- Where a symbol, or what a reference refers to, is declared. -/
inductive Origin where
  | own
  | builtIn
  | imported (grammar : String)
  | unresolved
deriving Repr, DecidableEq

end Symbol

structure Symbol where
  name : String
  kind : Symbol.Kind
  /-- The place of the declared name; a name that is only referred to has none. -/
  definition? : Option Location
  /-- The mode in which a token rule stands. -/
  mode? : Option String
  origin : Symbol.Origin
deriving Repr, DecidableEq

namespace Symbol

def isDefined (s : Symbol) : Bool := s.definition?.isSome

/-- Whether the symbol is what `name` refers to in `ns`. -/
def denotes (s : Symbol) (ns : Namespace) (name : String) : Bool :=
  s.kind.namespace? == some ns && s.name == name

/-- The symbols that need no declaration. -/
def builtIns : List (Namespace × String × Kind) :=
  [(.token, "EOF", .builtInToken),
   (.mode, defaultMode, .builtInMode),
   (.channel, "DEFAULT_TOKEN_CHANNEL", .builtInChannel),
   (.channel, "HIDDEN", .builtInChannel)]

def builtIn? (ns : Namespace) (name : String) : Option Kind :=
  (builtIns.find? fun (ns', name', _) => ns' == ns && name' == name).map fun (_, _, kind) => kind

end Symbol

end GrammarAtlas
