import GrammarAtlas.Tree.Rule
import Mathlib.Data.List.Basic
import Mathlib.Data.Option.Basic

/-! # Grammars before they are written down

An abstract grammar is a header, rules and modes; a rule is a name and a body; a body is one
alternative or more, and an alternative a list of elements. What cannot be written down is no abstract
grammar: names, literals and sets of characters carry the proof that they can, and rules stand only
in grammars of a flavour that admits them.

`lexemes` is how a grammar is written down, but for the gaps between lexemes, and `outline` is its
tree, but for locations; no two grammars have the same (`Source.outline_injective`). `Term.depth`
counts levels as the parser does. -/

namespace GrammarAtlas

/-- The words that mean something to the parser, each in some place. -/
def keywords : List String :=
  Lookahead.modifiers ++ Piece.blockWords ++
    ["lexer", "parser", "grammar", "import", "mode", "returns", "throws", "locals", "catch", "finally"]

namespace Node

/-- A node without a location. -/
def bare (kind : Kind) (children : List Node) : Node := ⟨kind, .nowhere, children⟩

mutual

/-- The tree without its locations. -/
def outline : Node → Node
  | ⟨kind, _, children⟩ => bare kind (outlineAll children)

def outlineAll : List Node → List Node
  | [] => []
  | n :: ns => outline n :: outlineAll ns

end

theorem outlineAll_eq_map (ns : List Node) : outlineAll ns = ns.map outline := by
  induction ns with
  | nil => rfl
  | cons n ns ih => rw [outlineAll, ih, List.map_cons]

@[simp] theorem outline_mk (kind : Kind) (l : Location) (children : List Node) :
    outline ⟨kind, l, children⟩ = bare kind (children.map outline) := by
  rw [outline, outlineAll_eq_map]

@[simp] theorem bare_inj {kind kind' : Kind} {ns ns' : List Node} :
    bare kind ns = bare kind' ns' ↔ kind = kind' ∧ ns = ns' := by
  simp [bare]

end Node

namespace Abstract

def isName (s : String) : Bool :=
  match s.toList with
  | [] => false
  | c :: cs => (isAlphabetic c || c == '_') && cs.all Piece.continuesName

/-- Whether none of the characters `closing` stands in `cs`, unless behind a backslash, and the last
backslash has a character behind it. -/
def staysOpen (closing : List Char) : List Char → Bool
  | [] => true
  | ['\\'] => false
  | '\\' :: _ :: cs => staysOpen closing cs
  | c :: cs => !closing.contains c && staysOpen closing cs

structure Name where
  text : String
  valid : isName text

/-- A name that is no keyword. -/
structure Word extends Name where
  free : text ∉ keywords

structure Literal where
  body : String
  closed : staysOpen ['\'', '\n'] body.toList

structure CharSet where
  body : String
  closed : staysOpen [']'] body.toList

inductive Sign where
  | colon
  | semicolon
  | comma
  | openParen
  | closeParen
  | bar
  | equals
  | plusEquals
  | question
  | star
  | plus
  | tilde
  | dot
  | dotDot
  | arrow
  | hash
deriving Repr, DecidableEq

/-- What an abstract grammar is written with. -/
inductive Lexeme where
  | name (name : Name)
  | literal (literal : Literal)
  | charSet (set : CharSet)
  | sign (sign : Sign)

def Name.kind (n : Name) : Token.Kind :=
  if n.text.toList.head?.any isUppercase then .upperName else .lowerName

def Name.outline (n : Name) : Node := .bare (.identifier n.text) []

def Literal.text (l : Literal) : String := "'" ++ l.body ++ "'"

def Literal.outline (l : Literal) : Node := .bare (.literal l.text) []

def CharSet.text (s : CharSet) : String := "[" ++ s.body ++ "]"

namespace Sign

def kind : Sign → Token.Kind
  | colon => .colon
  | semicolon => .semicolon
  | comma => .comma
  | openParen => .openParen
  | closeParen => .closeParen
  | bar => .bar
  | equals => .equals
  | plusEquals => .plusEquals
  | question => .question
  | star => .star
  | plus => .plus
  | tilde => .tilde
  | dot => .dot
  | dotDot => .dotDot
  | arrow => .arrow
  | hash => .hash

def text : Sign → String
  | colon => ":"
  | semicolon => ";"
  | comma => ","
  | openParen => "("
  | closeParen => ")"
  | bar => "|"
  | equals => "="
  | plusEquals => "+="
  | question => "?"
  | star => "*"
  | plus => "+"
  | tilde => "~"
  | dot => "."
  | dotDot => ".."
  | arrow => "->"
  | hash => "#"

end Sign

namespace Lexeme

def kind : Lexeme → Token.Kind
  | name n => n.kind
  | literal _ => .quoted
  | charSet _ => .bracket
  | sign s => s.kind

def text : Lexeme → String
  | name n => n.text
  | literal l => l.text
  | charSet s => s.text
  | sign s => s.text

/-- Behind a name that begins small, a set of characters would be the arguments of a rule. -/
def Apart (a b : Lexeme) : Prop := ¬ (a.kind = .lowerName ∧ b.kind = .bracket)

instance (a b : Lexeme) : Decidable (a.Apart b) := inferInstanceAs (Decidable (¬ _))

end Lexeme

def Name.grammar : Name := ⟨"grammar", by decide +kernel⟩
def Name.lexer : Name := ⟨"lexer", by decide +kernel⟩
def Name.parser : Name := ⟨"parser", by decide +kernel⟩
def Name.mode : Name := ⟨"mode", by decide +kernel⟩
def Name.fragment : Name := ⟨"fragment", by decide +kernel⟩

/-! ## Bodies of rules -/

structure Suffix where
  repetition : Repetition
  greedy : Bool

structure Label where
  word : Word
  additive : Bool

/-- A command may be named by a keyword. -/
structure Command where
  name : Name
  argument? : Option Word

mutual

inductive Term where
  | name (word : Word)
  | literal (literal : Literal)
  | range (first last : Literal)
  | charSet (set : CharSet)
  | wildcard
  | negated (term : Term)
  | block (first : Alternative) (rest : List Alternative)

structure Element where
  suffix? : Option Suffix
  label? : Option Label
  term : Term

/-- Without commands there is no arrow. -/
structure Alternative where
  elements : List Element
  label? : Option Word
  commands : List Command

end

structure Body where
  first : Alternative
  rest : List Alternative

def Suffix.sign (s : Suffix) : Sign :=
  match s.repetition with
  | .optional => .question
  | .zeroOrMore => .star
  | .oneOrMore => .plus

def Suffix.lexemes : Option Suffix → List Lexeme
  | none => []
  | some s => .sign s.sign :: if s.greedy then [] else [.sign .question]

def Label.lexemes : Option Label → List Lexeme
  | none => []
  | some l => [.name l.word.toName, .sign (if l.additive then .plusEquals else .equals)]

def Command.lexemes (c : Command) : List Lexeme :=
  .name c.name ::
    match c.argument? with
    | none => []
    | some argument => [.sign .openParen, .name argument.toName, .sign .closeParen]

def Command.lexemesAll : List Command → List Lexeme
  | [] => []
  | c :: cs => .sign .arrow :: c.lexemes ++ cs.flatMap (.sign .comma :: ·.lexemes)

def Alternative.labelLexemes : Option Word → List Lexeme
  | none => []
  | some label => [.sign .hash, .name label.toName]

mutual

def Term.lexemes : Term → List Lexeme
  | .name word => [.name word.toName]
  | .literal literal => [.literal literal]
  | .range first last => [.literal first, .sign .dotDot, .literal last]
  | .charSet set => [.charSet set]
  | .wildcard => [.sign .dot]
  | .negated term => .sign .tilde :: term.lexemes
  | .block first rest =>
    .sign .openParen :: (first.lexemes ++ Alternative.lexemesAll rest ++ [.sign .closeParen])

def Element.lexemes : Element → List Lexeme
  | ⟨suffix?, label?, term⟩ =>
    Label.lexemes label? ++ (term.lexemes ++ Suffix.lexemes suffix?)

def Element.lexemesAll : List Element → List Lexeme
  | [] => []
  | e :: es => e.lexemes ++ Element.lexemesAll es

def Alternative.lexemes : Alternative → List Lexeme
  | ⟨elements, label?, commands⟩ =>
    Element.lexemesAll elements ++ Alternative.labelLexemes label? ++ Command.lexemesAll commands

/-- Further alternatives, with a bar before each. -/
def Alternative.lexemesAll : List Alternative → List Lexeme
  | [] => []
  | a :: as => .sign .bar :: a.lexemes ++ Alternative.lexemesAll as

end

def Body.lexemes (b : Body) : List Lexeme := b.first.lexemes ++ Alternative.lexemesAll b.rest

def Label.outline : Option Label → Node → Node
  | none, n => n
  | some l, n => .bare (.labeled l.word.text l.additive) [n]

def Suffix.outline : Option Suffix → Node → Node
  | none, n => n
  | some s, n => .bare (.repeated s.repetition s.greedy) [n]

def Command.outline (c : Command) : Node :=
  .bare (.command c.name.text) (c.argument?.toList.map (·.toName.outline))

def Command.outlineAll : List Command → List Node
  | [] => []
  | c :: cs => [.bare .commands ((c :: cs).map Command.outline)]

mutual

def Term.outline : Term → Node
  | .name word => word.toName.outline
  | .literal literal => literal.outline
  | .range first last => .bare .range [first.outline, last.outline]
  | .charSet set => .bare (.charSet set.text) []
  | .wildcard => .bare .wildcard []
  | .negated term => .bare .negated [term.outline]
  | .block first rest => .bare .block (first.outline :: Alternative.outlineAll rest)

def Element.outline : Element → Node
  | ⟨suffix?, label?, term⟩ =>
    Suffix.outline suffix? (Label.outline label? term.outline)

def Element.outlineAll : List Element → List Node
  | [] => []
  | e :: es => e.outline :: Element.outlineAll es

def Alternative.outline : Alternative → Node
  | ⟨elements, label?, commands⟩ =>
    .bare (.alternative (label?.map (·.text)))
      (Element.outlineAll elements ++ Command.outlineAll commands)

def Alternative.outlineAll : List Alternative → List Node
  | [] => []
  | a :: as => a.outline :: Alternative.outlineAll as

end

def Body.outline (b : Body) : Node :=
  .bare .alternatives (b.first.outline :: Alternative.outlineAll b.rest)

def Term.isBlock : Term → Bool
  | .block _ _ => true
  | _ => false

mutual

/-- A block is a level, and so is the negation of anything but a block. -/
def Term.depth : Term → Nat
  | .name _ | .literal _ | .range _ _ | .charSet _ | .wildcard => 0
  | .negated term => if term.isBlock then term.depth else term.depth + 1
  | .block first rest => max first.depth (Alternative.depthAll rest) + 1

def Element.depth : Element → Nat
  | ⟨_, _, term⟩ => term.depth

def Element.depthAll : List Element → Nat
  | [] => 0
  | e :: es => max e.depth (Element.depthAll es)

def Alternative.depth : Alternative → Nat
  | ⟨elements, _, _⟩ => Element.depthAll elements

def Alternative.depthAll : List Alternative → Nat
  | [] => 0
  | a :: as => max a.depth (Alternative.depthAll as)

end

def Body.depth (b : Body) : Nat := max b.first.depth (Alternative.depthAll b.rest)

namespace Element

theorem lexemesAll_eq_flatMap (es : List Element) : lexemesAll es = es.flatMap lexemes := by
  induction es with
  | nil => rfl
  | cons e es ih => rw [lexemesAll, ih, List.flatMap_cons]

theorem outlineAll_eq_map (es : List Element) : outlineAll es = es.map outline := by
  induction es with
  | nil => rfl
  | cons e es ih => rw [outlineAll, ih, List.map_cons]

theorem depth_le_of_mem {e : Element} {es : List Element} (h : e ∈ es) : e.depth ≤ depthAll es := by
  induction es with
  | nil => cases h
  | cons d es ih =>
    rw [depthAll]
    rcases List.mem_cons.1 h with rfl | h
    · exact Nat.le_max_left _ _
    · exact Nat.le_trans (ih h) (Nat.le_max_right _ _)

end Element

namespace Alternative

theorem lexemesAll_eq_flatMap (as : List Alternative) :
    lexemesAll as = as.flatMap (.sign .bar :: ·.lexemes) := by
  induction as with
  | nil => rfl
  | cons a as ih => rw [lexemesAll, ih, List.flatMap_cons]

theorem outlineAll_eq_map (as : List Alternative) : outlineAll as = as.map outline := by
  induction as with
  | nil => rfl
  | cons a as ih => rw [outlineAll, ih, List.map_cons]

theorem depth_le_of_mem {a : Alternative} {as : List Alternative} (h : a ∈ as) :
    a.depth ≤ depthAll as := by
  induction as with
  | nil => cases h
  | cons b as ih =>
    rw [depthAll]
    rcases List.mem_cons.1 h with rfl | h
    · exact Nat.le_max_left _ _
    · exact Nat.le_trans (ih h) (Nat.le_max_right _ _)

end Alternative

/-! ## Rules and whole grammars -/

structure ParserRule where
  name : Word
  small : name.kind = .lowerName
  body : Body

structure TokenRule where
  fragment : Bool
  name : Word
  capital : name.kind = .upperName
  body : Body

inductive Rule where
  | parser (rule : ParserRule)
  | token (rule : TokenRule)

structure Mode where
  name : Word
  rules : List TokenRule

def Rule.admittedIn (flavour : Flavour) : Rule → Bool
  | .parser _ => flavour != .lexer
  | .token _ => flavour != .parser

structure Source where
  flavour : Flavour
  name : Word
  rules : List Rule
  modes : List Mode
  admitted : ∀ r ∈ rules, r.admittedIn flavour
  modal : modes ≠ [] → flavour = .lexer

def ParserRule.lexemes (r : ParserRule) : List Lexeme :=
  .name r.name.toName :: .sign .colon :: (r.body.lexemes ++ [.sign .semicolon])

def ParserRule.outline (r : ParserRule) : Node :=
  .bare .parserRule [r.name.outline, r.body.outline]

def TokenRule.lexemes (r : TokenRule) : List Lexeme :=
  (if r.fragment then [.name .fragment] else []) ++
    .name r.name.toName :: .sign .colon :: (r.body.lexemes ++ [.sign .semicolon])

def TokenRule.outline (r : TokenRule) : Node :=
  .bare (.tokenRule r.fragment) [r.name.outline, r.body.outline]

namespace Rule

def lexemes : Rule → List Lexeme
  | parser r => r.lexemes
  | token r => r.lexemes

def outline : Rule → Node
  | parser r => r.outline
  | token r => r.outline

def body : Rule → Body
  | parser r => r.body
  | token r => r.body

end Rule

def Mode.lexemes (m : Mode) : List Lexeme :=
  .name .mode :: .name m.name.toName :: .sign .semicolon :: m.rules.flatMap TokenRule.lexemes

def Mode.outline (m : Mode) : Node :=
  .bare .modeSection (m.name.outline :: m.rules.map TokenRule.outline)

namespace Source

def headerLexemes (s : Source) : List Lexeme :=
  (match s.flavour with
    | .combined => [.name .grammar]
    | .lexer => [.name .lexer, .name .grammar]
    | .parser => [.name .parser, .name .grammar]) ++
    [.name s.name.toName, .sign .semicolon]

def lexemes (s : Source) : List Lexeme :=
  s.headerLexemes ++ s.rules.flatMap Rule.lexemes ++ s.modes.flatMap Mode.lexemes

def outline (s : Source) : Node :=
  .bare .grammar (.bare (.header s.flavour) [s.name.outline] ::
    (s.rules.map Rule.outline ++ s.modes.map Mode.outline))

def bodies (s : Source) : List Body :=
  s.rules.map Rule.body ++ s.modes.flatMap (·.rules.map TokenRule.body)

end Source

theorem Name.text_injective : Function.Injective Name.text := by
  rintro ⟨text, valid⟩ ⟨_, _⟩ rfl
  rfl

theorem Word.text_injective : Function.Injective fun w : Word => w.text := by
  rintro ⟨m, hm⟩ ⟨n, hn⟩ h
  cases Name.text_injective h
  rfl

theorem Word.outline_injective : Function.Injective fun w : Word => w.outline := by
  intro v w h
  simp only [Name.outline, Node.bare_inj, Node.Kind.identifier.injEq] at h
  exact Word.text_injective h.1

theorem Literal.text_injective : Function.Injective Literal.text := by
  rintro ⟨body, closed⟩ ⟨body', closed'⟩ h
  obtain rfl : body = body' := by simpa [Literal.text, ← String.toList_inj] using h
  rfl

theorem CharSet.text_injective : Function.Injective CharSet.text := by
  rintro ⟨body, closed⟩ ⟨body', closed'⟩ h
  obtain rfl : body = body' := by simpa [CharSet.text, ← String.toList_inj] using h
  rfl

theorem Command.outline_injective : Function.Injective Command.outline := by
  rintro ⟨name, argument?⟩ ⟨name', argument?'⟩ h
  simp only [Command.outline, Node.bare_inj, Node.Kind.command.injEq] at h
  obtain rfl := Name.text_injective h.1
  have harguments := congrArg List.head? (List.map_injective_iff.2 Word.outline_injective h.2)
  rw [Option.head?_toList, Option.head?_toList] at harguments
  rw [harguments]

theorem Command.outlineAll_injective : Function.Injective Command.outlineAll := by
  intro cs ds h
  cases cs <;> cases ds <;>
    simp only [outlineAll, reduceCtorEq, List.cons.injEq, Node.bare_inj] at h
  · rfl
  · exact List.map_injective_iff.2 outline_injective h.1.2

theorem Command.kind_of_mem_outlineAll {cs : List Command} {n : Node} (h : n ∈ outlineAll cs) :
    n.kind = .commands := by
  cases cs with
  | nil => cases h
  | cons c cs =>
    cases List.mem_singleton.1 h
    rfl

/-- Two lists can be told apart by the kind of the nodes in the second. -/
theorem append_inj_of_kind {kind : Node.Kind} {xs ys xs' ys' : List Node}
    (hx : ∀ n ∈ xs, n.kind ≠ kind) (hx' : ∀ n ∈ xs', n.kind ≠ kind) (hy : ∀ n ∈ ys, n.kind = kind)
    (hy' : ∀ n ∈ ys', n.kind = kind) (h : xs ++ ys = xs' ++ ys') : xs = xs' ∧ ys = ys' := by
  have hself {zs : List Node} (hz : ∀ n ∈ zs, n.kind ≠ kind) : zs.filter (·.kind ≠ kind) = zs :=
    List.filter_eq_self.2 (by simpa using hz)
  have hnil {zs : List Node} (hz : ∀ n ∈ zs, n.kind = kind) : zs.filter (·.kind ≠ kind) = [] :=
    List.filter_eq_nil_iff.2 (by simpa using hz)
  have hfilter := congrArg (List.filter (·.kind ≠ kind)) h
  rw [List.filter_append, List.filter_append, hself hx, hself hx', hnil hy, hnil hy',
    List.append_nil, List.append_nil] at hfilter
  subst hfilter
  exact ⟨rfl, List.append_cancel_left h⟩

/-- A term is not taken for an element with a label or a suffix, nor for commands. -/
theorem Term.kind_outline_ne (t : Term) {kind : Node.Kind}
    (hk : kind matches .labeled _ _ | .repeated _ _ | .commands) : t.outline.kind ≠ kind := by
  rintro rfl
  cases t <;> cases hk

theorem Label.kind_outline_ne (l : Option Label) (t : Term) {kind : Node.Kind}
    (hk : kind matches .repeated _ _ | .commands) : (Label.outline l t.outline).kind ≠ kind := by
  cases l with
  | none => exact t.kind_outline_ne (by cases kind <;> first | rfl | cases hk)
  | some l =>
    rintro rfl
    cases hk

theorem Element.kind_outline_ne (e : Element) : e.outline.kind ≠ .commands := by
  obtain ⟨suffix?, label?, t⟩ := e
  cases suffix? with
  | none => exact Label.kind_outline_ne label? t rfl
  | some s => nofun

theorem Label.outline_inj {l l' : Option Label} {t t' : Term}
    (h : Label.outline l t.outline = Label.outline l' t'.outline) :
    l = l' ∧ t.outline = t'.outline := by
  cases l with
  | none =>
    cases l' with
    | none => exact ⟨rfl, h⟩
    | some m => exact absurd (congrArg Node.kind h) (t.kind_outline_ne rfl)
  | some l =>
    cases l' with
    | none => exact absurd (congrArg Node.kind h.symm) (t'.kind_outline_ne rfl)
    | some m =>
      obtain ⟨word, additive⟩ := l
      obtain ⟨word', additive'⟩ := m
      simp only [Label.outline, Node.bare_inj, Node.Kind.labeled.injEq, List.cons.injEq,
        and_true] at h
      obtain ⟨⟨hword, rfl⟩, ht⟩ := h
      cases Word.text_injective hword
      exact ⟨rfl, ht⟩

theorem Suffix.outline_inj {s s' : Option Suffix} {l l' : Option Label} {t t' : Term}
    (h : Suffix.outline s (Label.outline l t.outline) =
      Suffix.outline s' (Label.outline l' t'.outline)) :
    s = s' ∧ l = l' ∧ t.outline = t'.outline := by
  cases s with
  | none =>
    cases s' with
    | none => exact ⟨rfl, Label.outline_inj h⟩
    | some m => exact absurd (congrArg Node.kind h) (Label.kind_outline_ne l t rfl)
  | some s =>
    cases s' with
    | none => exact absurd (congrArg Node.kind h.symm) (Label.kind_outline_ne l' t' rfl)
    | some m =>
      simp only [Suffix.outline, Node.bare_inj, Node.Kind.repeated.injEq, List.cons.injEq,
        and_true] at h
      refine ⟨?_, Label.outline_inj h.2⟩
      obtain ⟨repetition, greedy⟩ := s
      obtain ⟨rfl, rfl⟩ := h.1
      rfl

mutual

theorem Term.outline_inj {t u : Term} (h : t.outline = u.outline) : t = u := by
  cases t <;> cases u <;>
    simp only [Term.outline, Name.outline, Literal.outline, Node.bare_inj, reduceCtorEq, false_and,
      true_and, and_true, List.cons.injEq, Node.Kind.identifier.injEq, Node.Kind.literal.injEq,
      Node.Kind.charSet.injEq] at h
  case name.name v w => rw [Word.text_injective h]
  case literal.literal l m => rw [Literal.text_injective h]
  case range.range l m l' m' => rw [Literal.text_injective h.1, Literal.text_injective h.2]
  case charSet.charSet s s' => rw [CharSet.text_injective h]
  case wildcard.wildcard => rfl
  case negated.negated t u => rw [Term.outline_inj h]
  case block.block a as b bs => rw [Alternative.outline_inj h.1, Alternative.outlineAll_inj h.2]
termination_by structural t

theorem Element.outline_inj {d e : Element} (h : d.outline = e.outline) : d = e := by
  obtain ⟨s, l, t⟩ := d
  obtain ⟨s', l', u⟩ := e
  obtain ⟨rfl, rfl, ht⟩ := Suffix.outline_inj h
  rw [Term.outline_inj ht]
termination_by structural d

theorem Element.outlineAll_inj {ds es : List Element}
    (h : Element.outlineAll ds = Element.outlineAll es) : ds = es := by
  cases ds <;> cases es <;> simp only [Element.outlineAll, reduceCtorEq, List.cons.injEq] at h
  · rfl
  · rw [Element.outline_inj h.1, Element.outlineAll_inj h.2]
termination_by structural ds

theorem Alternative.outline_inj {a b : Alternative} (h : a.outline = b.outline) : a = b := by
  obtain ⟨es, l, cs⟩ := a
  obtain ⟨es', l', cs'⟩ := b
  simp only [Alternative.outline, Node.bare_inj, Node.Kind.alternative.injEq] at h
  have hkind (ds : List Element) (n : Node) (hn : n ∈ Element.outlineAll ds) :
      n.kind ≠ .commands := by
    rw [Element.outlineAll_eq_map] at hn
    obtain ⟨d, -, rfl⟩ := List.mem_map.1 hn
    exact d.kind_outline_ne
  obtain ⟨hes, hcs⟩ := append_inj_of_kind (hkind es) (hkind es')
    (fun _ => Command.kind_of_mem_outlineAll) (fun _ => Command.kind_of_mem_outlineAll) h.2
  rw [Element.outlineAll_inj hes, Option.map_injective Word.text_injective h.1,
    Command.outlineAll_injective hcs]
termination_by structural a

theorem Alternative.outlineAll_inj {as bs : List Alternative}
    (h : Alternative.outlineAll as = Alternative.outlineAll bs) : as = bs := by
  cases as <;> cases bs <;> simp only [Alternative.outlineAll, reduceCtorEq, List.cons.injEq] at h
  · rfl
  · rw [Alternative.outline_inj h.1, Alternative.outlineAll_inj h.2]
termination_by structural as

end

theorem Body.outline_injective : Function.Injective Body.outline := by
  rintro ⟨a, as⟩ ⟨b, bs⟩ h
  simp only [Body.outline, Node.bare_inj, List.cons.injEq, true_and] at h
  rw [Alternative.outline_inj h.1, Alternative.outlineAll_inj h.2]

theorem ParserRule.outline_injective : Function.Injective ParserRule.outline := by
  rintro ⟨name, small, body⟩ ⟨name', small', body'⟩ h
  simp only [ParserRule.outline, Node.bare_inj, List.cons.injEq, true_and, and_true] at h
  cases Word.outline_injective h.1
  cases Body.outline_injective h.2
  rfl

theorem TokenRule.outline_injective : Function.Injective TokenRule.outline := by
  rintro ⟨fragment, name, capital, body⟩ ⟨fragment', name', capital', body'⟩ h
  simp only [TokenRule.outline, Node.bare_inj, Node.Kind.tokenRule.injEq, List.cons.injEq,
    and_true] at h
  obtain ⟨rfl, hname, hbody⟩ := h
  cases Word.outline_injective hname
  cases Body.outline_injective hbody
  rfl

theorem Rule.outline_injective : Function.Injective Rule.outline := by
  rintro (q | q) (r | r) h
  · rw [ParserRule.outline_injective h]
  · simp [Rule.outline, ParserRule.outline, TokenRule.outline] at h
  · simp [Rule.outline, ParserRule.outline, TokenRule.outline] at h
  · rw [TokenRule.outline_injective h]

theorem Mode.outline_injective : Function.Injective Mode.outline := by
  rintro ⟨name, rules⟩ ⟨name', rules'⟩ h
  simp only [Mode.outline, Node.bare_inj, List.cons.injEq, true_and] at h
  cases Word.outline_injective h.1
  cases List.map_injective_iff.2 TokenRule.outline_injective h.2
  rfl

/-- The tree of a grammar tells all about it. -/
theorem Source.outline_injective : Function.Injective Source.outline := by
  intro s s' h
  obtain ⟨flavour, name, rules, modes, admitted, modal⟩ := s
  obtain ⟨flavour', name', rules', modes', admitted', modal'⟩ := s'
  simp only [Source.outline, Node.bare_inj, Node.Kind.header.injEq, List.cons.injEq, true_and,
    and_true] at h
  obtain ⟨⟨rfl, hname⟩, hparts⟩ := h
  have hrule (rs : List Rule) (n : Node) (hn : n ∈ rs.map Rule.outline) : n.kind ≠ .modeSection := by
    obtain ⟨r, -, rfl⟩ := List.mem_map.1 hn
    cases r <;> nofun
  have hmode (ms : List Mode) (n : Node) (hn : n ∈ ms.map Mode.outline) : n.kind = .modeSection := by
    obtain ⟨m, -, rfl⟩ := List.mem_map.1 hn
    rfl
  obtain ⟨hrules, hmodes⟩ :=
    append_inj_of_kind (hrule rules) (hrule rules') (hmode modes) (hmode modes') hparts
  cases Word.outline_injective hname
  cases List.map_injective_iff.2 Rule.outline_injective hrules
  cases List.map_injective_iff.2 Mode.outline_injective hmodes
  rfl

end Abstract

end GrammarAtlas
