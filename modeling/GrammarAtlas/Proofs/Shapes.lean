import GrammarAtlas.Proofs.Reading
import GrammarAtlas.Tree.Rule
import Mathlib.Computability.Language
import Mathlib.Order.CompletePartialOrder

/-! # The grammar of grammars

What a node of each kind consists of where nothing is wrong: a language of tokens and nodes
(`Shape.ofKind`). A node of kind `error` has none.

`Derives items ts`: the items have their shapes down to the tokens, and these are the tokens `ts`,
all of them and in their order. What is derived is complete (`Derives.complete`). -/

namespace GrammarAtlas

open scoped Computability

/-- What a node consists of. The options at the head of a block are read as a node that the tree
does not keep. -/
inductive Item where
  | token (t : Token)
  | node (n : Node) (kept : Bool)

namespace Item

def node? : Item → Option Node
  | node n true => some n
  | _ => none

def nodes (items : List Item) : List Node := items.filterMap node?

@[simp] theorem nodes_nil : nodes [] = [] := rfl

@[simp] theorem nodes_token (t : Token) (items : List Item) :
    nodes (token t :: items) = nodes items := rfl

@[simp] theorem nodes_kept (n : Node) (items : List Item) :
    nodes (node n true :: items) = n :: nodes items := rfl

@[simp] theorem nodes_append (items more : List Item) :
    nodes (items ++ more) = nodes items ++ nodes more := List.filterMap_append

@[simp] theorem nodes_tokens (ts : List Token) : nodes (ts.map token) = [] := by
  induction ts with
  | nil => rfl
  | cons t ts ih => exact ih

theorem mem_of_mem_nodes {n : Node} {items : List Item} (h : n ∈ nodes items) :
    node n true ∈ items := by
  obtain ⟨item, hitem, heq⟩ := List.mem_filterMap.1 h
  match item, heq with
  | node m true, rfl => exact hitem

end Item

abbrev Shape := Language Item

namespace Shape

def token (P : Token → Prop) : Shape := {w | ∃ t, P t ∧ w = [.token t]}

def node (P : Node.Kind → Prop) : Shape := {w | ∃ n, P n.kind ∧ w = [.node n true]}

def sign (kind : Token.Kind) : Shape := token fun t => t.kind = kind

def word (w : String) : Shape := token fun t => t.isWord w

def named (name : String) : Shape := token fun t => t.isName ∧ t.text = name

def perhaps (L : Shape) : Shape := 1 + L

def separated (L : Shape) (kind : Token.Kind) : Shape := (L * sign kind)∗ * L

theorem singleton_mem_token {P : Token → Prop} {t : Token} (h : P t) : [.token t] ∈ token P :=
  ⟨t, h, rfl⟩

theorem node_mono {P Q : Node.Kind → Prop} (h : ∀ kind, P kind → Q kind) : node P ≤ node Q := by
  rintro w ⟨n, hn, rfl⟩
  exact ⟨n, h _ hn, rfl⟩

theorem node_le {P : Node.Kind → Prop} {kind : Node.Kind} (hP : P kind) : node (· = kind) ≤ node P :=
  node_mono fun _ hkind => hkind ▸ hP

/-- The words that declare a flavour. -/
def flavour : Flavour → Shape
  | .combined => word "grammar"
  | .lexer => word "lexer" * word "grammar"
  | .parser => word "parser" * word "grammar"

/-- The words before the name of a rule; `fragment` may be among them. -/
def modifiers (fragment : Bool) : Shape :=
  {w | ∃ ts : List Token, w = ts.map .token ∧ (∀ t ∈ ts, Lookahead.isModifier t) ∧
    fragment = ts.any (·.isWord "fragment")}

def identifier : Shape := node fun kind => kind.isIdentifier

def literal : Shape := node fun kind => ∃ text, kind = .literal text

/-- The names behind `throws`. -/
def thrown : Shape := token fun t => t.isName ∧ ¬ t.isWord "locals"

def throwsClause : Shape := word "throws" * ((thrown * sign .comma)∗ * perhaps thrown)

def clause (w : String) : Shape := word w * node (· = .action)

def declaration : Shape := node (· = .options) + node fun kind => ∃ name, kind = .namedAction name

/-- What may stand between the name of a parser rule and its colon. -/
def rulePrequel : Shape :=
  perhaps (node (· = .action)) * perhaps (clause "returns") * perhaps throwsClause *
    perhaps (clause "locals") * declaration∗

/-- The body of a rule with its colon and its semicolon. -/
def ruleBody : Shape := sign .colon * node (· = .alternatives) * sign .semicolon

def alternatives : Shape := separated (node fun kind => kind.isAlternative) .bar

/-- Sets of characters, and what is read like them. -/
def isSet : Node.Kind → Bool
  | .charSet _ | .wildcard | .range | .negated => true
  | _ => false

/-- Arguments and options of a reference are read and have no node. -/
def atom : Shape :=
  identifier * perhaps (sign .bracket) * perhaps (sign .angle) + literal * perhaps (sign .angle) +
    node fun kind => isSet kind

/-- What may be labeled or negated. -/
def operand : Shape := node (· = .block) + atom

/-- What may be repeated. -/
def factor : Shape := operand + node fun kind => ∃ label additive, kind = .labeled label additive

def element : Shape :=
  factor + (node fun kind => ∃ repetition greedy, kind = .repeated repetition greedy) +
    node fun kind => kind = .action ∨ kind = .predicate

def label : Option String → Shape
  | none => 1
  | some name => sign .hash * named name

def argument : Shape := sign .openParen * (identifier + literal) * sign .closeParen

/-- The parts of a dotted name behind the first. -/
inductive Dotted : List Token → Prop
  | nil : Dotted []
  | cons {dot part : Token} {ts : List Token} (hdot : dot.kind = .dot) (hpart : part.isName)
    (h : Dotted ts) : Dotted (dot :: part :: ts)

/-- The parts of a name that `@` leads in. -/
def actionName (name : String) : Shape :=
  {w | w ∈ named name ∨ ∃ scope part, name = scope ++ "::" ++ part ∧
    w ∈ named scope * sign .doubleColon * named part}

/-- Options that the tree does not keep. -/
def blockOptions : Shape := {w | ∃ n : Node, n.kind = .options ∧ w = [.node n false]}

def names : Shape := (identifier * sign .comma)∗ * perhaps identifier

def repetition : Repetition → Token.Kind
  | .optional => .question
  | .zeroOrMore => .star
  | .oneOrMore => .plus

/-- What a node of the kind consists of. -/
def ofKind : Node.Kind → Shape
  | .grammar => node (fun kind => ∃ flavour, kind = .header flavour) * (node fun kind => kind.isPart)∗
  | .header declared => flavour declared * identifier * sign .semicolon
  | .options =>
    word "options" * sign .openBrace * (node fun kind => ∃ key, kind = .option key)∗ *
      sign .closeBrace
  | .option key => named key * sign .equals * (node fun kind => kind.isValue) * sign .semicolon
  | .delegates =>
    word "import" * separated (node fun kind => ∃ name alias?, kind = .delegate name alias?) .comma *
      sign .semicolon
  | .delegate name none => named name
  | .delegate name (some other) => named other * sign .equals * named name
  | .tokenList => word "tokens" * sign .openBrace * names * sign .closeBrace
  | .channelList => word "channels" * sign .openBrace * names * sign .closeBrace
  | .namedAction name => sign .atSign * actionName name * sign .action
  | .modeSection => word "mode" * identifier * sign .semicolon * (node fun kind => kind.isRule)∗
  | .parserRule =>
    (modifiers true + modifiers false) * identifier * rulePrequel * ruleBody * (node (· = .handler))∗
  | .tokenRule fragment =>
    modifiers fragment * identifier * perhaps (node (· = .options)) * ruleBody
  | .alternatives => alternatives
  | .block => sign .openParen * perhaps (blockOptions * sign .colon) * alternatives * sign .closeParen
  | .alternative label? =>
    perhaps (node (· = .elementOptions)) * element∗ * label label? * perhaps (node (· = .commands))
  | .labeled name additive => named name * sign (if additive then .plusEquals else .equals) * operand
  | .repeated sort greedy =>
    factor * sign (repetition sort) * if greedy then 1 else sign .question
  | .negated => sign .tilde * operand
  | .range => literal * sign .dotDot * literal
  | .identifier name =>
    {w | ∃ t ts, w = (t :: ts).map .token ∧ t.isName ∧ Dotted ts ∧ name = t.text ++ Token.spelled ts}
  | .literal text => token fun t => (t.kind = .quoted ∨ t.kind = .integer) ∧ t.text = text
  | .charSet text => token fun t => t.kind = .bracket ∧ t.text = text
  | .wildcard => sign .dot * perhaps (sign .angle)
  | .action => sign .action + sign .bracket
  | .predicate => sign .action * sign .question * perhaps (sign .angle)
  | .elementOptions => sign .angle
  | .commands => sign .arrow * separated (node fun kind => ∃ name, kind = .command name) .comma
  | .command name => named name * perhaps argument
  | .handler => word "catch" * sign .bracket * sign .action + word "finally" * sign .action
  | .error => 0

end Shape

/-! ## Derivations -/

inductive Derives : List Item → List Token → Prop
  | nil : Derives [] []
  | token {items : List Item} {ts : List Token} (t : Token) (h : Derives items ts) :
    Derives (.token t :: items) (t :: ts)
  | node {n : Node} {sub items : List Item} {us ts : List Token} (kept : Bool)
    (hshape : sub ∈ Shape.ofKind n.kind) (hsub : Derives sub us)
    (hchildren : Item.nodes sub = n.children) (h : Derives items ts) : Derives (.node n kept :: items) (us ++ ts)

theorem Derives.append {items more : List Item} {ts us : List Token} (h : Derives items ts)
    (h' : Derives more us) : Derives (items ++ more) (ts ++ us) := by
  induction h with
  | nil => exact h'
  | token t _ ih => exact .token t ih
  | node kept hshape hsub hchildren _ _ ih =>
    rw [List.append_assoc]
    exact .node kept hshape hsub hchildren ih

theorem Derives.tokens (ts : List Token) : Derives (ts.map .token) ts := by
  induction ts with
  | nil => exact .nil
  | cons t ts ih => exact .token t ih

namespace Node

def isAlternatives (n : Node) : Bool := n.kind == .alternatives

/-- The node has the children that nothing of its kind should lack. -/
def Complete (n : Node) : Prop :=
  match n.kind with
  | .error => False
  | .grammar => ∃ header parts, n.children = header :: parts ∧ ∃ flavour, header.kind = .header flavour
  | .header _ => ∃ name, n.children = [name] ∧ name.kind.isIdentifier
  | .parserRule | .tokenRule _ => ∃ body, n.children.filter isAlternatives = [body]
  | .range => ∃ first last, n.children = [first, last] ∧ (∃ text, first.kind = .literal text) ∧
    ∃ text, last.kind = .literal text
  | .option _ => ∃ value, n.children = [value]
  | .delegates | .commands => n.children ≠ []
  | _ => True

/-- `P` holds of the node and of all below it. -/
inductive Everywhere (P : Node → Prop) : Node → Prop
  | mk {n : Node} (h : P n) (hc : ∀ m ∈ n.children, Everywhere P m) : Everywhere P n

theorem Everywhere.visits {P : Node → Prop} {n : Node} (h : n.Everywhere P) (parent? : Option Node)
    (depth : Nat) : ∀ v ∈ n.visits parent? depth, P v.2.2 := by
  have hbelow : ∀ n : Node, n.Everywhere P → ∀ m ∈ n.children, m.Everywhere P := by
    rintro n ⟨-, hc⟩
    exact hc
  intro v hv
  obtain ⟨hv, -⟩ := (forall_visits hbelow parent? depth h v hv).1
  exact hv

end Node

namespace Shape
variable {L M : Shape} {w : List Item}

/-- No word of the language has the body of a rule among its nodes. -/
def Bodiless (L : Shape) : Prop := ∀ w ∈ L, (Item.nodes w).filter Node.isAlternatives = []

theorem Bodiless.mul (hL : L.Bodiless) (hM : M.Bodiless) : (L * M).Bodiless := by
  intro w hw
  obtain ⟨a, ha, b, hb, rfl⟩ := Language.mem_mul.1 hw
  rw [Item.nodes_append, List.filter_append, hL a ha, hM b hb, List.nil_append]

theorem Bodiless.add (hL : L.Bodiless) (hM : M.Bodiless) : (L + M).Bodiless := by
  rintro w (hw | hw)
  · exact hL w hw
  · exact hM w hw

theorem bodiless_one : (1 : Shape).Bodiless := by
  intro w hw
  rw [(Language.mem_one w).1 hw]
  rfl

theorem Bodiless.perhaps (hL : L.Bodiless) : (perhaps L).Bodiless :=
  bodiless_one.add hL

theorem Bodiless.kstar (hL : L.Bodiless) : L∗.Bodiless := by
  intro w hw
  obtain ⟨parts, rfl, hparts⟩ := Language.mem_kstar.1 hw
  induction parts with
  | nil => rfl
  | cons a parts ih =>
    obtain ⟨ha, hparts⟩ := List.forall_mem_cons.1 hparts
    rw [List.flatten_cons, Item.nodes_append, List.filter_append, hL a ha, List.nil_append]
    exact ih hparts (Language.join_mem_kstar hparts)

theorem bodiless_token (P : Token → Prop) : (token P).Bodiless := by
  rintro w ⟨t, -, rfl⟩
  rfl

theorem bodiless_node {P : Node.Kind → Prop} (hP : ¬ P .alternatives) : (node P).Bodiless := by
  rintro w ⟨n, hn, rfl⟩
  have hkind : n.isAlternatives = false := by
    rw [Node.isAlternatives, beq_eq_false_iff_ne]
    rintro heq
    exact hP (heq ▸ hn)
  simp [hkind]

theorem bodiless_modifiers (fragment : Bool) : (modifiers fragment).Bodiless := by
  rintro w ⟨ts, rfl, -⟩
  rw [Item.nodes_tokens, List.filter_nil]

theorem bodiless_rulePrequel : rulePrequel.Bodiless := by
  have haction : (node (· = .action)).Bodiless := bodiless_node nofun
  have hclause (w : String) : (clause w).Bodiless := (bodiless_token _).mul haction
  have hthrown : thrown.Bodiless := bodiless_token _
  have hthrows : throwsClause.Bodiless :=
    (bodiless_token _).mul ((hthrown.mul (bodiless_token _)).kstar.mul hthrown.perhaps)
  have hdeclaration : declaration.Bodiless := (bodiless_node nofun).add (bodiless_node nofun)
  exact (((haction.perhaps.mul (hclause _).perhaps).mul hthrows.perhaps).mul (hclause _).perhaps).mul
    hdeclaration.kstar

/-- A rule has one body, whatever stands before and behind it. -/
theorem filter_of_mem_ruleBody (hL : L.Bodiless) (hM : M.Bodiless) (hw : w ∈ L * ruleBody * M) :
    ∃ body, (Item.nodes w).filter Node.isAlternatives = [body] := by
  obtain ⟨ab, hab, c, hc, rfl⟩ := Language.mem_mul.1 hw
  obtain ⟨a, ha, b, hb, rfl⟩ := Language.mem_mul.1 hab
  obtain ⟨d, ⟨e, ⟨t, -, rfl⟩, f, ⟨body, hbody, rfl⟩, rfl⟩, g, ⟨u, -, rfl⟩, rfl⟩ := hb
  have hkind : body.isAlternatives := beq_iff_eq.2 hbody
  refine ⟨body, ?_⟩
  simp only [Item.nodes_append, List.filter_append, hL a ha, hM c hc]
  simp [hkind]

theorem nodes_ne_nil_of_mem_separated {P : Node.Kind → Prop} {kind : Token.Kind}
    (hw : w ∈ separated (node P) kind) : Item.nodes w ≠ [] := by
  obtain ⟨a, -, b, ⟨n, -, rfl⟩, rfl⟩ := Language.mem_mul.1 hw
  simp

theorem nodes_of_mem_flavour {declared : Flavour} (hw : w ∈ flavour declared) : Item.nodes w = [] := by
  cases declared with
  | combined =>
    obtain ⟨t, -, rfl⟩ := hw
    rfl
  | lexer | parser =>
    obtain ⟨a, ⟨t, -, rfl⟩, b, ⟨u, -, rfl⟩, rfl⟩ := hw
    rfl

end Shape

open Shape in
/-- A node of its shape lacks nothing. -/
theorem Node.complete_of_shape {n : Node} {sub : List Item} (hshape : sub ∈ Shape.ofKind n.kind)
    (hchildren : Item.nodes sub = n.children) : n.Complete := by
  obtain ⟨kind, l, children⟩ := n
  obtain rfl : Item.nodes sub = children := hchildren
  cases kind with
  | grammar =>
    obtain ⟨a, ⟨header, hheader, rfl⟩, b, -, rfl⟩ := hshape
    exact ⟨header, Item.nodes b, rfl, hheader⟩
  | header declared =>
    obtain ⟨a, ⟨b, hb, c, ⟨name, hname, rfl⟩, rfl⟩, d, ⟨t, -, rfl⟩, rfl⟩ := hshape
    refine ⟨name, ?_, hname⟩
    simp [nodes_of_mem_flavour hb]
  | parserRule =>
    refine filter_of_mem_ruleBody ?_ (bodiless_node nofun).kstar hshape
    exact (((bodiless_modifiers _).add (bodiless_modifiers _)).mul (bodiless_node nofun)).mul
      bodiless_rulePrequel
  | tokenRule fragment =>
    have hrule : sub ∈ Shape.ofKind (.tokenRule fragment) * 1 := by rwa [mul_one]
    refine filter_of_mem_ruleBody ?_ bodiless_one hrule
    exact ((bodiless_modifiers _).mul (bodiless_node nofun)).mul (bodiless_node nofun).perhaps
  | range =>
    obtain ⟨a, ⟨b, ⟨first, hfirst, rfl⟩, c, ⟨t, -, rfl⟩, rfl⟩, d, ⟨last, hlast, rfl⟩, rfl⟩ := hshape
    exact ⟨first, last, rfl, hfirst, hlast⟩
  | option key =>
    obtain ⟨a, ⟨b, ⟨c, ⟨t, -, rfl⟩, d, ⟨u, -, rfl⟩, rfl⟩, e, ⟨value, -, rfl⟩, rfl⟩, f, ⟨v, -, rfl⟩,
      rfl⟩ := hshape
    exact ⟨value, rfl⟩
  | delegates =>
    obtain ⟨a, ⟨b, ⟨t, -, rfl⟩, c, hc, rfl⟩, d, ⟨u, -, rfl⟩, rfl⟩ := hshape
    show Item.nodes ([.token t] ++ c ++ [.token u]) ≠ []
    simpa using nodes_ne_nil_of_mem_separated hc
  | commands =>
    obtain ⟨a, ⟨t, -, rfl⟩, b, hb, rfl⟩ := hshape
    show Item.nodes ([.token t] ++ b) ≠ []
    simpa using nodes_ne_nil_of_mem_separated hb
  | error => exact hshape.elim
  | _ => trivial

/-- What has its shape down to the tokens is complete everywhere. -/
theorem Derives.complete {items : List Item} {ts : List Token} (h : Derives items ts) {n : Node}
    {kept : Bool} (hn : .node n kept ∈ items) : n.Everywhere Node.Complete := by
  induction h generalizing n kept with
  | nil => cases hn
  | token t _ ih =>
    rcases List.mem_cons.1 hn with heq | hn
    · cases heq
    · exact ih hn
  | node kept' hshape _ hchildren _ ihsub ih =>
    rcases List.mem_cons.1 hn with heq | hn
    · cases heq
      refine .mk (Node.complete_of_shape hshape hchildren) fun m hm => ?_
      rw [← hchildren] at hm
      exact ihsub (Item.mem_of_mem_nodes hm)
    · exact ih hn

end GrammarAtlas
