import GrammarAtlas.Proofs.Tokens
import GrammarAtlas.Tree.Cursor

/-! # What reading can do

The parser moves a cursor over the tokens of a text and puts nodes together. `Reading c ns c'` says
all that can happen between two cursors: tokens are read one by one, faults are reported at the
token ahead or the one behind, and nodes are closed over what was read since they began. The list
`ns` holds the nodes closed so far, and `Fits` what may stand below a node of which kind.

Every production is a reading (`Produces`), and facts about all trees follow from the judgement
alone. -/

namespace GrammarAtlas

namespace Node.Kind

def isIdentifier : Kind → Bool
  | .identifier _ => true
  | _ => false

/-- Identifiers of one token. Others stand below options only. -/
def isName : Kind → Bool
  | .identifier name => isPlain name
  | _ => false

/-- Kinds of nodes that stand for a few tokens, with nothing below them. -/
def isWord : Kind → Bool
  | .identifier _ | .literal _ | .charSet _ | .delegate _ _ => true
  | _ => false

/-- What a node of the kind keeps of the text that it stands for. -/
def spelling? : Kind → Option String
  | .identifier s | .literal s | .charSet s => some s
  | _ => none

/-- Kinds of nodes whose first child is their name. -/
def isNamed : Kind → Bool
  | .modeSection | .parserRule | .tokenRule _ => true
  | _ => false

/-- Values of options. -/
def isValue : Kind → Bool
  | .identifier _ | .literal _ | .action => true
  | _ => false

/-- Arguments of commands. -/
def isArgument : Kind → Bool
  | .identifier name => isPlain name
  | .literal _ => true
  | _ => false

def isRule : Kind → Bool
  | .parserRule | .tokenRule _ | .error => true
  | _ => false

/-- What a rule has besides its name. -/
def isClause : Kind → Bool
  | .options | .namedAction _ | .action | .alternatives | .handler => true
  | _ => false

/-- What declarations at the head of a grammar are. -/
def isPrequel : Kind → Bool
  | .options | .delegates | .tokenList | .channelList | .namedAction _ => true
  | _ => false

def isPart (kind : Kind) : Bool := kind.isPrequel || kind.isRule || kind == .modeSection

def isElement : Kind → Bool
  | .identifier name => isPlain name
  | .labeled _ _ | .repeated _ _ | .block | .negated | .range | .literal _ | .charSet _ | .wildcard
  | .action | .predicate | .error => true
  | _ => false

def isAlternative : Kind → Bool
  | .alternative _ => true
  | _ => false

/-- Whether a node of kind `child` may stand below one of kind `parent`, other than as its name. The
root is not among the parents. -/
def admits (parent child : Kind) : Bool :=
  match parent with
  | .header _ | .tokenList | .channelList => child.isName
  | .options => match child with
    | .option _ => true
    | _ => false
  | .option _ => child.isValue
  | .command _ => child.isArgument
  | .delegates => match child with
    | .delegate _ _ => true
    | _ => false
  | .modeSection => child.isRule
  | .parserRule | .tokenRule _ => child.isClause
  | .alternatives | .block => child.isAlternative
  | .alternative _ => child.isElement || child == .elementOptions || child == .commands
  | .labeled _ _ | .repeated _ _ | .negated => child.isElement
  | .range => match child with
    | .literal _ => true
    | _ => false
  | .commands => match child with
    | .command _ => true
    | _ => false
  | _ => false

/-- Whether a node of the kind may have that many children. -/
def allows (kind : Kind) (count : Nat) : Bool :=
  match kind with
  | .alternatives | .block => 0 < count
  | .option _ | .labeled _ _ | .repeated _ _ | .negated => count == 1
  | .command _ => count ≤ 1
  | _ => true

/-- Whether what a node of the kind declares may be called `name`. -/
def calls (kind : Kind) (name : String) : Bool :=
  match kind with
  | .tokenRule _ => isCapitalized name
  | .parserRule => !isCapitalized name
  | _ => true

/-- The children that a node of a kind may have. -/
inductive Fits : Kind → List Node → Prop
  | named {kind : Kind} {name : Node} {rest : List Node} (hkind : kind.isNamed)
    (hname : name.kind.isName) (hcalls : name.identifier?.all kind.calls)
    (hrest : ∀ n ∈ rest, kind.admits n.kind) : Fits kind (name :: rest)
  | plain {kind : Kind} {children : List Node} (hkind : kind.isNamed = false)
    (hword : kind.isWord = false) (hall : ∀ n ∈ children, kind.admits n.kind)
    (hcount : kind.allows children.length) : Fits kind children

end Node.Kind

namespace Node
variable {P : Node → Prop}

mutual

/-- What goes from each node to its children holds all over a tree: of every node that a walk visits,
and of the one above it. -/
theorem forall_visits (hP : ∀ n, P n → ∀ m ∈ n.children, P m) (parent? : Option Node) (depth : Nat) :
    ∀ {n : Node}, P n → ∀ v ∈ n.visits parent? depth, P v.2.2 ∧ (v = (parent?, depth, n) ∨
      ∃ parent, v.1 = some parent ∧ P parent ∧ v.2.2 ∈ parent.children)
  | ⟨kind, l, children⟩, hn => by
    rw [visits]
    refine List.forall_mem_cons.2 ⟨⟨hn, .inl rfl⟩, fun v hv => ?_⟩
    obtain ⟨hv, habove⟩ := forall_visitsAll hP (depth + 1) hn children (fun _ hm => hm) v hv
    exact ⟨hv, .inr habove⟩

theorem forall_visitsAll (hP : ∀ n, P n → ∀ m ∈ n.children, P m) (depth : Nat) {parent : Node}
    (hparent : P parent) :
    ∀ ns : List Node, (∀ n ∈ ns, n ∈ parent.children) →
      ∀ v ∈ visitsAll (some parent) depth ns, P v.2.2 ∧
        ∃ parent, v.1 = some parent ∧ P parent ∧ v.2.2 ∈ parent.children
  | [], _ => by simp [visitsAll]
  | n :: ns, hns => by
    rw [visitsAll]
    have hn := hns n (.head _)
    refine List.forall_mem_append.2 ⟨fun v hv => ?_, ?_⟩
    · obtain ⟨hv, rfl | habove⟩ := forall_visits hP (some parent) depth (hP parent hparent n hn) v hv
      · exact ⟨hv, parent, rfl, hparent, hn⟩
      · exact ⟨hv, habove⟩
    · exact forall_visitsAll hP depth hparent ns fun m hm => hns m (.tail _ hm)

end

end Node

/-! ## Readings -/

theorem Token.kind_ne_finish {t : Token} (h : t.isName) : t.kind ≠ .finish := by
  intro hf
  simp [Token.isName, hf, Token.Kind.isName] at h

/-- The tokens as they stand in the text, with what leads up to each. -/
def Token.spelled : List Token → String
  | [] => ""
  | t :: ts => t.lead ++ t.text ++ spelled ts

namespace Cursor

/-- The tokens ahead lie one behind the other, only the one that ends the text is of kind `finish`, and
names are of one piece and of the kind that their first letter calls for. -/
structure Regular (c : Cursor) : Prop where
  finish : c.finish.kind = .finish
  nonempty : ∀ t ∈ c.ahead, t.start.offset < t.stop.offset
  ordered : c.ahead.Pairwise (fun t u => t.stop.offset ≤ u.start.offset)
  capitalized : ∀ t ∈ c.ahead, t.isName → (t.kind = .upperName ↔ isCapitalized t.text)
  plain : ∀ t ∈ c.ahead, t.isName → isPlain t.text

theorem regular_ofStream (cs : List Char) : (ofStream (TokenStream.ofChars cs).1).Regular :=
  ⟨TokenStream.gather_finish_kind _ _ _, TokenStream.ofChars_nonempty cs,
    TokenStream.ofChars_ordered cs, TokenStream.ofChars_capitalized cs, TokenStream.ofChars_plain cs⟩

def after (c : Cursor) (t : Token) (ts : List Token) : Cursor :=
  { c with last? := some t, ahead := ts }

variable {c : Cursor} {t : Token} {ts : List Token}

theorem Regular.after (h : c.Regular) (ht : c.ahead = t :: ts) : (c.after t ts).Regular := by
  obtain ⟨hf, hn, ho, hk, hp⟩ := h
  rw [ht] at hn ho hk hp
  exact ⟨hf, fun u hu => hn u (.tail _ hu), ho.of_cons, fun u hu => hk u (.tail _ hu),
    fun u hu => hp u (.tail _ hu)⟩

theorem Regular.report (h : c.Regular) (cause : Fault.Cause) (l : Location) :
    (c.report cause l).Regular :=
  ⟨h.finish, h.nonempty, h.ordered, h.capitalized, h.plain⟩

theorem peek_of_ahead (ht : c.ahead = t :: ts) : c.peek = t := by
  simp [peek, ht]

theorem Regular.ahead_of_peek (h : c.Regular) (hk : c.peek.kind ≠ .finish) :
    ∃ ts, c.ahead = c.peek :: ts := by
  unfold peek at hk ⊢
  cases ha : c.ahead with
  | nil => simp [ha, h.finish] at hk
  | cons t ts => exact ⟨ts, rfl⟩

theorem Regular.kindAt_zero (h : c.Regular) : Lookahead.kindAt c.ahead 0 = c.peek.kind := by
  unfold Lookahead.kindAt peek
  cases ha : c.ahead with
  | nil => simp [h.finish]
  | cons t ts => simp

theorem Regular.isNameAt_zero (h : c.Regular) :
    Lookahead.isNameAt c.ahead 0 = c.peek.isName := by
  rw [Lookahead.isNameAt, h.kindAt_zero, Token.isName]

theorem Regular.capitalized_peek (h : c.Regular) (hn : c.peek.isName) :
    c.peek.kind = .upperName ↔ isCapitalized c.peek.text := by
  obtain ⟨ts, ha⟩ := h.ahead_of_peek (Token.kind_ne_finish hn)
  refine h.capitalized _ ?_ hn
  rw [ha]
  exact .head _

theorem Regular.plain_peek (h : c.Regular) (hn : c.peek.isName) : isPlain c.peek.text := by
  obtain ⟨ts, ha⟩ := h.ahead_of_peek (Token.kind_ne_finish hn)
  refine h.plain _ ?_ hn
  rw [ha]
  exact .head _

theorem Regular.lastStop_after_le (h : c.Regular) (ht : c.ahead = t :: ts) :
    ∀ u ∈ (c.after t ts).ahead, (c.after t ts).lastStop.offset ≤ u.start.offset := by
  have hordered := h.ordered
  rw [ht, List.pairwise_cons] at hordered
  exact hordered.1

theorem Regular.since_after (h : c.Regular) (ht : c.ahead = t :: ts) :
    (c.after t ts).since t.start = t.location := by
  have := h.nonempty t (by simp [ht])
  have hstop : (c.after t ts).lastStop = t.stop := rfl
  rw [since, hstop, if_neg (by omega)]
  rfl

end Cursor

/-- From `c` the parser gets to a cursor and has closed the nodes of a list on the way. -/
inductive Reading : Cursor → List Node → Cursor → Prop
  | start {c : Cursor} (h : c.Regular) : Reading c [] c
  | token {c c' : Cursor} {ns : List Node} {t : Token} {ts : List Token} (h : Reading c ns c')
    (ht : c'.ahead = t :: ts) : Reading c ns (c'.after t ts)
  | report {c c' : Cursor} {ns : List Node} {t : Token} (cause : Fault.Cause) (h : Reading c ns c')
    (ht : t = c'.peek ∨ c'.last? = some t) : Reading c ns (c'.report cause t.location)
  /-- A word begins with the token ahead, and keeps what is read since. -/
  | word {c c₁ c₂ : Cursor} {ns : List Node} {t : Token} {ts : List Token} {kind : Node.Kind}
    (h : Reading c ns c₁) (ht : c₁.ahead = t :: ts) (hw : Reading (c₁.after t ts) [] c₂)
    (hk : kind.isWord)
    (hs : ∀ s ∈ kind.spelling?, ∃ us, ts = us ++ c₂.ahead ∧ s = t.text ++ Token.spelled us) :
    Reading c (ns ++ [⟨kind, c₂.since t.start, []⟩]) c₂
  | node {c c₁ c₂ : Cursor} {ns children : List Node} {kind : Node.Kind}
    (h : Reading c ns c₁) (hc : Reading c₁ children c₂) (hk : kind.Fits children) :
    Reading c (ns ++ [⟨kind, c₂.since c₁.peek.start, children⟩]) c₂

namespace Reading
variable {c c₁ c₂ : Cursor} {ns ms : List Node} {t : Token} {ts : List Token} {kind : Node.Kind}

theorem regular_left (h : Reading c ns c₁) : c.Regular := by
  induction h with
  | start h => exact h
  | token _ _ ih => exact ih
  | report _ _ _ ih => exact ih
  | word _ _ _ _ _ ih _ => exact ih
  | node _ _ _ ih _ => exact ih

theorem regular (h : Reading c ns c₁) : c₁.Regular := by
  induction h with
  | start h => exact h
  | token _ ht ih => exact ih.after ht
  | report cause _ _ ih => exact ih.report cause _
  | word _ _ _ _ _ _ ih => exact ih
  | node _ _ _ _ ih => exact ih

theorem trans (h : Reading c ns c₁) (h' : Reading c₁ ms c₂) : Reading c (ns ++ ms) c₂ := by
  induction h' with
  | start => simpa using h
  | token _ ht ih => exact (ih h).token ht
  | report cause _ ht ih => exact (ih h).report cause ht
  | word _ ht hw hk hs ih => rw [← List.append_assoc]; exact (ih h).word ht hw hk hs
  | node _ hc hk ih => rw [← List.append_assoc]; exact (ih h).node hc hk

theorem skip (h : Reading c ns c₁) (h' : Reading c₁ [] c₂) : Reading c ns c₂ := by
  simpa using h.trans h'

theorem forget (h : Reading c ns c₁) : Reading c [] c₁ := by
  induction h with
  | start h => exact .start h
  | token _ ht ih => exact ih.token ht
  | report cause _ ht ih => exact ih.report cause ht
  | word _ ht _ _ _ ih ihw => exact (ih.token ht).skip ihw
  | node _ _ _ ih ihc => exact ih.skip ihc

theorem leaf (h : Reading c ns c₁) (ht : c₁.ahead = t :: ts) (hk : kind.isWord)
    (hs : ∀ s ∈ kind.spelling?, s = t.text) :
    Reading c (ns ++ [.leaf kind t.location]) (c₁.after t ts) := by
  have hs' : ∀ s ∈ kind.spelling?, ∃ us, ts = us ++ ts ∧ s = t.text ++ Token.spelled us :=
    fun s hk => ⟨[], rfl, by simp [hs s hk, Token.spelled]⟩
  have := h.word ht (.start (h.regular.after ht)) hk hs'
  rwa [h.regular.since_after ht] at this

/-- All that was read since `c` goes into one node. -/
theorem closed (h : Reading c ns c₁) (hk : kind.Fits ns) :
    Reading c [⟨kind, c₁.since c.peek.start, ns⟩] c₁ :=
  (Reading.start h.regular_left).node h hk

end Reading

/-! ## Steps of the parser -/

namespace ParseM
open Lookahead
variable {α β : Type} {p : ParseM α} {c c₁ : Cursor} {ns : List Node}

/-- `p` run from `c` ends so that `Q` holds of its result and the cursor. -/
def wp (p : ParseM α) (Q : α → Cursor → Prop) (c : Cursor) : Prop := Q (p.run c).1 (p.run c).2

section
variable {Q : α → Cursor → Prop}

theorem wp_pure (a : α) : wp (pure a) Q c ↔ Q a c := Iff.rfl

theorem wp_bind {R : β → Cursor → Prop} (p : ParseM α) (f : α → ParseM β) :
    wp (p >>= f) R c ↔ wp p (fun a c' => wp (f a) R c') c := Iff.rfl

theorem wp_ite {b : Prop} [Decidable b] (p q : ParseM α) :
    wp (if b then p else q) Q c ↔ if b then wp p Q c else wp q Q c := by
  split <;> exact Iff.rfl

theorem wp_mono {R : α → Cursor → Prop} (h : wp p Q c) (hR : ∀ a c', Q a c' → R a c') : wp p R c :=
  hR _ _ h

theorem wp_and {R : α → Cursor → Prop} (h : wp p Q c) (h' : wp p R c) :
    wp p (fun a c' => Q a c' ∧ R a c') c :=
  ⟨h, h'⟩

theorem wp_of_forall (h : ∀ a c', Q a c') : wp p Q c := h _ _

theorem wp_modify {Q : Unit → Cursor → Prop} (f : Cursor → Cursor) :
    wp (modify f) Q c ↔ Q () (f c) := Iff.rfl

theorem wp_get {Q : Cursor → Cursor → Prop} : wp get Q c ↔ Q c c := Iff.rfl

theorem wp_peek {Q : Token → Cursor → Prop} : wp peek Q c ↔ Q c.peek c := Iff.rfl

theorem wp_sees {Q : Bool → Cursor → Prop} (cond : List Token → Bool) :
    wp (sees cond) Q c ↔ Q (cond c.ahead) c := Iff.rfl

theorem wp_seesKind {Q : Bool → Cursor → Prop} (kind : Token.Kind) :
    wp (seesKind kind) Q c ↔ Q (kindAt c.ahead 0 == kind) c := Iff.rfl

theorem wp_seesName {Q : Bool → Cursor → Prop} :
    wp seesName Q c ↔ Q (isNameAt c.ahead 0) c := Iff.rfl

theorem wp_close {Q : Node → Cursor → Prop} (kind : Node.Kind) (start : Mark) :
    wp (close kind start ns) Q c ↔ Q ⟨kind, c.since start, ns⟩ c := Iff.rfl

end

/-- `p` closes no node. -/
def Passes (p : ParseM α) : Prop := ∀ c, c.Regular → wp p (fun _ => Reading c []) c

/-- `p` closes the nodes that `nodes` takes out of its result, and the result satisfies `P`. -/
def Produces (p : ParseM α) (nodes : α → List Node) (P : α → Prop) : Prop :=
  ∀ c, c.Regular → wp p (fun a c' => Reading c (nodes a) c' ∧ P a) c

theorem Passes.on {Q : α → Cursor → Prop} (hp : Passes p) (h : Reading c ns c₁)
    (hQ : ∀ a c₂, Reading c ns c₂ → Q a c₂) : wp p Q c₁ :=
  hQ _ _ (h.skip (hp c₁ h.regular))

theorem Produces.on {nodes : α → List Node} {P : α → Prop} {Q : α → Cursor → Prop}
    (hp : Produces p nodes P) (h : Reading c ns c₁)
    (hQ : ∀ a c₂, P a → Reading c (ns ++ nodes a) c₂ → Q a c₂) : wp p Q c₁ :=
  hQ _ _ (hp c₁ h.regular).2 (h.trans (hp c₁ h.regular).1)

theorem Produces.passes {nodes : α → List Node} {P : α → Prop} (hp : Produces p nodes P) :
    Passes p :=
  fun c hc => (hp c hc).1.forget

theorem Produces.mono {nodes : α → List Node} {P P' : α → Prop} (hp : Produces p nodes P)
    (hP : ∀ a, P a → P' a) : Produces p nodes P' :=
  fun c hc => ⟨(hp c hc).1, hP _ (hp c hc).2⟩

variable {t : Token} {ts : List Token}

theorem run_advance (c : Cursor) :
    advance.run c =
      match c.ahead with
      | [] => (c.finish, c)
      | t :: ts => (t, c.after t ts) := rfl

theorem wp_advance_of_ahead {Q : Token → Cursor → Prop} (ha : c.ahead = t :: ts)
    (hQ : Q t (c.after t ts)) : wp advance Q c := by
  unfold wp
  rw [run_advance, ha]
  exact hQ

/-- The token ahead is read; at the end of the text nothing is. Either way it is then at hand. -/
theorem advance_on {Q : Token → Cursor → Prop} (h : Reading c ns c₁)
    (hQ : ∀ c₂, Reading c ns c₂ → c₁.peek = c₂.peek ∨ c₂.last? = some c₁.peek → Q c₁.peek c₂) :
    wp advance Q c₁ := by
  cases ha : c₁.ahead with
  | nil =>
    have hpeek : c₁.peek = c₁.finish := by simp [Cursor.peek, ha]
    unfold wp
    rw [run_advance, ha, ← hpeek]
    exact hQ c₁ h (.inl rfl)
  | cons t ts =>
    have hpeek := Cursor.peek_of_ahead ha
    refine wp_advance_of_ahead ha ?_
    rw [← hpeek]
    exact hQ _ (hpeek ▸ h.token ha) (.inr rfl)

theorem word_on {Q : Token → Cursor → Prop} (kind : Node.Kind) (hk : kind.isWord)
    (hs : ∀ s ∈ kind.spelling?, s = c₁.peek.text) (h : Reading c ns c₁) (ht : c₁.peek.kind ≠ .finish)
    (hQ : ∀ c₂, Reading c (ns ++ [.leaf kind c₁.peek.location]) c₂ → c₂.last? = some c₁.peek →
      Q c₁.peek c₂) : wp advance Q c₁ := by
  obtain ⟨ts, ha⟩ := h.regular.ahead_of_peek ht
  exact wp_advance_of_ahead ha (hQ _ (h.leaf ha hk hs) rfl)

theorem identifier_on {Q : Token → Cursor → Prop} (h : Reading c ns c₁) (hn : c₁.peek.isName)
    (hQ : ∀ c₂, Reading c (ns ++ [identifier c₁.peek]) c₂ → c₂.last? = some c₁.peek →
      Q c₁.peek c₂) : wp advance Q c₁ :=
  word_on _ rfl (by simp [Node.Kind.spelling?]) h (Token.kind_ne_finish hn) hQ

theorem literal_on {Q : Token → Cursor → Prop} (h : Reading c ns c₁)
    (ht : c₁.peek.kind ≠ .finish)
    (hQ : ∀ c₂, Reading c (ns ++ [literal c₁.peek]) c₂ → Q c₁.peek c₂) : wp advance Q c₁ :=
  word_on _ rfl (by simp [Node.Kind.spelling?]) h ht fun c₂ h₂ _ => hQ c₂ h₂

theorem passes_advance : Passes advance :=
  fun _ hc => advance_on (.start hc) fun _ h _ => h

theorem wp_accept {Q : Option Token → Cursor → Prop} {kind : Token.Kind} (hc : c.Regular)
    (hnone : Q none c) (hsome : c.peek.kind = kind → wp advance (fun t c' => Q (some t) c') c) :
    wp (accept kind) Q c := by
  unfold accept
  simp only [wp_bind, wp_seesKind, wp_ite, wp_pure]
  rw [hc.kindAt_zero]
  split
  · rename_i hk
    exact hsome (beq_iff_eq.1 hk)
  · exact hnone

theorem passes_accept (kind : Token.Kind) : Passes (accept kind) :=
  fun _ hc => wp_accept hc (.start hc) fun _ => passes_advance.on (.start hc) fun _ _ h => h

theorem passes_reportMissing (expected : String) : Passes (reportMissing expected) :=
  fun _ hc => (Reading.start hc).report _ (.inl rfl)

theorem passes_expect (kind : Token.Kind) : Passes (expect kind) := by
  intro c hc
  unfold expect
  simp only [wp_bind, wp_ite, wp_pure]
  refine (passes_accept kind).on (.start hc) fun found c₁ h₁ => ?_
  split
  · exact (passes_reportMissing _).on h₁ fun _ _ h₂ => h₂
  · exact h₁

theorem reportAt_on {Q : Unit → Cursor → Prop} (cause : Fault.Cause) (h : Reading c ns c₁)
    (ht : t = c₁.peek ∨ c₁.last? = some t) (hQ : ∀ c₂, Reading c ns c₂ → Q () c₂) :
    wp (reportAt cause t) Q c₁ :=
  hQ _ (h.report cause ht)

theorem reading_skipWhile (cond : List Token → Bool) (h : Reading c ns c₁) :
    Reading c ns (c₁.skipWhile cond) := by
  have go (last? : Option Token) (ts : List Token)
      (h : Reading c ns { c₁ with last?, ahead := ts }) :
      Reading c ns (Cursor.skipWhile.go cond c₁ last? ts) := by
    induction ts generalizing last? with
    | nil => exact h
    | cons t ts ih =>
      unfold Cursor.skipWhile.go
      split
      · exact ih _ (h.token rfl)
      · exact h
  exact go c₁.last? c₁.ahead h

theorem reading_skipRule (h : Reading c ns c₁) : Reading c ns c₁.skipRule := by
  have go (first : Bool) (last? : Option Token) (ts : List Token)
      (h : Reading c ns { c₁ with last?, ahead := ts }) :
      Reading c ns (Cursor.skipRule.go c₁ first last? ts) := by
    induction ts generalizing first last? with
    | nil => exact h
    | cons t ts ih =>
      unfold Cursor.skipRule.go
      split
      · exact h.token rfl
      · split
        · exact h
        · exact ih _ _ (h.token rfl)
  exact go true c₁.last? c₁.ahead h

theorem reading_skipParens (h : Reading c ns c₁) : Reading c ns c₁.skipParens := by
  have go (depth : Nat) (last? : Option Token) (ts : List Token)
      (h : Reading c ns { c₁ with last?, ahead := ts }) :
      Reading c ns (Cursor.skipParens.go c₁ depth last? ts) := by
    induction ts generalizing depth last? with
    | nil => exact h
    | cons t ts ih =>
      unfold Cursor.skipParens.go
      split
      · exact ih _ _ (h.token rfl)
      · exact h.token rfl
      · exact ih _ _ (h.token rfl)
      · exact ih _ _ (h.token rfl)
  exact go 0 c₁.last? c₁.ahead h

theorem passes_finishRule : Passes finishRule := by
  intro c hc
  unfold finishRule
  simp only [wp_bind, wp_ite, wp_pure, wp_sees, wp_modify]
  refine (passes_accept _).on (.start hc) fun found c₁ h₁ => ?_
  split
  · refine (passes_reportMissing _).on h₁ fun _ c₂ h₂ => ?_
    split
    · exact h₂
    · exact reading_skipRule h₂
  · exact h₁

theorem produces_collect {turn : ParseM (Option Node × Bool)} {P : Node → Prop}
    (h : Produces turn (fun r => r.1.toList) (fun r => ∀ n ∈ r.1, P n)) (turns : Nat) :
    Produces (collect turn turns) id (fun ns => ∀ n ∈ ns, P n) := by
  induction turns with
  | zero =>
    intro c hc
    unfold collect
    simp only [wp_pure]
    exact ⟨.start hc, by simp⟩
  | succ turns ih =>
    intro c hc
    unfold collect
    simp only [wp_bind, wp_ite, wp_pure]
    refine h.on (.start hc) fun (node?, more) c₁ hP h₁ => ?_
    have hnode : ∀ n ∈ node?.toList, P n := fun n hn => hP n (Option.mem_toList.1 hn)
    split
    · refine ih.on h₁ fun rest c₂ hrest h₂ => ⟨h₂, ?_⟩
      intro n hn
      rcases List.mem_append.1 hn with hn | hn
      · exact hnode n hn
      · exact hrest n hn
    · simpa using And.intro h₁ hnode

theorem produces_gather {turn : ParseM (Option Node × Bool)} {P : Node → Prop}
    (h : Produces turn (fun r => r.1.toList) (fun r => ∀ n ∈ r.1, P n)) :
    Produces (gather turn) id (fun ns => ∀ n ∈ ns, P n) :=
  fun c hc => produces_collect h (c.ahead.length + 1) c hc

/-- If each turn yields a node, there is one at least. -/
theorem produces_gather_ne_nil {turn : ParseM (Option Node × Bool)} {P : Node → Prop}
    (h : Produces turn (fun r => r.1.toList) (fun r => r.1.isSome ∧ ∀ n ∈ r.1, P n)) :
    Produces (gather turn) id (fun ns => ns ≠ [] ∧ ∀ n ∈ ns, P n) := by
  have hall := produces_gather (h.mono fun _ => And.right)
  intro c hc
  refine ⟨(hall c hc).1, ?_, (hall c hc).2⟩
  show wp (collect turn (c.ahead.length + 1)) (fun ns _ => ns ≠ []) c
  unfold collect
  simp only [wp_bind, wp_ite, wp_pure]
  refine wp_mono (h c hc) fun (node?, more) c₁ ⟨_, hsome, _⟩ => ?_
  obtain ⟨node, rfl⟩ := Option.isSome_iff_exists.1 hsome
  split
  · exact wp_of_forall fun rest _ => List.cons_ne_nil node rest
  · exact List.cons_ne_nil node []

theorem gather_on {turn : ParseM (Option Node × Bool)} {Q : List Node → Cursor → Prop}
    (kind : Node.Kind) (h : Reading c ns c₁)
    (hturn : Produces turn (fun r => r.1.toList) fun r => ∀ n ∈ r.1, kind.admits n.kind)
    (hQ : ∀ ms c₂, (∀ n ∈ ms, kind.admits n.kind) → Reading c (ns ++ ms) c₂ → Q ms c₂) :
    wp (gather turn) Q c₁ :=
  (produces_gather hturn).on h hQ

theorem produces_gatherWhile {condition : List Token → Bool} {p : ParseM Node} {P : Node → Prop}
    (h : Produces p (fun n => [n]) P) :
    Produces (gatherWhile condition p) id (fun ns => ∀ n ∈ ns, P n) := by
  refine produces_gather fun c hc => ?_
  simp only [wp_bind, wp_sees, wp_ite, wp_pure]
  split
  · refine h.on (.start hc) fun n c₁ hP h₁ => ⟨h₁, ?_⟩
    simpa using hP
  · exact ⟨.start hc, by simp⟩

theorem gatherWhile_on {condition : List Token → Bool} {p : ParseM Node}
    {Q : List Node → Cursor → Prop} (kind : Node.Kind) (h : Reading c ns c₁)
    (hp : Produces p (fun n => [n]) fun n => kind.admits n.kind)
    (hQ : ∀ ms c₂, (∀ n ∈ ms, kind.admits n.kind) → Reading c (ns ++ ms) c₂ → Q ms c₂) :
    wp (gatherWhile condition p) Q c₁ :=
  (produces_gatherWhile hp).on h hQ

end ParseM

end GrammarAtlas
