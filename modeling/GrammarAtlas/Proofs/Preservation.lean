import GrammarAtlas.Proofs.Passage

/-! # Relations that reading keeps

Between two cursors of the parser tokens are read and faults are reported. A relation that allows for
one such step at a time (`Cursor.Kept`) holds from where a production begins to where it ends
(`ParseM.Keeps`), whatever the tokens are: no production needs the text to be in order for that.
Reports of what is out of place in a grammar of its flavour are left out here. They are what rules and
modes add, which keep the relations that allow for those as well. -/

namespace GrammarAtlas

/-- What was read is in order, but has no place in a grammar of that flavour. -/
def Fault.Cause.isMisplacement : Fault.Cause → Bool
  | tokenRuleInParserGrammar _ | parserRuleInLexerGrammar _ | modeOutsideLexerGrammar _ => true
  | _ => false

/-- The relation holds from each cursor to where steps of the parser lead. -/
class Cursor.Kept (R : Cursor → Cursor → Prop) : Prop where
  refl (c : Cursor) : R c c
  trans {c c₁ c₂ : Cursor} : R c c₁ → R c₁ c₂ → R c c₂
  read {c : Cursor} {t : Token} {ts : List Token} : c.ahead = t :: ts → R c (c.after t ts)
  report {cause : Fault.Cause} (c : Cursor) (l : Location) :
    cause.isMisplacement = false → R c (c.report cause l)

theorem Cursor.Kept.next {R : Cursor → Cursor → Prop} [Kept R] {c c₁ : Cursor} {last? : Option Token}
    {t : Token} {ts : List Token} (h : R c { c₁ with last?, ahead := t :: ts }) :
    R c { c₁ with last? := some t, ahead := ts } :=
  trans h (read (R := R) (c := { c₁ with last?, ahead := t :: ts }) rfl)

namespace ParseM
open Lookahead Cursor
variable {α β : Type} {R : Cursor → Cursor → Prop}

/-- The relation holds from where `p` begins to where it ends. -/
def Keeps (R : Cursor → Cursor → Prop) (p : ParseM α) : Prop := ∀ c, wp p (fun _ => R c) c

theorem Keeps.ite {b : Prop} [Decidable b] {p q : ParseM α} (hp : Keeps R p) (hq : Keeps R q) :
    Keeps R (if b then p else q) := by
  split
  · exact hp
  · exact hq

variable [Kept R]

namespace Keeps
variable {p : ParseM α} {f : α → ParseM β}

theorem pure (a : α) : Keeps R (Pure.pure a) := fun c => Kept.refl c

theorem bind (hp : Keeps R p) (hf : ∀ a, Keeps R (f a)) : Keeps R (p >>= f) :=
  fun c => Kept.trans (hp c) (hf _ _)

theorem get_bind {f : Cursor → ParseM β} (hf : ∀ c, Keeps R (f c)) : Keeps R (get >>= f) :=
  bind (fun c => Kept.refl c) hf

theorem peek_bind {f : Token → ParseM β} (hf : ∀ t, Keeps R (f t)) : Keeps R (peek >>= f) :=
  bind (fun c => Kept.refl c) hf

theorem sees_bind {cond : List Token → Bool} {f : Bool → ParseM β} (hf : ∀ b, Keeps R (f b)) :
    Keeps R (sees cond >>= f) :=
  bind (fun c => Kept.refl c) hf

end Keeps

theorem keeps_close (kind : Node.Kind) (start : Mark) (children : List Node) :
    Keeps R (close kind start children) := fun c => Kept.refl c

theorem keeps_advance : Keeps R advance := by
  intro c
  unfold wp
  rw [run_advance]
  split
  · exact Kept.refl c
  · exact Kept.read ‹_›

/-- `p` reads the token ahead, if there is one, and keeps the relation from there on. -/
def Leads (R : Cursor → Cursor → Prop) (p : ParseM α) : Prop :=
  ∃ f : Token → ParseM α, p = advance >>= f ∧ ∀ t, Keeps R (f t)

omit [Kept R] in
theorem Leads.intro {f : Token → ParseM α} (hf : ∀ t, Keeps R (f t)) : Leads R (advance >>= f) :=
  ⟨f, rfl, hf⟩

theorem Leads.keeps {p : ParseM α} (h : Leads R p) : Keeps R p := by
  obtain ⟨f, rfl, hf⟩ := h
  exact .bind keeps_advance hf

/-- `p` looks at the token ahead, and reads it first if it satisfies `q`. -/
def Tries (R : Cursor → Cursor → Prop) (q : Token → Bool) (p : ParseM α) : Prop :=
  ∃ f : Token → ParseM α, p = peek >>= f ∧ ∀ t, Keeps R (f t) ∧ (q t → Leads R (f t))

theorem Tries.keeps {q : Token → Bool} {p : ParseM α} (h : Tries R q p) : Keeps R p := by
  obtain ⟨f, rfl, hf⟩ := h
  exact .peek_bind fun t => (hf t).1

theorem Leads.tries {p : ParseM α} (h : Leads R p) (b : Bool) : Keeps R p ∧ (b → Leads R p) :=
  ⟨h.keeps, fun _ => h⟩

theorem keeps_accept (kind : Token.Kind) : Keeps R (accept kind) := by
  refine .sees_bind fun found => .ite ?_ (.pure none)
  exact .bind keeps_advance fun t => .pure (some t)

theorem keeps_reportMissing (expected : String) : Keeps R (reportMissing expected) := by
  refine fun c => Kept.report c c.peek.location ?_
  split <;> rfl

theorem keeps_expect (kind : Token.Kind) : Keeps R (expect kind) := by
  refine .bind (keeps_accept kind) fun found => .ite ?_ (.pure found)
  exact .bind (keeps_reportMissing _) fun _ => .pure found

theorem keeps_tooDeep (limit : Nat) (t : Token) : Keeps R (reportAt (.tooDeep limit) t) :=
  fun c => Kept.report c t.location rfl

theorem keeps_skipWhile (cond : List Token → Bool) : Keeps R (modify (·.skipWhile cond)) := by
  intro c
  have go (last? : Option Token) (ts : List Token) (h : R c { c with last?, ahead := ts }) :
      R c (Cursor.skipWhile.go cond c last? ts) := by
    induction ts generalizing last? with
    | nil => exact h
    | cons t ts ih =>
      unfold Cursor.skipWhile.go
      split
      · exact ih _ (Kept.next h)
      · exact h
  exact go c.last? c.ahead (Kept.refl c)

theorem keeps_skipRule : Keeps R (modify Cursor.skipRule) := by
  intro c
  have go (first : Bool) (last? : Option Token) (ts : List Token)
      (h : R c { c with last?, ahead := ts }) : R c (Cursor.skipRule.go c first last? ts) := by
    induction ts generalizing first last? with
    | nil => exact h
    | cons t ts ih =>
      have hnext : R c { c with last? := some t, ahead := ts } := Kept.next h
      unfold Cursor.skipRule.go
      split
      · exact hnext
      split
      · exact h
      · exact ih _ _ hnext
  exact go true c.last? c.ahead (Kept.refl c)

theorem keeps_skipParens : Keeps R (modify Cursor.skipParens) := by
  intro c
  have go (depth : Nat) (last? : Option Token) (ts : List Token)
      (h : R c { c with last?, ahead := ts }) : R c (Cursor.skipParens.go c depth last? ts) := by
    induction ts generalizing depth last? with
    | nil => exact h
    | cons t ts ih =>
      have hnext : R c { c with last? := some t, ahead := ts } := Kept.next h
      unfold Cursor.skipParens.go
      split
      · exact ih _ _ hnext
      · exact hnext
      · exact ih _ _ hnext
      · exact ih _ _ hnext
  exact go 0 c.last? c.ahead (Kept.refl c)

theorem keeps_collect {turn : ParseM (Option Node × Bool)} (h : Keeps R turn) (turns : Nat) :
    Keeps R (collect turn turns) := by
  induction turns with
  | zero => exact .pure []
  | succ turns ih =>
    refine .bind h fun (node?, more) => .ite ?_ (.pure _)
    exact .bind ih fun rest => .pure _

theorem keeps_gather {turn : ParseM (Option Node × Bool)} (h : Keeps R turn) :
    Keeps R (gather turn) :=
  .get_bind fun _ => keeps_collect h _

theorem keeps_gatherWhile {condition : List Token → Bool} {p : ParseM Node} (h : Keeps R p) :
    Keeps R (gatherWhile condition p) := by
  refine keeps_gather (.sees_bind fun b => .ite ?_ (.pure _))
  exact .bind h fun n => .pure _

theorem keeps_finishRule : Keeps R finishRule := by
  refine .bind (keeps_accept .semicolon) fun found => .ite ?_ (.pure ())
  refine .bind (keeps_reportMissing _) fun _ => .sees_bind fun starts => ?_
  exact .ite (.pure ()) keeps_skipRule

theorem keeps_skipGarbage : Keeps R skipGarbage := by
  refine .peek_bind fun t => .bind (keeps_reportMissing _) fun _ => .bind keeps_advance fun _ => ?_
  exact .bind (keeps_skipWhile _) fun _ => keeps_close _ _ _

theorem tries_header (flavour : Flavour) : Tries R (fun _ => true) (header flavour) := by
  refine ⟨_, rfl, fun t => Leads.tries ?_ _⟩
  extract_lets start children close word
  have hclose (u : Unit) (children : List Node) : Keeps R (close u children) :=
    .bind (keeps_expect _) fun _ => keeps_close _ _ _
  have hword (u : Unit) : Leads R (word u) := by
    refine .intro fun _ => .sees_bind fun named => .ite ?_ ?_
    · exact .bind keeps_advance fun name => hclose () _
    · exact .bind (keeps_reportMissing _) fun u => hclose u _
  split
  · exact .intro fun _ => (hword ()).keeps
  · exact hword ()

theorem keeps_dottedParts (turns : Nat) : Keeps R (dottedParts turns) := by
  induction turns with
  | zero => exact .pure ""
  | succ turns ih =>
    refine .sees_bind fun dotted => .ite ?_ (.pure "")
    exact .bind keeps_advance fun dot => .bind keeps_advance fun part => .bind ih fun parts => .pure _

theorem keeps_optionValue : Keeps R optionValue := by
  unfold optionValue
  refine .peek_bind fun t => ?_
  have hname : Keeps R (do
      let _ ← advance
      let parts ← dottedParts (← get).ahead.length
      return some (← close (.identifier (t.text ++ parts)) t.start [])) := by
    refine .bind keeps_advance fun _ => .get_bind fun c => ?_
    exact .bind (keeps_dottedParts _) fun parts => .bind (keeps_close _ _ _) fun n => .pure _
  have hliteral : Keeps R (do let _ ← advance; return some (literal t)) :=
    .bind keeps_advance fun _ => .pure _
  split
  · exact hname
  · exact hname
  · exact hliteral
  · exact hliteral
  · exact .bind keeps_advance fun _ => .bind (keeps_close _ _ _) fun n => .pure _
  · exact .bind (keeps_reportMissing _) fun _ => .pure none

theorem tries_optionEntry : Tries R Token.isName optionEntry := by
  refine ⟨_, rfl, fun key => ?_⟩
  cases hname : key.isName with
  | false => exact ⟨.bind (keeps_reportMissing _) fun _ => .pure none, nofun⟩
  | true =>
    refine Leads.tries (.intro fun _ => ?_) _
    refine .bind (keeps_expect _) fun equals? => .ite (.pure none) ?_
    refine .bind keeps_optionValue fun value? => ?_
    cases value? with
    | none => exact .pure none
    | some value =>
      exact .bind (keeps_expect _) fun _ => .bind (keeps_close _ _ _) fun n => .pure _

theorem leads_options : Leads R options := by
  refine .intro fun t => .bind keeps_advance fun _ => .bind (keeps_gather ?_) fun ns => ?_
  · refine .sees_bind fun ends => .ite (.pure _) (.bind tries_optionEntry.keeps fun option? => .ite ?_ (.pure _))
    exact .bind (keeps_skipWhile _) fun _ => .bind (keeps_accept _) fun _ => .pure _
  · exact .bind (keeps_expect _) fun _ => keeps_close _ _ _

theorem leads_delegate (first : Token) : Leads R (delegate first) := by
  refine .intro fun _ => .bind (keeps_accept _) fun equals? => .ite ?_ (keeps_close _ _ _)
  refine .peek_bind fun second => .ite (.bind keeps_advance fun _ => keeps_close _ _ _) ?_
  exact .bind (keeps_reportMissing _) fun _ => keeps_close _ _ _

theorem leads_delegates : Leads R delegates := by
  refine .intro fun t => .bind (keeps_gather ?_) fun ns => ?_
  · refine .peek_bind fun first => .ite ?_ (.bind (keeps_reportMissing _) fun _ => .pure _)
    exact .bind (leads_delegate first).keeps fun n => .bind (keeps_accept _) fun comma? => .pure _
  · exact .bind (keeps_expect _) fun _ => keeps_close _ _ _

theorem leads_nameList (kind : Node.Kind) : Leads R (nameList kind) := by
  refine .intro fun t => .bind keeps_advance fun _ => .bind (keeps_gather ?_) fun ns => ?_
  · refine .sees_bind fun named => .ite ?_ (.pure _)
    exact .bind keeps_advance fun name => .bind (keeps_accept _) fun comma? => .pure _
  · exact .bind (keeps_expect _) fun _ => keeps_close _ _ _

theorem keeps_actionName : Keeps R actionName := by
  refine .sees_bind fun named => .ite (.bind keeps_advance fun name => .pure _) ?_
  exact .bind (keeps_reportMissing _) fun _ => .pure none

theorem leads_namedAction : Leads R namedAction := by
  unfold namedAction
  refine .intro fun t => ?_
  extract_lets start finish
  have hfinish (u : Unit) (name : String) : Keeps R (finish u name) :=
    .bind (keeps_expect _) fun _ => keeps_close _ _ _
  refine .bind keeps_actionName fun name? => .bind (keeps_accept _) fun colons? => ?_
  refine .ite (.bind keeps_actionName fun part? => ?_) (hfinish () _)
  cases part? with
  | none => exact hfinish () _
  | some part => exact hfinish () _

theorem keeps_prequel : Keeps R prequel := by
  refine .sees_bind fun _ => .ite (.bind leads_options.keeps fun n => .pure _) ?_
  refine .sees_bind fun _ => .ite (.bind (leads_nameList _).keeps fun n => .pure _) ?_
  refine .sees_bind fun _ => .ite (.bind (leads_nameList _).keeps fun n => .pure _) ?_
  refine .sees_bind fun _ => .ite (.bind leads_delegates.keeps fun n => .pure _) ?_
  exact .sees_bind fun _ => .ite (.bind leads_namedAction.keeps fun n => .pure _) (.pure none)

/-! ## Bodies of rules -/

theorem leads_command (name : Token) : Leads R (command name) := by
  unfold command
  refine .intro fun _ => ?_
  extract_lets arguments finish closing
  have hfinish (u : Unit) (arguments : List Node) : Keeps R (finish u arguments) := keeps_close _ _ _
  have hclosing (u : Unit) (arguments : List Node) : Keeps R (closing u arguments) :=
    .bind (keeps_expect _) fun _ => hfinish () _
  refine .bind (keeps_accept _) fun paren? => .ite (.peek_bind fun argument => ?_) (hfinish () _)
  refine .ite (.bind keeps_advance fun _ => hclosing () _) (.ite ?_ ?_)
  · exact .bind keeps_advance fun _ => hclosing () _
  · exact .bind (keeps_reportMissing _) fun _ => hclosing () _

theorem leads_commands : Leads R commands := by
  refine .intro fun t => .bind (keeps_gather ?_) fun ns => keeps_close _ _ _
  refine .peek_bind fun name => .ite ?_ (.bind (keeps_reportMissing _) fun _ => .pure _)
  exact .bind (leads_command name).keeps fun n => .bind (keeps_accept _) fun comma? => .pure _

theorem keeps_repeated (start : Mark) (n : Node) : Keeps R (repeated start n) := by
  unfold repeated
  refine .peek_bind fun sign => ?_
  extract_lets repetition?
  cases repetition? with
  | none => exact .pure n
  | some repetition =>
    exact .bind keeps_advance fun _ => .bind (keeps_accept _) fun lazy? => keeps_close _ _ _

/-- Both productions that lead further in keep the relation. -/
structure Nested.Keeps (R : Cursor → Cursor → Prop) (nested : Nested) : Prop where
  block : Leads R nested.block
  atom : Tries R (fun t => startsAtom [t]) nested.atom

section
variable {nested : Nested} (h : nested.Keeps R)
include h

theorem keeps_labelTarget : Keeps R (labelTarget nested) := by
  refine .sees_bind fun paren => .ite h.block.keeps (.sees_bind fun starts => .ite h.atom.keeps ?_)
  exact .bind (keeps_reportMissing _) fun _ => .peek_bind fun t => keeps_close _ _ _

/-- An element with a label, which starts at `t`. -/
theorem leads_labeled (t : Token) : Leads R (do
    let _ ← advance
    let additive := (← advance).kind == .plusEquals
    let target ← labelTarget nested
    repeated t.start (← close (.labeled t.text additive) t.start [target])) := by
  refine .intro fun _ => .bind keeps_advance fun sign => .bind (keeps_labelTarget h) fun target => ?_
  exact .bind (keeps_close _ _ _) fun n => keeps_repeated _ n

omit h in
/-- An action, which is a predicate if a question mark follows. -/
theorem keeps_action (start : Mark) : Keeps R (do
    if (← accept .question).isSome then
      let _ ← accept .angle
      close .predicate start []
    else
      close .action start []) :=
  .bind (keeps_accept _) fun _ =>
    .ite (.bind (keeps_accept _) fun _ => keeps_close _ _ _) (keeps_close _ _ _)

theorem keeps_element : Keeps R (element nested) := by
  refine .peek_bind fun t => .sees_bind fun labels => .ite (leads_labeled h t).keeps ?_
  refine .sees_bind fun paren => .ite (.bind h.block.keeps fun n => keeps_repeated _ n) ?_
  refine .bind (keeps_accept _) fun action? => .ite (keeps_action _) ?_
  exact .bind h.atom.keeps fun n => keeps_repeated _ n

theorem keeps_alternative : Keeps R (alternative nested) := by
  unfold alternative
  refine .peek_bind fun t => ?_
  extract_lets start children label? elements
  have helements (u : Unit) (ns : List Node) : Keeps R (elements u ns) := by
    have hturn : Keeps R (do if ← sees startsElement then element nested else skipGarbage) :=
      .sees_bind fun starts => .ite (keeps_element h) keeps_skipGarbage
    refine .bind (keeps_gatherWhile hturn) fun ms => ?_
    extract_lets all commanded
    have hcommanded (u : Unit) (label? : Option String) : Keeps R (commanded u label?) := by
      refine .sees_bind fun arrow => .ite ?_ (keeps_close _ _ _)
      exact .bind leads_commands.keeps fun n => keeps_close _ _ _
    refine .bind (keeps_accept _) fun hash? => .ite (.sees_bind fun named => ?_) (hcommanded () _)
    refine .ite (.bind keeps_advance fun name => hcommanded () _) ?_
    exact .bind (keeps_reportMissing _) fun _ => hcommanded () _
  refine .bind (keeps_accept _) fun options? => ?_
  cases options? with
  | none => exact helements () _
  | some options => exact .bind (keeps_close _ _ _) fun n => helements () _

theorem keeps_alternativeList : Keeps R (alternativeList nested) := by
  refine keeps_gather (.bind (keeps_alternative h) fun n => ?_)
  exact .bind (keeps_accept _) fun bar? => .pure _

theorem leads_block : Leads R (block nested) := by
  unfold block
  refine .intro fun t => ?_
  extract_lets start body
  have hbody (u : Unit) : Keeps R (body u) := by
    refine .bind (keeps_alternativeList h) fun ns => ?_
    exact .bind (keeps_expect _) fun _ => keeps_close _ _ _
  refine .sees_bind fun starts => .ite (.bind leads_options.keeps fun _ => ?_) (hbody ())
  exact .bind (keeps_expect _) fun _ => hbody ()

end

theorem leads_deepBlock : Leads R deepBlock := by
  refine .intro fun opening => .bind (keeps_tooDeep _ _) fun _ => ?_
  exact .bind keeps_skipParens fun _ => keeps_close _ _ _

theorem keeps_negand (sign : Token) {nested? : Option Nested} (h : ∀ nested ∈ nested?, nested.Keeps R) :
    Keeps R (negand sign nested?) := by
  cases nested? with
  | none =>
    refine .bind (keeps_tooDeep _ _) fun _ => .bind (keeps_skipWhile _) fun _ => ?_
    exact keeps_close _ _ _
  | some nested =>
    obtain ⟨hblock, hatom⟩ := h nested rfl
    refine .sees_bind fun paren => .ite hblock.keeps (.sees_bind fun starts => .ite hatom.keeps ?_)
    exact .bind (keeps_reportMissing _) fun _ => .peek_bind fun t => keeps_close _ _ _

theorem tries_atom {nested? : Option Nested} (h : ∀ nested ∈ nested?, nested.Keeps R) :
    Tries R (fun t => startsAtom [t]) (atom nested?) := by
  refine ⟨_, rfl, fun t => ?_⟩
  split
  · exact Leads.tries (.intro fun _ => .bind (keeps_accept _) fun _ => .pure _) _
  · refine Leads.tries (.intro fun _ => .bind (keeps_accept _) fun _ => ?_) _
    exact .bind (keeps_accept _) fun _ => .pure _
  · refine Leads.tries (.intro fun _ => ?_) _
    extract_lets children finish
    have hfinish (u : Unit) (ns : List Node) : Keeps R (finish u ns) := keeps_close _ _ _
    refine .bind (keeps_accept _) fun dots? => .ite (.bind (keeps_accept _) fun last? => ?_) ?_
    · cases last? with
      | some last => exact hfinish () _
      | none => exact .bind (keeps_reportMissing _) fun _ => hfinish () _
    · exact .bind (keeps_accept _) fun _ => .pure _
  · exact Leads.tries (.intro fun _ => .pure _) _
  · exact Leads.tries (.intro fun _ => .bind (keeps_accept _) fun _ => keeps_close _ _ _) _
  · exact Leads.tries (.intro fun _ => .bind (keeps_negand t h) fun n => keeps_close _ _ _) _
  · refine ⟨.bind (keeps_reportMissing _) fun _ => keeps_close _ _ _, fun hs => ?_⟩
    simp only [startsAtom, kindAt, List.getElem?_cons_zero] at hs
    cases hs

/-- By induction on the levels that are left. -/
theorem Nested.keeps_within (room : Nat) : (Nested.within room).Keeps R := by
  induction room with
  | zero => exact ⟨leads_deepBlock, tries_atom nofun⟩
  | succ room ih =>
    refine ⟨leads_block ih, tries_atom ?_⟩
    rintro _ ⟨⟩
    exact ⟨leads_block ih, ih.atom⟩

theorem keeps_alternatives : Keeps R alternatives := by
  refine .peek_bind fun t => .bind (keeps_alternativeList (Nested.keeps_within _)) fun ns => ?_
  exact keeps_close _ _ _

theorem keeps_clause (w : String) : Keeps R (clause w) := by
  refine .sees_bind fun starts => .ite (.bind keeps_advance fun _ => ?_) (.pure [])
  exact .bind keeps_advance fun argument => .bind (keeps_close _ _ _) fun n => .pure _

theorem keeps_throwsClause : Keeps R throwsClause := by
  refine .sees_bind fun starts => .ite (.bind keeps_advance fun _ => ?_) (.pure ())
  refine .bind (keeps_gather (.sees_bind fun named => .ite ?_ (.pure _))) fun _ => .pure ()
  exact .bind keeps_advance fun _ => .bind (keeps_accept _) fun comma? => .pure _

theorem keeps_rulePrequel : Keeps R rulePrequel := by
  unfold rulePrequel
  extract_lets children rest
  have hturn : Keeps R (do
      if ← sees (startsBlock · "options") then return (some (← options), true)
      else if ← seesKind .atSign then return (some (← namedAction), true)
      else return (none, false)) := by
    refine .sees_bind fun _ => .ite (.bind leads_options.keeps fun n => .pure _) ?_
    exact .sees_bind fun _ => .ite (.bind leads_namedAction.keeps fun n => .pure _) (.pure _)
  have hrest (u : Unit) (ns : List Node) : Keeps R (rest u ns) := by
    refine .bind (keeps_clause _) fun returns => .bind keeps_throwsClause fun _ => ?_
    exact .bind (keeps_clause _) fun locals => .bind (keeps_gather hturn) fun ms => .pure _
  refine .bind (keeps_accept _) fun arguments? => ?_
  cases arguments? with
  | none => exact hrest () _
  | some arguments => exact .bind (keeps_close _ _ _) fun n => hrest () _

theorem leads_handler : Leads R handler := by
  unfold handler
  refine .intro fun word => ?_
  extract_lets body
  have hbody (u : Unit) : Keeps R (body u) := .bind (keeps_expect _) fun _ => keeps_close _ _ _
  exact .ite (.bind (keeps_expect _) fun _ => hbody ()) (hbody ())

theorem keeps_ruleModifiers (turns : Nat) : Keeps R (ruleModifiers turns) := by
  induction turns with
  | zero => exact .pure false
  | succ turns ih =>
    refine .sees_bind fun goesOn => .ite ?_ (.pure false)
    exact .bind keeps_advance fun word => .bind ih fun later => .pure _

/-- Reports the cause at a token if the condition holds. -/
def reportIf (b : Prop) [Decidable b] (cause : Fault.Cause) (t : Token) : ParseM Unit :=
  if b then reportAt cause t else pure ()

/-- What is read of a token rule behind its name. -/
def tokenRuleRest (start : Mark) (fragment : Bool) (name : Token) : ParseM Node := do
  let mut children := [identifier name]
  if ← sees (startsBlock · "options") then
    children := children ++ [← options]
  if (← expect .colon).isNone then
    modify Cursor.skipRule
  else
    children := children ++ [← alternatives]
    finishRule
  close (.tokenRule fragment) start children

theorem tokenRule_eq (flavour : Flavour) (start : Mark) (fragment : Bool) (name : Token) :
    tokenRule flavour start fragment name = (do
      let _ ← advance
      reportIf (flavour = .parser) (.tokenRuleInParserGrammar name.text) name
      tokenRuleRest start fragment name) := by
  cases flavour <;> rfl

theorem keeps_tokenRuleRest (start : Mark) (fragment : Bool) (name : Token) :
    Keeps R (tokenRuleRest start fragment name) := by
  unfold tokenRuleRest
  extract_lets children finish colon
  have hfinish (u : Unit) (ns : List Node) : Keeps R (finish u ns) := keeps_close _ _ _
  have hcolon (u : Unit) (ns : List Node) : Keeps R (colon u ns) := by
    refine .bind (keeps_expect _) fun colon? => .ite (.bind keeps_skipRule fun _ => hfinish () _) ?_
    exact .bind keeps_alternatives fun n => .bind keeps_finishRule fun _ => hfinish () _
  refine .sees_bind fun starts => .ite (.bind leads_options.keeps fun n => hcolon () _) (hcolon () _)

/-- What is read of a parser rule behind its name. -/
def parserRuleRest (start : Mark) (name : Token) : ParseM Node := do
  let mut children := identifier name :: (← rulePrequel)
  if (← expect .colon).isNone then
    modify Cursor.skipRule
  else
    children := children ++ [← alternatives]
    finishRule
    children := children ++ (← gatherWhile startsHandler handler)
  close .parserRule start children

theorem parserRule_eq (flavour : Flavour) (start : Mark) (name : Token) :
    parserRule flavour start name = (do
      let _ ← advance
      reportIf (flavour = .lexer) (.parserRuleInLexerGrammar name.text) name
      parserRuleRest start name) := by
  cases flavour <;> rfl

theorem keeps_parserRuleRest (start : Mark) (name : Token) : Keeps R (parserRuleRest start name) := by
  unfold parserRuleRest
  extract_lets finish
  have hfinish (u : Unit) (ns : List Node) : Keeps R (finish u ns) := keeps_close _ _ _
  refine .bind keeps_rulePrequel fun ns => .bind (keeps_expect _) fun colon? => .ite ?_ ?_
  · exact .bind keeps_skipRule fun _ => hfinish () _
  · refine .bind keeps_alternatives fun n => .bind keeps_finishRule fun _ => ?_
    exact .bind (keeps_gatherWhile leads_handler.keeps) fun handlers => hfinish () _

/-- A mode is its lead and the rules behind that. -/
theorem modeSection_eq (flavour : Flavour) :
    modeSection flavour = (do
      let start := (← advance).start
      let name ← advance
      reportIf (flavour ≠ .lexer) (.modeOutsideLexerGrammar name.text) name
      let _ ← expect .semicolon
      let rules ← gatherWhile (fun ahead => !ahead.isEmpty && !startsMode ahead) (rule flavour)
      close .modeSection start (identifier name :: rules)) := by
  cases flavour <;> rfl

theorem keeps_grammarHeader : Keeps R grammarHeader := by
  refine .get_bind fun c => ?_
  split
  · exact .bind (tries_header _).keeps fun n => .pure _
  · exact .peek_bind fun t => .bind (fun c => Kept.report c t.location rfl) fun _ => .pure _

end ParseM

end GrammarAtlas
