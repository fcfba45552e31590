import GrammarAtlas.Proofs.Levels

/-! # Reading with a counter

`Nested.within` builds the productions of a body for the levels of nesting that are left, so that
they need not count. Here the productions call each other as they please, and count: a block or a
negation asks how many levels are open, opens one more, and closes it again.

`Calls.within bottom turns` allows `turns` calls within each other. What a call further within does
is up to `bottom`, and as `bottom` may be anything, none is made if `turns` are three for each level
that is left (`Calls.suffice`). `Follows` says that the counter is back in its place, that it did
not pass the limit, and that all else is as without it. So it is for whole texts
(`Grammar.parseCounting_eq`). -/

namespace GrammarAtlas

/-- How many levels are open, and how many were at most. -/
structure Nesting where
  depth : Nat
  peak : Nat
  depth_le_peak : depth ≤ peak

namespace Nesting

/-- Nothing is open yet. -/
def start : Nesting := ⟨0, 0, Nat.le_refl 0⟩

def enter (s : Nesting) : Nesting := ⟨s.depth + 1, max s.peak (s.depth + 1), Nat.le_max_right _ _⟩

def leave (s : Nesting) : Nesting :=
  ⟨s.depth - 1, s.peak, Nat.le_trans (Nat.sub_le _ _) s.depth_le_peak⟩

theorem depth_leave (s : Nesting) : s.leave.depth = s.depth - 1 := rfl

end Nesting

/-- Reading with a counter at hand. -/
abbrev CountingM := StateT Nesting ParseM

namespace CountingM
open ParseM Lookahead

def depth : CountingM Nat := return (← getThe Nesting).depth

def enter : CountingM Unit := modifyThe Nesting Nesting.enter

def leave : CountingM Unit := modifyThe Nesting Nesting.leave

def collect (turn : CountingM (Option Node × Bool)) : Nat → CountingM (List Node)
  | 0 => return []
  | turns + 1 => do
    let (node?, more) ← turn
    let rest ← if more then collect turn turns else pure []
    return node?.toList ++ rest

def gather (turn : CountingM (Option Node × Bool)) : CountingM (List Node) := do
  collect turn ((← getThe Cursor).ahead.length + 1)

def gatherWhile (condition : List Token → Bool) (p : CountingM Node) : CountingM (List Node) :=
  gather do
    if ← sees condition then return (some (← p), true) else return (none, false)

/-- The productions that call each other. -/
structure Calls where
  element : CountingM Node
  atom : CountingM Node
  block : CountingM Node

variable (calls : Calls)

def labelTarget : CountingM Node := do
  if ← seesKind .openParen then calls.block
  else if ← sees startsAtom then calls.atom
  else
    reportMissing "labeled element"
    close .error (← peek).start []

def element : CountingM Node := do
  let t ← peek
  if t.isName && (← sees fun ahead => kindAt ahead 1 == .equals || kindAt ahead 1 == .plusEquals)
  then
    let _ ← advance
    let additive := (← advance).kind == .plusEquals
    let target ← labelTarget calls
    repeated t.start (← close (.labeled t.text additive) t.start [target])
  else if ← seesKind .openParen then
    repeated t.start (← calls.block)
  else if (← accept .action).isSome then
    if (← accept .question).isSome then
      let _ ← accept .angle
      close .predicate t.start []
    else
      close .action t.start []
  else
    repeated t.start (← calls.atom)

def alternative : CountingM Node := do
  let start := (← peek).start
  let mut children := []
  if let some options ← accept .angle then
    children := [← close .elementOptions options.start []]
  let elements ← gatherWhile (fun ahead => !endsAlternative ahead) do
    if ← sees startsElement then calls.element else skipGarbage
  children := children ++ elements
  let mut label? := none
  if (← accept .hash).isSome then
    if ← seesName then
      label? := some (← advance).text
    else
      reportMissing "alternative label"
  if ← seesKind .arrow then
    children := children ++ [← commands]
  close (.alternative label?) start children

def alternativeList : CountingM (List Node) :=
  gather do
    let node ← alternative calls
    return (some node, (← accept .bar).isSome)

def block : CountingM Node := do
  let opening ← advance
  if nestingLimit ≤ (← depth) then
    reportAt (.tooDeep nestingLimit) opening
    modifyThe Cursor Cursor.skipParens
    close .error opening.start []
  else
    enter
    if ← sees (startsBlock · "options") then
      let _ ← options
      let _ ← expect .colon
    let children ← alternativeList calls
    leave
    let _ ← expect .closeParen
    close .block opening.start children

def negand (sign : Token) : CountingM Node := do
  if nestingLimit ≤ (← depth) then
    reportAt (.tooDeep nestingLimit) sign
    modifyThe Cursor (·.skipWhile fun ahead => kindAt ahead 0 == .tilde)
    close .error sign.start []
  else if ← seesKind .openParen then
    calls.block
  else if ← sees startsAtom then
    enter
    let node ← calls.atom
    leave
    return node
  else
    reportMissing "set element"
    close .error (← peek).start []

/-- Of the atoms, only negations lead further in. -/
def atom : CountingM Node := do
  let t ← peek
  if t.kind = .tilde then
    let _ ← advance
    let target ← negand calls t
    close .negated t.start [target]
  else
    ParseM.atom none

def alternatives : CountingM Node := do
  let start := (← peek).start
  let children ← alternativeList calls
  close .alternatives start children

def tokenRule (flavour : Flavour) (start : Mark) (fragment : Bool) (name : Token) :
    CountingM Node := do
  let _ ← advance
  if flavour = .parser then reportAt (.tokenRuleInParserGrammar name.text) name
  let mut children := [identifier name]
  if ← sees (startsBlock · "options") then
    children := children ++ [← options]
  if (← expect .colon).isNone then
    modifyThe Cursor Cursor.skipRule
  else
    children := children ++ [← alternatives calls]
    finishRule
  close (.tokenRule fragment) start children

def parserRule (flavour : Flavour) (start : Mark) (name : Token) : CountingM Node := do
  let _ ← advance
  if flavour = .lexer then reportAt (.parserRuleInLexerGrammar name.text) name
  let mut children := identifier name :: (← rulePrequel)
  if (← expect .colon).isNone then
    modifyThe Cursor Cursor.skipRule
  else
    children := children ++ [← alternatives calls]
    finishRule
    children := children ++ (← ParseM.gatherWhile startsHandler handler)
  close .parserRule start children

def rule (flavour : Flavour) : CountingM Node := do
  let start := (← peek).start
  let fragment ← ruleModifiers (← getThe Cursor).ahead.length
  let name ← peek
  match name.kind with
  | .upperName => tokenRule calls flavour start fragment name
  | .lowerName => parserRule calls flavour start name
  | _ =>
    reportMissing "rule name"
    modifyThe Cursor Cursor.skipRule
    close .error start []

def modeSection (flavour : Flavour) : CountingM Node := do
  let start := (← advance).start
  let name ← advance
  if flavour ≠ .lexer then reportAt (.modeOutsideLexerGrammar name.text) name
  let _ ← expect .semicolon
  let rules ← gatherWhile (fun ahead => !ahead.isEmpty && !startsMode ahead) (rule calls flavour)
  close .modeSection start (identifier name :: rules)

def grammarPart (flavour : Flavour) : CountingM Node := do
  if let some node ← prequel then return node
  else if ← sees startsMode then modeSection calls flavour
  else rule calls flavour

def grammar : CountingM Node := do
  let (first, flavour) ← grammarHeader
  let parts ← gatherWhile (fun ahead => !ahead.isEmpty) (grammarPart calls flavour)
  return ⟨.grammar, ⟨.origin, (← getThe Cursor).finish.stop⟩, first ++ parts⟩

/-! ## Calls -/

/-- Calls within calls, up to `turns` deep. What a call further within does is up to `bottom`. -/
def Calls.within (bottom : Calls) : Nat → Calls
  | 0 => bottom
  | turns + 1 =>
    let inner := within bottom turns
    ⟨CountingM.element inner, CountingM.atom inner, CountingM.block inner⟩

end CountingM

/-! ## Following -/

/-- From the counter at `d`, `p` does what `q` does and leaves the counter at `d'`, and the limit is
not passed on the way. -/
def Follows {α : Type} (d d' : Nat) (p : CountingM α) (q : ParseM α) : Prop :=
  ∀ (s : Nesting) (c : Cursor), s.depth = d → s.peak ≤ nestingLimit →
    ∃ s' : Nesting, s'.depth = d' ∧ s.peak ≤ s'.peak ∧ s'.peak ≤ nestingLimit ∧
      (p.run s).run c = (((q.run c).1, s'), (q.run c).2)

namespace Follows
open CountingM
variable {α β : Type} {d d' d'' : Nat} {p : CountingM α} {q : ParseM α} {f : α → CountingM β}
  {g : α → ParseM β}

theorem lift (q : ParseM α) : Follows d d (liftM q) q :=
  fun s _ hs hpeak => ⟨s, hs, le_rfl, hpeak, rfl⟩

theorem pure (a : α) : Follows d d (Pure.pure a) (Pure.pure a) :=
  fun s _ hs hpeak => ⟨s, hs, le_rfl, hpeak, rfl⟩

theorem bind (hp : Follows d d' p q) (hf : ∀ a, Follows d' d'' (f a) (g a)) :
    Follows d d'' (p >>= f) (q >>= g) := by
  intro s c hs hpeak
  obtain ⟨s', hs', hle, hpeak', hrun⟩ := hp s c hs hpeak
  obtain ⟨s'', hs'', hle', hpeak'', hrun'⟩ := hf (q.run c).1 s' (q.run c).2 hs' hpeak'
  refine ⟨s'', hs'', hle.trans hle', hpeak'', ?_⟩
  rw [StateT.run_bind, StateT.run_bind, hrun]
  exact hrun'

theorem lift_bind (hf : ∀ a, Follows d d' (f a) (g a)) :
    Follows d d' (liftM q >>= f) (q >>= g) :=
  (lift q).bind hf

theorem depth_bind {f : Nat → CountingM β} {q : ParseM β} (hf : Follows d d' (f d) q) :
    Follows d d' (CountingM.depth >>= f) q := by
  intro s c hs hpeak
  subst hs
  exact hf s c rfl hpeak

theorem enter_bind {f : Unit → CountingM β} {q : ParseM β} (hd : d < nestingLimit)
    (hf : Follows (d + 1) d' (f ()) q) : Follows d d' (CountingM.enter >>= f) q := by
  intro s c hs hpeak
  subst hs
  obtain ⟨s', hs', hle, hpeak', hrun⟩ := hf s.enter c rfl (Nat.max_le.2 ⟨hpeak, hd⟩)
  exact ⟨s', hs', (Nat.le_max_left _ _).trans hle, hpeak', hrun⟩

theorem leave_bind {f : Unit → CountingM β} {q : ParseM β} (hf : Follows d d' (f ()) q) :
    Follows (d + 1) d' (CountingM.leave >>= f) q := by
  intro s c hs hpeak
  have hs' : s.leave.depth = d := by rw [Nesting.depth_leave, hs, Nat.add_sub_cancel]
  exact hf s.leave c hs' hpeak

theorem ite {b : Prop} [Decidable b] {p' : CountingM α} {q' : ParseM α}
    (h : b → Follows d d' p q) (h' : ¬b → Follows d d' p' q') :
    Follows d d' (if b then p else p') (if b then q else q') := by
  split
  · exact h ‹_›
  · exact h' ‹_›

/-- The counter is back where it was. -/
theorem balanced (h : Follows d d p q) {s : Nesting} (c : Cursor) (hs : s.depth = d)
    (hpeak : s.peak ≤ nestingLimit) :
    let s' := ((p.run s).run c).1.2
    s'.depth = s.depth ∧ s.peak ≤ s'.peak ∧ s'.peak ≤ nestingLimit := by
  obtain ⟨s', hs', hle, hpeak', hrun⟩ := h s c hs hpeak
  rw [hrun]
  exact ⟨hs'.trans hs.symm, hle, hpeak'⟩

theorem collect {turn : CountingM (Option Node × Bool)} {turn' : ParseM (Option Node × Bool)}
    (h : Follows d d turn turn') (turns : Nat) :
    Follows d d (CountingM.collect turn turns) (ParseM.collect turn' turns) := by
  induction turns with
  | zero => exact .pure []
  | succ turns ih =>
    refine h.bind fun (node?, more) => ?_
    dsimp only
    exact ite (fun _ => ih.bind fun rest => .pure _) fun _ => .pure _

theorem gather {turn : CountingM (Option Node × Bool)} {turn' : ParseM (Option Node × Bool)}
    (h : Follows d d turn turn') : Follows d d (CountingM.gather turn) (ParseM.gather turn') := by
  refine lift_bind fun c => ?_
  exact h.collect _

theorem gatherWhile {condition : List Token → Bool} {p : CountingM Node} {q : ParseM Node}
    (h : Follows d d p q) :
    Follows d d (CountingM.gatherWhile condition p) (ParseM.gatherWhile condition q) := by
  refine gather (lift_bind fun b => ite (fun _ => ?_) fun _ => .pure _)
  exact h.bind fun n => .pure _

end Follows

namespace CountingM
open ParseM Lookahead
variable {d : Nat} {calls : Calls} {nested : Nested}

theorem follows_labelTarget (hblock : Follows d d calls.block nested.block)
    (hatom : Follows d d calls.atom nested.atom) :
    Follows d d (labelTarget calls) (ParseM.labelTarget nested) := by
  refine .lift_bind fun paren => .ite (fun _ => hblock) fun _ => ?_
  refine .lift_bind fun starts => .ite (fun _ => hatom) fun _ => ?_
  exact .lift_bind fun _ => .lift_bind fun t => .lift _

theorem follows_element (hblock : Follows d d calls.block nested.block)
    (hatom : Follows d d calls.atom nested.atom) :
    Follows d d (element calls) (ParseM.element nested) := by
  refine .lift_bind fun t => .lift_bind fun labels => .ite (fun _ => ?_) fun _ => ?_
  · refine .lift_bind fun _ => .lift_bind fun sign => ?_
    refine (follows_labelTarget hblock hatom).bind fun target => ?_
    exact .lift_bind fun n => .lift _
  refine .lift_bind fun paren => .ite (fun _ => hblock.bind fun n => .lift _) fun _ => ?_
  refine .lift_bind fun action? => .ite (fun _ => ?_) fun _ => hatom.bind fun n => .lift _
  refine .lift_bind fun question? => .ite (fun _ => ?_) fun _ => .lift _
  exact .lift_bind fun _ => .lift _

theorem follows_alternative (helement : Follows d d calls.element (ParseM.element nested)) :
    Follows d d (alternative calls) (ParseM.alternative nested) := by
  unfold alternative ParseM.alternative
  refine .lift_bind fun t => ?_
  extract_lets start children label? elements elements'
  have helements (ns : List Node) : Follows d d (elements () ns) (elements' () ns) := by
    have hturn : Follows d d
        (do if ← sees startsElement then calls.element else skipGarbage : CountingM Node)
        (do if ← sees startsElement then ParseM.element nested else skipGarbage) :=
      .lift_bind fun starts => .ite (fun _ => helement) fun _ => .lift _
    refine hturn.gatherWhile.bind fun ms => ?_
    extract_lets all commanded commanded'
    have hcommanded (label? : Option String) :
        Follows d d (commanded () label?) (commanded' () label?) := by
      refine .lift_bind fun arrow => .ite (fun _ => ?_) fun _ => .lift _
      exact .lift_bind fun n => .lift _
    refine .lift_bind fun hash? => .ite (fun _ => ?_) fun _ => hcommanded none
    refine .lift_bind fun named => .ite (fun _ => ?_) fun _ => ?_
    · exact .lift_bind fun name => hcommanded _
    · exact .lift_bind fun _ => hcommanded none
  refine .lift_bind fun options? => ?_
  cases options? with
  | some options => exact .lift_bind fun n => helements [n]
  | none => exact helements []

theorem follows_alternativeList (helement : Follows d d calls.element (ParseM.element nested)) :
    Follows d d (alternativeList calls) (ParseM.alternativeList nested) := by
  refine .gather ((follows_alternative helement).bind fun n => ?_)
  exact .lift_bind fun bar? => .pure _

/-- A block that is not too deep is read one level further in. -/
theorem follows_block (hd : d < nestingLimit)
    (helement : Follows (d + 1) (d + 1) calls.element (ParseM.element nested)) :
    Follows d d (block calls) (ParseM.block nested) := by
  unfold block ParseM.block
  refine .lift_bind fun opening => .depth_bind ?_
  rw [if_neg (by omega)]
  refine .enter_bind hd ?_
  extract_lets body start body'
  have hbody : Follows (d + 1) d (body ()) (body' ()) := by
    -- the counter is lowered before the parenthesis is looked for, so a missing one does not matter
    refine (follows_alternativeList helement).bind fun ns => .leave_bind ?_
    exact .lift_bind fun _ => .lift _
  refine .lift_bind fun options => .ite (fun _ => ?_) fun _ => hbody
  exact .lift_bind fun _ => .lift_bind fun _ => hbody

theorem follows_deepBlock (hd : nestingLimit ≤ d) : Follows d d (block calls) deepBlock := by
  unfold block deepBlock
  refine .lift_bind fun opening => .depth_bind ?_
  rw [if_pos hd]
  exact .lift_bind fun _ => .lift_bind fun _ => .lift _

theorem follows_negand (sign : Token) (hd : d < nestingLimit)
    (hblock : Follows d d calls.block nested.block)
    (hatom : Follows (d + 1) (d + 1) calls.atom nested.atom) :
    Follows d d (negand calls sign) (ParseM.negand sign (some nested)) := by
  unfold negand ParseM.negand
  refine .depth_bind ?_
  rw [if_neg (by omega)]
  refine .lift_bind fun paren => .ite (fun _ => hblock) fun _ => ?_
  refine .lift_bind fun starts => .ite (fun _ => .enter_bind hd ?_) fun _ => ?_
  · rw [← bind_pure nested.atom]
    exact hatom.bind fun n => .leave_bind (.pure n)
  · exact .lift_bind fun _ => .lift_bind fun t => .lift _

theorem follows_deepNegand (sign : Token) (hd : nestingLimit ≤ d) :
    Follows d d (negand calls sign) (ParseM.negand sign none) := by
  unfold negand ParseM.negand
  refine .depth_bind ?_
  rw [if_pos hd]
  exact .lift_bind fun _ => .lift_bind fun _ => .lift _

/-- Atoms but for negations are read alike at all levels. -/
theorem atom_eq (nested? : Option Nested) :
    ParseM.atom nested? = (do
      let t ← peek
      if t.kind = .tilde then
        let _ ← advance
        let target ← ParseM.negand t nested?
        close .negated t.start [target]
      else
        ParseM.atom none : ParseM Node) := by
  funext c
  have hpeek {f : Token → ParseM Node} : (peek >>= f) c = f c.peek c := rfl
  rw [hpeek]
  by_cases ht : c.peek.kind = .tilde
  · rw [if_pos ht, ParseM.atom, hpeek, ht]
  · rw [if_neg ht, ParseM.atom, ParseM.atom, hpeek, hpeek]
    cases hk : c.peek.kind with
    | tilde => exact absurd hk ht
    | _ => rfl

theorem follows_atom {nested? : Option Nested}
    (hnegand : ∀ sign, Follows d d (negand calls sign) (ParseM.negand sign nested?)) :
    Follows d d (atom calls) (ParseM.atom nested?) := by
  rw [atom_eq]
  refine .lift_bind fun t => .ite (fun _ => ?_) fun _ => .lift _
  exact .lift_bind fun _ => (hnegand t).bind fun n => .lift _

namespace Calls
variable {room : Nat} {bottom : Calls}

/-- Three calls for each level that is left, and one or two more, are enough to read all of them. -/
structure Suffice (bottom : Calls) (d room : Nat) : Prop where
  block : ∀ turns, 3 * room + 1 ≤ turns →
    Follows d d (within bottom turns).block (Nested.within room).block
  atom : ∀ turns, 3 * room + 2 ≤ turns →
    Follows d d (within bottom turns).atom (Nested.within room).atom

theorem Suffice.element (h : Suffice bottom d room) (turns : Nat) (hturns : 3 * room + 3 ≤ turns) :
    Follows d d (within bottom turns).element (ParseM.element (Nested.within room)) := by
  obtain ⟨turns, rfl⟩ : ∃ t, turns = t + 1 := ⟨turns - 1, by omega⟩
  exact follows_element (h.block turns (by omega)) (h.atom turns (by omega))

/-- A level takes three calls at most: an element, a negation and the block that it negates. -/
theorem suffice (bottom : Calls) (h : d + room = nestingLimit) : Suffice bottom d room := by
  induction room generalizing d with
  | zero =>
    refine ⟨fun turns hturns => ?_, fun turns hturns => ?_⟩
    · obtain ⟨turns, rfl⟩ : ∃ t, turns = t + 1 := ⟨turns - 1, by omega⟩
      exact follows_deepBlock (by omega)
    · obtain ⟨turns, rfl⟩ : ∃ t, turns = t + 1 := ⟨turns - 1, by omega⟩
      exact follows_atom fun sign => follows_deepNegand sign (by omega)
  | succ room ih =>
    have hinner : Suffice bottom (d + 1) room := ih (by omega)
    -- the block comes first: a negation calls it at the same level
    have hblock (turns : Nat) (hturns : 3 * (room + 1) + 1 ≤ turns) :
        Follows d d (within bottom turns).block (Nested.within (room + 1)).block := by
      obtain ⟨turns, rfl⟩ : ∃ t, turns = t + 1 := ⟨turns - 1, by omega⟩
      exact follows_block (by omega) (hinner.element turns (by omega))
    refine ⟨hblock, fun turns hturns => ?_⟩
    obtain ⟨turns, rfl⟩ : ∃ t, turns = t + 1 := ⟨turns - 1, by omega⟩
    refine follows_atom fun sign => follows_negand sign (by omega) ?_ ?_
    · exact hblock turns (by omega)
    · exact hinner.atom turns (by omega)

end Calls

theorem follows_alternatives
    (helement : Follows d d calls.element (ParseM.element (.within nestingLimit))) :
    Follows d d (alternatives calls) ParseM.alternatives := by
  refine .lift_bind fun t => ?_
  exact (follows_alternativeList helement).bind fun ns => .lift _

section
variable (flavour : Flavour) (halternatives : Follows d d (alternatives calls) ParseM.alternatives)
include halternatives

theorem follows_tokenRule (start : Mark) (fragment : Bool) (name : Token) :
    Follows d d (tokenRule calls flavour start fragment name)
      (ParseM.tokenRule flavour start fragment name) := by
  unfold tokenRule ParseM.tokenRule
  extract_lets children close body options close' body' options'
  have hbody (ns : List Node) : Follows d d (body () ns) (body' () ns) := by
    refine .lift_bind fun colon? => .ite (fun _ => .lift_bind fun _ => .lift _) fun _ => ?_
    exact halternatives.bind fun n => .lift_bind fun _ => .lift _
  have hoptions : Follows d d (options ()) (options' ()) := by
    refine .lift_bind fun starts => .ite (fun _ => ?_) fun _ => hbody _
    exact .lift_bind fun n => hbody _
  refine .lift_bind fun _ => .ite (fun _ => ?_) fun _ => hoptions
  exact .lift_bind fun _ => hoptions

theorem follows_parserRule (start : Mark) (name : Token) :
    Follows d d (parserRule calls flavour start name) (ParseM.parserRule flavour start name) := by
  unfold parserRule ParseM.parserRule
  extract_lets close prequel close' prequel'
  have hprequel : Follows d d (prequel ()) (prequel' ()) := by
    refine .lift_bind fun ns => .lift_bind fun colon? => .ite (fun _ => ?_) fun _ => ?_
    · exact .lift_bind fun _ => .lift _
    · exact halternatives.bind fun n => .lift_bind fun _ => .lift_bind fun handlers => .lift _
  refine .lift_bind fun _ => .ite (fun _ => ?_) fun _ => hprequel
  exact .lift_bind fun _ => hprequel

theorem follows_rule : Follows d d (rule calls flavour) (ParseM.rule flavour) := by
  refine .lift_bind fun t => .lift_bind fun c => ?_
  refine .lift_bind fun fragment => .lift_bind fun name => ?_
  cases name.kind with
  | upperName => exact follows_tokenRule flavour halternatives _ _ _
  | lowerName => exact follows_parserRule flavour halternatives _ _
  | _ => exact .lift_bind fun _ => .lift_bind fun _ => .lift _

theorem follows_modeSection :
    Follows d d (modeSection calls flavour) (ParseM.modeSection flavour) := by
  refine .lift_bind fun first => .lift_bind fun name => ?_
  extract_lets rules rules'
  have hrules : Follows d d (rules ()) (rules' ()) := by
    refine .lift_bind fun _ => ?_
    exact (Follows.gatherWhile (follows_rule flavour halternatives)).bind fun ns => .lift _
  refine .ite (fun _ => ?_) fun _ => hrules
  exact .lift_bind fun _ => hrules

theorem follows_grammarPart :
    Follows d d (grammarPart calls flavour) (ParseM.grammarPart flavour) := by
  refine .lift_bind fun node? => ?_
  cases node? with
  | some node => exact .pure node
  | none =>
    refine .lift_bind fun starts => .ite (fun _ => ?_) fun _ => ?_
    · exact follows_modeSection flavour halternatives
    · exact follows_rule flavour halternatives

theorem follows_grammar : Follows d d (grammar calls) ParseM.grammar := by
  refine .lift_bind fun (first, flavour) => ?_
  refine (Follows.gatherWhile (follows_grammarPart flavour halternatives)).bind fun parts => ?_
  exact .lift_bind fun c => .pure _

end

end CountingM

namespace Grammar
open CountingM

/-- Reads a grammar with a counter, and tells how the counter ends. -/
def parseCounting (calls : Calls) (text : String) : Grammar × Nesting :=
  let (stream, tokenFaults) := TokenStream.ofChars text.toList
  let ((tree, nesting), cursor) := ((CountingM.grammar calls).run .start).run (.ofStream stream)
  (⟨tree, Fault.arrange (tokenFaults ++ cursor.faults.reverse)⟩, nesting)

/-- Whole texts are read alike with a counter. -/
theorem parseCounting_eq (bottom : Calls) (text : String) :
    ∃ nesting,
      parseCounting (.within bottom (3 * nestingLimit + 3)) text = (parse text, nesting) ∧
      nesting.depth = 0 ∧ nesting.peak ≤ nestingLimit := by
  have hsuffice : Calls.Suffice bottom 0 nestingLimit := Calls.suffice bottom (Nat.zero_add _)
  have hfollows := follows_grammar (follows_alternatives (hsuffice.element _ le_rfl))
  obtain ⟨nesting, hdepth, -, hpeak, hrun⟩ := hfollows .start
    (.ofStream (TokenStream.ofChars text.toList).1) rfl (Nat.zero_le _)
  refine ⟨nesting, ?_, hdepth, hpeak⟩
  rw [parse_eq, parseCounting]
  simp only [hrun]

/-- However deep a text nests, its tree does not, and neither do the calls that read it. The counter
never passes the limit, and whichever production is called leaves it where it was. -/
theorem parse_nesting_bounded (text : String) (bottom : Calls) :
    (∀ path : List Node, ((parse text).tree :: path).IsChain (fun n m => m ∈ n.children) →
      ((parse text).tree :: path).length ≤ 5 * nestingLimit + 16) ∧
    (∀ visit ∈ (parse text).tree.walk, visit.2.1 < 5 * nestingLimit + 16) ∧
    (∃ nesting,
      parseCounting (.within bottom (3 * nestingLimit + 3)) text = (parse text, nesting) ∧
      nesting.depth = 0 ∧ nesting.peak ≤ nestingLimit) ∧
    ∀ (s : Nesting) (c : Cursor) (turns : Nat), s.peak ≤ nestingLimit →
      3 * (nestingLimit - s.depth) + 3 ≤ turns →
      let calls := Calls.within bottom turns
      ∀ call ∈ [calls.element, calls.atom, calls.block],
        let s' := ((call.run s).run c).1.2
        s'.depth = s.depth ∧ s.peak ≤ s'.peak ∧ s'.peak ≤ nestingLimit := by
  have hatMost := parse_atMost text
  refine ⟨fun path hpath => ?_, fun visit hvisit => ?_, parseCounting_eq bottom text, ?_⟩
  · have hlength := hatMost.length_le hpath
    omega
  · have hdepth := hatMost.depth_lt none 0 visit hvisit
    omega
  · intro s c turns hpeak hturns calls call hcall
    have hsuffice : Calls.Suffice bottom s.depth (nestingLimit - s.depth) :=
      Calls.suffice bottom (Nat.add_sub_cancel' (s.depth_le_peak.trans hpeak))
    simp only [List.mem_cons, List.not_mem_nil, or_false] at hcall
    rcases hcall with rfl | rfl | rfl
    · exact (hsuffice.element turns hturns).balanced c rfl hpeak
    · exact (hsuffice.atom turns (by omega)).balanced c rfl hpeak
    · exact (hsuffice.block turns (by omega)).balanced c rfl hpeak

/-- A text with three levels, and a block where no further one may be opened. -/
theorem parse_nesting_bounded_full :
    let text := "r : x+=(~~b)*? | ("
    let idle : Calls := ⟨ParseM.skipGarbage, ParseM.skipGarbage, ParseM.skipGarbage⟩
    let full : Nesting := ⟨nestingLimit, nestingLimit, le_rfl⟩
    let cursor := Cursor.ofStream (TokenStream.ofChars "(a)) b".toList).1
    (∃ rule body, [(parse text).tree, rule, body].IsChain (fun n m => m ∈ n.children) ∧
      [(parse text).tree, rule, body].length ≤ 5 * nestingLimit + 16) ∧
    (∃ visit ∈ (parse text).tree.walk, visit.2.1 = 10 ∧ visit.2.1 < 5 * nestingLimit + 16) ∧
    (∃ nesting,
      parseCounting (.within idle (3 * nestingLimit + 3)) text = (parse text, nesting) ∧
      nesting.depth = 0 ∧ nesting.peak = 3) ∧
    let ((node, s), _) := ((Calls.within idle 3).block.run full).run cursor
    node.kind = .error ∧ s.depth = nestingLimit ∧ s.peak = nestingLimit := by
  intro text idle full cursor
  have hrun : (∃ rule ∈ (parse text).tree.children, ∃ body ∈ rule.children,
      body.kind = .alternatives) ∧ (∃ visit ∈ (parse text).tree.walk, visit.2.1 = 10) ∧
      (parseCounting (.within idle (3 * nestingLimit + 3)) text).2.peak = 3 := by
    decide +kernel
  obtain ⟨⟨rule, hrule, body, hbody, -⟩, ⟨visit, hvisit, hdeep⟩, hpeak⟩ := hrun
  obtain ⟨hpath, hwalk, ⟨nesting, hparse, hdepth, -⟩, hcall⟩ := parse_nesting_bounded text idle
  have hchain : [(parse text).tree, rule, body].IsChain (fun n m => m ∈ n.children) :=
    List.isChain_cons_cons.2 ⟨hrule, List.isChain_cons_cons.2 ⟨hbody, .singleton _⟩⟩
  obtain ⟨hback, hgrown, hbounded⟩ := hcall full cursor 3 le_rfl (by decide) _
    (List.mem_of_mem_getLast? rfl)
  refine ⟨⟨rule, body, hchain, hpath [rule, body] hchain⟩, ?_, ?_, ?_⟩
  · exact ⟨visit, hvisit, hdeep, hwalk visit hvisit⟩
  · rw [hparse] at hpeak
    exact ⟨nesting, hparse, hdepth, hpeak⟩
  · exact ⟨by decide +kernel, hback, le_antisymm hbounded hgrown⟩

end Grammar

end GrammarAtlas
