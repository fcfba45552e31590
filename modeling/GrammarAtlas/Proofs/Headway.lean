import GrammarAtlas.Proofs.Preservation
import GrammarAtlas.Proofs.Wholeness

/-! # The parser makes headway

Many productions return without having read anything, as where a token is missing. Those that loops
are made of do not: each turn of a loop reads a token, or says that it is the last one. So a loop
takes as many turns as it needs (`ParseM.turns_gather`), reading goes on to the end of the text, and
there are no more parts of a grammar than tokens (`Grammar.parse_headway`). None of that depends on
what the tokens are. -/

namespace GrammarAtlas

namespace Cursor
variable {c c₁ c₂ : Cursor}

/-- What is ahead is what is left of what was ahead. -/
structure Onward (c c' : Cursor) : Prop where
  finish : c'.finish = c.finish
  ahead : c'.ahead <:+ c.ahead

theorem Onward.report (c : Cursor) (cause : Fault.Cause) (l : Location) :
    Onward c (c.report cause l) :=
  ⟨rfl, List.suffix_rfl⟩

instance : Kept Onward where
  refl _ := ⟨rfl, List.suffix_rfl⟩
  trans h h' := ⟨h'.finish.trans h.finish, h'.ahead.trans h.ahead⟩
  read {_ t ts} ht := ⟨rfl, ht ▸ List.suffix_cons t ts⟩
  report c l _ := .report c _ l

/-- At least one token was read. -/
structure ReadsOn (c c' : Cursor) : Prop where
  onward : Onward c c'
  read : ∃ t us, c.ahead = t :: us ++ c'.ahead

theorem ReadsOn.length_lt (h : c.ReadsOn c₁) : c₁.ahead.length < c.ahead.length := by
  obtain ⟨t, us, ha⟩ := h.read
  rw [ha, List.length_append, List.length_cons]
  omega

theorem Onward.readsOn (h : Onward c c₁) (hlt : c₁.ahead.length < c.ahead.length) : c.ReadsOn c₁ := by
  obtain ⟨us, ha⟩ := h.ahead
  cases us with
  | nil =>
    rw [← ha, List.nil_append] at hlt
    exact absurd hlt (Nat.lt_irrefl _)
  | cons t us => exact ⟨h, t, us, ha.symm⟩

theorem ReadsOn.trans (h : c.ReadsOn c₁) (h' : Onward c₁ c₂) : c.ReadsOn c₂ :=
  (Kept.trans h.onward h').readsOn (h'.ahead.length_le.trans_lt h.length_lt)

theorem ReadsOn.of_onward (h : Onward c c₁) (h' : c₁.ReadsOn c₂) : c.ReadsOn c₂ :=
  (Kept.trans h h'.onward).readsOn (h'.length_lt.trans_le h.ahead.length_le)

end Cursor

namespace ParseM
open Lookahead Cursor
variable {α β : Type} {c : Cursor} {p : ParseM α}

theorem readsOn_advance (hne : c.ahead ≠ []) : wp advance (fun _ => c.ReadsOn) c := by
  obtain ⟨t, ts, ha⟩ := List.exists_cons_of_ne_nil hne
  refine wp_advance_of_ahead ha (Onward.readsOn (Kept.read ha) ?_)
  rw [ha]
  exact Nat.lt_succ_self _

theorem readsOn_bind {f : α → ParseM β} (h : wp p (fun _ => c.ReadsOn) c)
    (hf : ∀ a, Keeps Onward (f a)) : wp (p >>= f) (fun _ => c.ReadsOn) c := by
  rw [wp_bind]
  exact wp_mono h fun a c₁ h₁ => h₁.trans (hf a c₁)

theorem Leads.readsOn (h : Leads Onward p) (hne : c.ahead ≠ []) : wp p (fun _ => c.ReadsOn) c := by
  obtain ⟨f, rfl, hf⟩ := h
  exact readsOn_bind (readsOn_advance hne) hf

theorem Tries.readsOn {q : Token → Bool} (h : Tries Onward q p) {t : Token} {ts : List Token}
    (ha : c.ahead = t :: ts) (hq : q t) : wp p (fun _ => c.ReadsOn) c := by
  obtain ⟨f, rfl, hf⟩ := h
  rw [wp_bind, wp_peek, peek_of_ahead ha]
  exact ((hf t).2 hq).readsOn (by simp [ha])

/-- A token that is found was read, and otherwise nothing was. -/
theorem readsOn_accept {kind : Token.Kind} (hk : kind ≠ .finish) :
    wp (accept kind) (fun found c' =>
      if found.isSome then c.ReadsOn c' else c' = c ∧ kindAt c.ahead 0 ≠ kind) c := by
  unfold accept
  simp only [wp_bind, wp_seesKind, wp_ite, wp_pure]
  split
  · rename_i hfound
    refine readsOn_advance fun ha => ?_
    rw [ha] at hfound
    exact hk (beq_iff_eq.1 hfound).symm
  · rename_i hnone
    exact ⟨trivial, fun h => hnone (beq_iff_eq.2 h)⟩

theorem ne_nil_of_isWordAt {ahead : List Token} {n : Nat} {w : String} (h : isWordAt ahead n w) :
    ahead ≠ [] := by
  rintro rfl
  simp [isWordAt] at h

theorem ne_nil_of_startsBlock {ahead : List Token} {w : String} (h : startsBlock ahead w) :
    ahead ≠ [] := by
  rw [startsBlock, Bool.and_eq_true] at h
  exact ne_nil_of_isWordAt h.1

theorem ne_nil_of_kindAt {ahead : List Token} {n : Nat} {kind : Token.Kind}
    (h : kindAt ahead n = kind) (hk : kind ≠ .finish) : ahead ≠ [] := by
  rintro rfl
  exact hk h.symm

/-- A declaration that is found was read, and otherwise nothing was. -/
theorem readsOn_prequel : wp prequel (fun n? c' => (n?.isSome → c.ReadsOn c') ∧
    (n? = none → c' = c)) c := by
  have hfound {p : ParseM Node} (hp : Leads Onward p) (hne : c.ahead ≠ []) :
      wp p (fun n c' => ((some n).isSome → c.ReadsOn c') ∧ (some n = none → c' = c)) c :=
    wp_mono (hp.readsOn hne) fun n c₁ h₁ => ⟨fun _ => h₁, by simp⟩
  unfold prequel
  simp only [wp_bind, wp_sees, wp_seesKind, wp_ite, wp_pure]
  split
  · exact hfound leads_options (ne_nil_of_startsBlock ‹_›)
  split
  · exact hfound (leads_nameList _) (ne_nil_of_startsBlock ‹_›)
  split
  · exact hfound (leads_nameList _) (ne_nil_of_startsBlock ‹_›)
  split
  · rename_i himport
    rw [Bool.and_eq_true] at himport
    exact hfound leads_delegates (ne_nil_of_isWordAt himport.1)
  split
  · rename_i haction
    exact hfound leads_namedAction (ne_nil_of_kindAt (beq_iff_eq.1 haction) (by simp))
  · exact ⟨by simp, fun _ => trivial⟩

/-! ## Turns of loops -/

/-- Each turn reads a token, unless it is the last one. -/
def Advances (turn : ParseM (Option Node × Bool)) : Prop :=
  ∀ c, wp turn (fun r c' => r.2 → c.ReadsOn c') c

/-- A loop goes on from turn to turn, each of which reads a token, and ends where a turn says so. -/
inductive Turns (turn : ParseM (Option Node × Bool)) : Cursor → List Node → Cursor → Prop
  | last {c c' : Cursor} {n? : Option Node} (h : turn.run c = ((n?, false), c')) :
    Turns turn c n?.toList c'
  | next {c c₁ c' : Cursor} {n? : Option Node} {ns : List Node} (h : turn.run c = ((n?, true), c₁))
    (hread : c.ReadsOn c₁) (hrest : Turns turn c₁ ns c') : Turns turn c (n?.toList ++ ns) c'

/-- The number of turns that a loop is given is enough. -/
theorem turns_gather {turn : ParseM (Option Node × Bool)} (h : Advances turn) (c : Cursor) :
    wp (gather turn) (Turns turn c) c := by
  have hcollect (turns : Nat) {c : Cursor} (hturns : c.ahead.length < turns) :
      wp (collect turn turns) (Turns turn c) c := by
    induction turns generalizing c with
    | zero => omega
    | succ turns ih =>
      have hturn := h c
      rw [collect, wp_bind]
      unfold wp at hturn ⊢
      rcases hrun : turn.run c with ⟨⟨n?, more⟩, c₁⟩
      rw [hrun] at hturn
      cases more with
      | true =>
        have hread : c.ReadsOn c₁ := hturn rfl
        have hlt := hread.length_lt
        show wp (collect turn turns >>= fun ns => pure (n?.toList ++ ns)) (Turns turn c) c₁
        rw [wp_bind]
        exact wp_mono (ih (by omega)) fun ns c' hrest => .next hrun hread hrest
      | false =>
        have hlast : Turns turn c (n?.toList ++ []) c₁ := by
          rw [List.append_nil]
          exact .last hrun
        exact hlast
  exact hcollect (c.ahead.length + 1) (Nat.lt_succ_self _)

/-- `p` has a loop with that turn: what comes before it, its turns, and what comes behind. -/
structure Loops (p : ParseM α) (turn : ParseM (Option Node × Bool)) : Prop where
  loop : ∃ (β : Type) (before : ParseM β) (after : β → List Node → ParseM α),
    p = before >>= fun b => gather turn >>= after b
  advances : Advances turn
  turns : ∀ c, wp (gather turn) (Turns turn c) c

theorem Loops.intro {turn : ParseM (Option Node × Bool)} (h : Advances turn) (before : ParseM β)
    (after : β → List Node → ParseM α) (hp : p = before >>= fun b => gather turn >>= after b) :
    Loops p turn :=
  ⟨⟨β, before, after, hp⟩, h, turns_gather h⟩

theorem readsOn_skipWhile (cond : List Token → Bool) {t : Token} {ts : List Token}
    (ha : c.ahead = t :: ts) (hcond : cond (t :: ts)) : c.ReadsOn (c.skipWhile cond) := by
  have go (last? : Option Token) (ts : List Token) :
      (Cursor.skipWhile.go cond c last? ts).ahead.length ≤ ts.length := by
    induction ts generalizing last? with
    | nil => exact le_rfl
    | cons t ts ih =>
      unfold Cursor.skipWhile.go
      split
      · exact (ih _).trans (Nat.le_succ _)
      · exact le_rfl
  refine (keeps_skipWhile (R := Onward) cond c).readsOn ?_
  show (c.skipWhile cond).ahead.length < _
  rw [Cursor.skipWhile, ha, Cursor.skipWhile.go, if_pos hcond]
  exact Nat.lt_succ_of_le (go _ _)

theorem wp_optionEntry_of_not_isName {Q : Option Node → Cursor → Prop} (h : c.peek.isName = false) :
    wp optionEntry Q c ↔ Q none (c.reportMissing "option name") := by
  unfold optionEntry
  rw [wp_bind, wp_peek, h]
  exact Iff.rfl

/-- Skipping up to a semicolon and reading that reads something, unless a brace is ahead. -/
theorem readsOn_skip_accept {t : Token} {ts : List Token} (ha : c.ahead = t :: ts)
    (hk : t.kind ≠ .closeBrace) :
    wp (accept .semicolon) (fun _ => c.ReadsOn) (c.skipWhile fun ahead =>
      kindAt ahead 0 != .semicolon && kindAt ahead 0 != .closeBrace) := by
  by_cases hs : t.kind = .semicolon
  · have hstay : c.skipWhile (fun ahead =>
        kindAt ahead 0 != .semicolon && kindAt ahead 0 != .closeBrace) = c := by
      rw [Cursor.skipWhile, ha, Cursor.skipWhile.go, if_neg (by simp [kindAt, hs]), ← ha]
    rw [hstay, accept, wp_bind, wp_seesKind, ha, wp_ite, if_pos (by simp [kindAt, hs]), wp_bind]
    exact readsOn_advance (by simp [ha])
  · have hread := readsOn_skipWhile (fun ahead =>
      kindAt ahead 0 != .semicolon && kindAt ahead 0 != .closeBrace) ha (by simp [kindAt, hk, hs])
    exact wp_mono (keeps_accept .semicolon _) fun _ c₁ h₁ => hread.trans h₁

/-- An entry of a block of options. -/
def optionTurn : ParseM (Option Node × Bool) := do
  if ← sees fun ahead => kindAt ahead 0 == .closeBrace || kindAt ahead 0 == .finish then
    return (none, false)
  let option? ← optionEntry
  if option?.isNone then
    modify (·.skipWhile fun ahead =>
      kindAt ahead 0 != .semicolon && kindAt ahead 0 != .closeBrace)
    let _ ← accept .semicolon
  return (option?, true)

/-- What begins with no name is skipped with the semicolon behind it, so if there is nothing else to
skip the semicolon is read. -/
theorem advances_optionTurn : Advances optionTurn := by
  intro c
  unfold optionTurn
  simp only [wp_bind, wp_sees, wp_ite, wp_pure]
  split
  · exact nofun
  rename_i hgo
  rw [Bool.or_eq_true, not_or, beq_iff_eq, beq_iff_eq] at hgo
  obtain ⟨t, ts, ha⟩ := List.exists_cons_of_ne_nil (l := c.ahead) (by rintro ha; simp [ha, kindAt] at hgo)
  have hkind : t.kind ≠ .closeBrace := by
    rw [ha] at hgo
    exact hgo.1
  cases hname : t.isName with
  | true =>
    refine wp_mono (tries_optionEntry.readsOn ha hname) fun option? c₁ h₁ => ?_
    split
    · refine wp_mono (keeps_skipWhile (R := Onward) _ c₁) fun _ c₂ h₂ => ?_
      exact wp_mono (keeps_accept .semicolon c₂) fun _ c₃ h₃ _ => (h₁.trans h₂).trans h₃
    · exact fun _ => h₁
  | false =>
    rw [wp_optionEntry_of_not_isName (peek_of_ahead ha ▸ hname), Option.isNone_none, if_pos rfl,
      wp_modify]
    exact wp_mono (readsOn_skip_accept (c := c.reportMissing "option name") ha hkind)
      fun _ c₂ h₂ _ => .of_onward (.report c _ _) h₂

theorem loops_options : Loops options optionTurn :=
  .intro advances_optionTurn
    (do let start := (← advance).start; let _ ← advance; return start)
    (fun start children => do let _ ← expect .closeBrace; close .options start children) rfl

/-- An entry of a list, which goes on behind a comma. -/
def listTurn (p : Token → ParseM Node) (expected : String) : ParseM (Option Node × Bool) := do
  let first ← peek
  if first.isName then
    let node ← p first
    return (some node, (← accept .comma).isSome)
  else
    reportMissing expected
    return (none, false)

/-- A turn that goes on has read the comma at least. -/
theorem advances_listTurn {p : Token → ParseM Node} (hp : ∀ t, Keeps Onward (p t))
    (expected : String) : Advances (listTurn p expected) := by
  intro c
  unfold listTurn
  simp only [wp_bind, wp_peek, wp_ite, wp_pure]
  split
  · refine wp_mono (hp c.peek c) fun node c₁ h₁ => ?_
    refine wp_mono (readsOn_accept (by simp)) fun comma? c₂ h₂ hcomma => ?_
    rw [if_pos hcomma] at h₂
    exact .of_onward h₁ h₂
  · exact wp_of_forall fun _ _ h => nomatch h

theorem loops_delegates : Loops delegates (listTurn delegate "grammar name") :=
  .intro (advances_listTurn (fun t => (leads_delegate t).keeps) _)
    (do return (← advance).start)
    (fun start children => do let _ ← expect .semicolon; close .delegates start children) rfl

theorem loops_commands : Loops commands (listTurn command "lexer command") :=
  .intro (advances_listTurn (fun t => (leads_command t).keeps) _)
    (do return (← advance).start) (fun start children => close .commands start children) rfl

/-- A turn that is taken where the condition holds. -/
def whileTurn (condition : List Token → Bool) (p : ParseM Node) : ParseM (Option Node × Bool) := do
  if ← sees condition then return (some (← p), true) else return (none, false)

theorem advances_whileTurn {condition : List Token → Bool} {p : ParseM Node}
    (h : ∀ c : Cursor, condition c.ahead → wp p (fun _ => c.ReadsOn) c) :
    Advances (whileTurn condition p) := by
  intro c
  unfold whileTurn
  simp only [wp_bind, wp_sees, wp_ite, wp_pure]
  split
  · exact wp_mono (h c ‹_›) fun n c₁ h₁ _ => h₁
  · exact nofun

theorem readsOn_skipGarbage (hne : c.ahead ≠ []) : wp skipGarbage (fun _ => c.ReadsOn) c := by
  have hreport : Onward c (c.reportMissing "grammar element") := .report c _ _
  unfold skipGarbage
  simp only [wp_bind, wp_peek, wp_reportMissing]
  refine wp_mono (readsOn_advance (c := c.reportMissing "grammar element") hne) fun _ c₁ h₁ => ?_
  exact wp_mono (keeps_skipWhile (R := Onward) _ c₁) fun _ c₂ h₂ => .of_onward hreport (h₁.trans h₂)

theorem startsAtom_of_startsElement {ahead : List Token} (h : startsElement ahead)
    (hparen : kindAt ahead 0 ≠ .openParen) (haction : kindAt ahead 0 ≠ .action) :
    startsAtom ahead := by
  rw [startsElement, Bool.or_eq_true] at h
  refine h.resolve_right fun h => ?_
  split at h
  · exact hparen ‹_›
  · exact haction ‹_›
  · cases h

/-- Of whatever kind an element is, its first token is read. -/
theorem readsOn_element {nested : Nested} (h : nested.Keeps Onward) (hs : startsElement c.ahead) :
    wp (element nested) (fun _ => c.ReadsOn) c := by
  cases ha : c.ahead with
  | nil => simp [ha, startsElement, startsAtom, kindAt] at hs
  | cons t ts =>
    have hne : c.ahead ≠ [] := by simp [ha]
    unfold element
    rw [wp_bind, wp_peek, wp_bind, wp_sees, wp_ite]
    split
    · exact (leads_labeled h c.peek).readsOn hne
    rw [wp_bind, wp_seesKind, wp_ite]
    split
    · exact readsOn_bind (h.block.readsOn hne) fun n => keeps_repeated _ n
    rename_i hparen
    rw [wp_bind]
    refine wp_mono (readsOn_accept (by simp)) fun action? c₁ h₁ => ?_
    rw [wp_ite]
    split at h₁
    · rw [if_pos ‹_›]
      exact h₁.trans (keeps_action _ c₁)
    · obtain ⟨rfl, haction⟩ := h₁
      rw [if_neg ‹_›]
      have hatom : startsAtom (t :: ts) :=
        ha ▸ startsAtom_of_startsElement hs (fun hp => hparen (beq_iff_eq.2 hp)) haction
      exact readsOn_bind (h.atom.readsOn ha hatom) fun n => keeps_repeated _ n

/-- An element of an alternative, or what has no place in it. -/
def elementTurn (nested : Nested) : ParseM (Option Node × Bool) :=
  whileTurn (fun ahead => !endsAlternative ahead) do
    if ← sees startsElement then element nested else skipGarbage

theorem advances_elementTurn {nested : Nested} (h : nested.Keeps Onward) :
    Advances (elementTurn nested) := by
  refine advances_whileTurn fun c hgo => ?_
  rw [wp_bind, wp_sees, wp_ite]
  split
  · exact readsOn_element h ‹_›
  · refine readsOn_skipGarbage fun ha => ?_
    simp [ha, endsAlternative, kindAt] at hgo

/-- What an alternative reads before its elements: where it starts, and perhaps element options. -/
def alternativeOpening : ParseM (Mark × List Node) := do
  let start := (← peek).start
  if let some options ← accept .angle then
    return (start, [← close .elementOptions options.start []])
  else
    return (start, [])

/-- What an alternative reads after its elements: perhaps a label, and perhaps commands. -/
def alternativeEnding (opening : Mark × List Node) (elements : List Node) : ParseM Node := do
  let (start, children) := opening
  let mut children := children ++ elements
  let mut label? := none
  if (← accept .hash).isSome then
    if ← seesName then
      label? := some (← advance).text
    else
      reportMissing "alternative label"
  if ← seesKind .arrow then
    children := children ++ [← commands]
  close (.alternative label?) start children

theorem loops_alternative {nested : Nested} (h : nested.Keeps Onward) :
    Loops (alternative nested) (elementTurn nested) := by
  refine .intro (advances_elementTurn h) alternativeOpening alternativeEnding ?_
  unfold alternative alternativeOpening
  simp only [bind_assoc]
  refine bind_congr fun t => bind_congr fun options? => ?_
  -- what stands before the elements only decides which list the elements are put behind
  cases options? <;> rfl

end ParseM

namespace Cursor
variable {c : Cursor}

/-- One turn of skipping the rest of a rule, and whether another one follows. -/
def skipTurn (first : Bool) (c : Cursor) : Cursor × Bool :=
  match c.ahead with
  | [] => (c, false)
  | t :: ts =>
    if t.kind = .semicolon then (c.after t ts, false)
    else if !first && t.onFreshLine && Lookahead.startsRule (t :: ts) then (c, false)
    else (c.after t ts, true)

theorem skipTurn_of_ahead {t : Token} {ts : List Token} (ha : c.ahead = t :: ts) (first : Bool) :
    c.skipTurn first =
      if t.kind = .semicolon then (c.after t ts, false)
      else if !first && t.onFreshLine && Lookahead.startsRule (t :: ts) then (c, false)
      else (c.after t ts, true) := by
  rw [skipTurn, ha]

theorem readsOn_skipTurn {first : Bool} {c' : Cursor} (h : c.skipTurn first = (c', true)) :
    c.ReadsOn c' := by
  unfold skipTurn at h
  split at h
  · cases h
  · rename_i t ts ha
    split at h
    · cases h
    split at h
    · cases h
    · cases h
      refine (Kept.read (R := Onward) ha).readsOn ?_
      rw [ha]
      exact Nat.lt_succ_self _

/-- The rest of a rule is skipped turn by turn, and each turn but the last reads a token. -/
inductive Skips : Bool → Cursor → Cursor → Prop
  | last {first : Bool} {c c' : Cursor} (h : c.skipTurn first = (c', false)) : Skips first c c'
  | next {first : Bool} {c c₁ c' : Cursor} (h : c.skipTurn first = (c₁, true)) (hread : c.ReadsOn c₁)
    (hrest : Skips false c₁ c') : Skips first c c'

theorem skips_skipRule (c : Cursor) : Skips true c c.skipRule := by
  have go (first : Bool) (last? : Option Token) (ts : List Token) :
      Skips first { c with last?, ahead := ts } (Cursor.skipRule.go c first last? ts) := by
    induction ts generalizing first last? with
    | nil => exact .last rfl
    | cons t ts ih =>
      unfold skipRule.go
      split
      · refine .last ?_
        rw [skipTurn_of_ahead rfl, if_pos ‹_›]
        rfl
      split
      · refine .last ?_
        rw [skipTurn_of_ahead rfl, if_neg ‹_›, if_pos ‹_›]
      · have hturn : skipTurn first { c with last?, ahead := t :: ts } =
            ({ c with last? := some t, ahead := ts }, true) := by
          rw [skipTurn_of_ahead rfl, if_neg ‹_›, if_neg ‹_›]
          rfl
        exact .next hturn (readsOn_skipTurn hturn) (ih _ _)
  exact go true c.last? c.ahead

end Cursor

namespace ParseM
open Lookahead Cursor
variable {c : Cursor}

/-! ## Rules, modes and whole grammars -/

theorem keeps_reportIf (b : Prop) [Decidable b] (cause : Fault.Cause) (t : Token) :
    Keeps Onward (reportIf b cause t) :=
  .ite (fun c => .report c cause t.location) (.pure ())

theorem leads_tokenRule (flavour : Flavour) (start : Mark) (fragment : Bool) (name : Token) :
    Leads Onward (tokenRule flavour start fragment name) := by
  rw [tokenRule_eq]
  exact .intro fun _ => .bind (keeps_reportIf _ _ _) fun _ => keeps_tokenRuleRest _ _ _

theorem leads_parserRule (flavour : Flavour) (start : Mark) (name : Token) :
    Leads Onward (parserRule flavour start name) := by
  rw [parserRule_eq]
  exact .intro fun _ => .bind (keeps_reportIf _ _ _) fun _ => keeps_parserRuleRest _ _

/-- Modifiers that there are were read. -/
theorem readsOn_ruleModifiers (turns : Nat) :
    wp (ruleModifiers turns) (fun _ c' => c' = c ∨ c.ReadsOn c') c := by
  cases turns with
  | zero => exact .inl rfl
  | succ turns =>
    unfold ruleModifiers
    rw [wp_bind, wp_sees, wp_ite]
    split
    · rename_i hgo
      refine wp_mono (readsOn_bind (readsOn_advance ?_) fun word => ?_) fun _ c₁ h₁ => .inr h₁
      · rintro ha
        simp [ha] at hgo
      · exact .bind (keeps_ruleModifiers _) fun later => .pure _
    · exact .inl rfl

theorem readsOn_rule (flavour : Flavour) (hne : c.ahead ≠ []) :
    wp (rule flavour) (fun _ => c.ReadsOn) c := by
  have hread {p : ParseM Node} (hp : Leads Onward p) {c₁ : Cursor} (h₁ : c₁ = c ∨ c.ReadsOn c₁) :
      wp p (fun _ => c.ReadsOn) c₁ := by
    rcases h₁ with rfl | h₁
    · exact hp.readsOn hne
    · exact wp_mono (hp.keeps c₁) fun n c₂ h₂ => h₁.trans h₂
  unfold rule
  simp only [wp_bind, wp_peek, wp_get]
  refine wp_mono (readsOn_ruleModifiers _) fun fragment c₁ h₁ => ?_
  split
  · exact hread (leads_tokenRule _ _ _ _) h₁
  · exact hread (leads_parserRule _ _ _) h₁
  · simp only [wp_bind, wp_reportMissing, wp_modify, wp_close]
    have hreport : Onward c₁ (c₁.reportMissing "rule name") := .report c₁ _ _
    have hskip : Onward (c₁.reportMissing "rule name") (c₁.reportMissing "rule name").skipRule :=
      keeps_skipRule (R := Onward) _
    rcases h₁ with rfl | h₁
    · exact .of_onward hreport (hskip.readsOn (Passage.length_skipRule hne))
    · exact (h₁.trans hreport).trans hskip

theorem keeps_rule (flavour : Flavour) : Keeps Onward (rule flavour) := by
  unfold rule
  refine .peek_bind fun t => .get_bind fun c => .bind (keeps_ruleModifiers _) fun fragment => ?_
  refine .peek_bind fun name => ?_
  split
  · exact (leads_tokenRule _ _ _ _).keeps
  · exact (leads_parserRule _ _ _).keeps
  · refine .bind (keeps_reportMissing _) fun _ => ?_
    exact .bind keeps_skipRule fun _ => keeps_close _ _ _

theorem leads_modeSection (flavour : Flavour) : Leads Onward (modeSection flavour) := by
  rw [modeSection_eq]
  refine .intro fun t => .bind keeps_advance fun name => .bind (keeps_reportIf _ _ _) fun _ => ?_
  refine .bind (keeps_expect _) fun _ => .bind (keeps_gatherWhile (keeps_rule flavour)) fun rules => ?_
  exact keeps_close _ _ _

theorem readsOn_grammarPart (flavour : Flavour) (hne : c.ahead ≠ []) :
    wp (grammarPart flavour) (fun _ => c.ReadsOn) c := by
  unfold grammarPart
  rw [wp_bind]
  refine wp_mono readsOn_prequel fun n? c₁ ⟨hfound, hnone⟩ => ?_
  cases n? with
  | some n => exact hfound rfl
  | none =>
    obtain rfl := hnone rfl
    show wp (do if ← sees startsMode then modeSection flavour else rule flavour) _ _
    rw [wp_bind, wp_sees, wp_ite]
    split
    · exact (leads_modeSection flavour).readsOn hne
    · exact readsOn_rule flavour hne

/-- A header is one child, of a token at least. -/
theorem grammarHeader_length :
    wp grammarHeader (fun r c' => r.1.length + c'.ahead.length ≤ c.ahead.length) c := by
  unfold grammarHeader
  simp only [wp_bind, wp_get]
  split
  · rename_i flavour hflavour
    have hne : c.ahead ≠ [] := by
      rintro ha
      simp [ha, headerFlavour?, isWordAt] at hflavour
    obtain ⟨t, ts, ha⟩ := List.exists_cons_of_ne_nil hne
    rw [wp_bind]
    refine wp_mono ((tries_header flavour).readsOn ha rfl) fun n c₁ h₁ => ?_
    have := h₁.length_lt
    rw [wp_pure, List.length_singleton]
    omega
  · simp only [wp_bind, wp_peek, wp_pure, wp_reportAt, List.length_nil]
    exact (Nat.zero_add _).le

/-- A grammar has no more children than tokens were read. -/
theorem grammar_length :
    wp ParseM.grammar (fun root c' => root.children.length + c'.ahead.length ≤ c.ahead.length) c := by
  unfold ParseM.grammar
  simp only [wp_bind]
  refine wp_mono grammarHeader_length fun (first, flavour) c₁ h₁ => ?_
  simp only [wp_get, wp_pure, List.length_append]
  refine wp_mono (wp_gatherWhile_of_progress
    (I := fun parts c' => first.length + parts.length + c'.ahead.length ≤ c.ahead.length)
    (fun parts c₂ h₂ hgo => ?_) h₁) fun parts c₂ h₂ => h₂.1
  refine wp_mono (readsOn_grammarPart flavour (by simpa using hgo)) fun n c₃ h₃ => ?_
  have := h₃.length_lt
  rw [List.length_append, List.length_singleton]
  exact ⟨by omega, this⟩

theorem keeps_grammar : Keeps Onward ParseM.grammar := by
  refine .bind keeps_grammarHeader fun (first, flavour) => ?_
  refine .bind (keeps_gatherWhile (.bind keeps_prequel fun n? => ?_)) fun parts => ?_
  · cases n? with
    | some n => exact .pure n
    | none => exact .sees_bind fun b => .ite (leads_modeSection flavour).keeps (keeps_rule flavour)
  · exact .get_bind fun c => .pure _

/-- Where the parser has to read something, it does: a declaration that is found was read, a mode and
a rule take a token at least, and so does each turn of a loop that another one follows. -/
structure Headway : Prop where
  prequel (c : Cursor) : wp prequel (fun n? c' => n?.isSome → c.ReadsOn c') c
  modeSection (flavour : Flavour) (c : Cursor) (hne : c.ahead ≠ []) :
    wp (modeSection flavour) (fun _ => c.ReadsOn) c
  rule (flavour : Flavour) (c : Cursor) (hne : c.ahead ≠ []) : wp (rule flavour) (fun _ => c.ReadsOn) c
  options : Loops options optionTurn
  alternative (room : Nat) :
    Loops (alternative (Nested.within room)) (elementTurn (Nested.within room))
  delegates : Loops delegates (listTurn delegate "grammar name")
  commands : Loops commands (listTurn command "lexer command")
  skipTurn {first : Bool} {c c' : Cursor} (h : c.skipTurn first = (c', true)) : c.ReadsOn c'
  skipRule (c : Cursor) : Skips true c c.skipRule

theorem headway : Headway where
  prequel _ := wp_mono readsOn_prequel fun _ _ h => h.1
  modeSection flavour _ hne := (leads_modeSection flavour).readsOn hne
  rule flavour _ hne := readsOn_rule flavour hne
  options := loops_options
  alternative room := loops_alternative (Nested.keeps_within room)
  delegates := loops_delegates
  commands := loops_commands
  skipTurn h := readsOn_skipTurn h
  skipRule := skips_skipRule

end ParseM

namespace Grammar

/-- Reading a text ends at the token that stands for its end, reads something wherever it goes on, and
makes no more parts of a grammar than there are tokens. -/
theorem parse_headway (text : String) :
    let stream := (TokenStream.ofChars text.toList).1
    (∃ c, ParseM.grammar.run (.ofStream stream) = ((parse text).tree, c) ∧ c.ahead = [] ∧
      c.peek = stream.finish ∧ c.peek.kind = .finish) ∧
    ParseM.Headway ∧
    (parse text).tree.children.length ≤ stream.tokens.length := by
  intro stream
  have hregular := Cursor.regular_ofStream text.toList
  obtain ⟨-, hahead, -⟩ := ParseM.forms_grammar hregular
  have hfinish := (ParseM.keeps_grammar (.ofStream stream)).finish
  have hlength : _ ≤ stream.tokens.length := ParseM.grammar_length (c := .ofStream stream)
  have hpeek : (ParseM.grammar.run (.ofStream stream)).2.peek = stream.finish := by
    rw [Cursor.peek, hahead]
    exact hfinish
  have htree : (parse text).tree = (ParseM.grammar.run (.ofStream stream)).1 := by rw [parse_eq]
  refine ⟨⟨(ParseM.grammar.run (.ofStream stream)).2, ?_, hahead, hpeek, ?_⟩, ParseM.headway, ?_⟩
  · rw [htree]
    rfl
  · rw [hpeek]
    exact hregular.finish
  · rw [htree]
    exact (Nat.le_add_right _ _).trans hlength

/-- A text in which hardly anything is at its place. -/
theorem parse_headway_misplaced :
    let text := "grammar \x7d options \x7b ; = x \x7d import , ; r : ) -> ] ; = ;"
    let c := Cursor.ofStream (TokenStream.ofChars text.toList).1
    (parse text).tree.children.length ≤ 17 ∧
      (c.ahead ≠ [] ∧ ParseM.wp (ParseM.rule .lexer) (fun _ => c.ReadsOn) c) ∧
      ∃ c', c.skipTurn true = (c', true) ∧ c.ReadsOn c' := by
  intro text c
  obtain ⟨-, hheadway, hlength⟩ := parse_headway text
  have hne : c.ahead ≠ [] := by decide +kernel
  have hturn : (c.skipTurn true).2 = true := by decide +kernel
  have htokens : (TokenStream.ofChars text.toList).1.tokens.length = 17 := by decide +kernel
  exact ⟨htokens ▸ hlength, ⟨hne, hheadway.rule .lexer c hne⟩, (c.skipTurn true).1,
    Prod.ext rfl hturn, hheadway.skipTurn (Prod.ext rfl hturn)⟩

end Grammar

end GrammarAtlas
