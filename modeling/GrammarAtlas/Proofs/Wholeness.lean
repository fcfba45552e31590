import GrammarAtlas.Proofs.Formation
import GrammarAtlas.Proofs.Locations

/-! # Nothing goes wrong in silence

The passages of rules, modes and whole grammars. A rule reads up to its semicolon and, if it is a
parser rule, the handlers behind that; where its colon or its semicolon is missing, it reports that
and skips to the next semicolon (`forms_rule`).

The parts of a grammar read the whole text (`forms_grammar`). So each `error` node of the tree has a
fault, and a text without a fault is derived from the root (`Grammar.parse_reports`). -/

namespace GrammarAtlas

open scoped Computability

namespace ParseM
open Lookahead Node.Kind Stretch

variable {c c₁ : Cursor}

theorem forms_clause (w : String) (hc : c.Regular) :
    Forms body (clause w) (fun _ => Shape.perhaps (Shape.clause w)) id c := by
  unfold Forms clause
  simp only [wp_bind, wp_sees, wp_ite, wp_pure, wp_close]
  split
  · rename_i hs
    obtain ⟨t, u, ts, ha, ht, hu⟩ := exists_of_isWordAt_kindAt hs nofun
    refine (Passage.start hc nil_mem_body).word ha ht (takes_body nofun) fun h₁ => ?_
    have harguments : Passage body (c.after t (u :: ts)) (Shape.sign .bracket) [] _ :=
      .next h₁.regular rfl (Shape.singleton_mem_token hu) (singleton_mem_body (by rw [hu]; nofun))
    refine wp_advance_of_ahead rfl ?_
    refine (h₁.trans (harguments.closed .action le_add_self nofun _) body_mul_body).mono le_rfl ?_
    rw [one_mul]
    exact le_add_self
  · exact (Passage.start hc nil_mem_body).mono le_rfl le_self_add

theorem forms_throwsClause (hc : c.Regular) :
    Forms body throwsClause (fun _ => Shape.perhaps Shape.throwsClause) (fun _ => []) c := by
  unfold Forms throwsClause
  simp only [wp_bind, wp_sees, wp_ite, wp_pure]
  split
  · rename_i hs
    obtain ⟨t, ts, ha, ht⟩ := exists_of_isWordAt hs
    refine (Passage.start hc nil_mem_body).word ha ht (takes_body nofun) fun h₁ => ?_
    rw [one_mul] at h₁
    let names : Shape := Shape.word "throws" * (Shape.thrown * Shape.sign .comma)∗
    -- No turn has a node.
    refine wp_gather_of_progress (I := fun ns c₂ => ns = [] ∧ Passage body c names [] c₂) ?turn
      ⟨rfl, h₁.mono le_rfl (Shape.le_mul_kstar _ _)⟩
    rintro ns c₂ ⟨rfl, h₂⟩
    have hlast {L : Shape} {c₃ : Cursor} (h₃ : Passage body c (names * L) [] c₃)
        (hL : L ≤ Shape.perhaps Shape.thrown) :
        Passage body c (Shape.perhaps Shape.throwsClause) [] c₃ := by
      refine h₃.mono le_rfl (le_trans ?_ le_add_self)
      rw [mul_assoc]
      exact mul_le_mul_right (mul_le_mul_right hL _) _
    simp only [wp_bind, wp_sees, wp_ite, wp_pure, h₂.regular.isNameAt_zero]
    split
    · rename_i hn
      rw [Bool.and_eq_true, Bool.not_eq_true'] at hn
      obtain ⟨ts, ha⟩ := h₂.regular.ahead_of_peek (Token.kind_ne_finish hn.1)
      have hthrown : [.token c₂.peek] ∈ Shape.thrown := by
        refine Shape.singleton_mem_token ⟨hn.1, fun hword => ?_⟩
        have hlocals := hn.2
        rw [ha] at hlocals
        exact absurd hword (Bool.eq_false_iff.1 hlocals)
      refine h₂.advance (Token.kind_ne_finish hn.1) hthrown (takes_body_name _ hn.1)
        fun c₃ h₃ hlt => ?_
      refine h₃.accept nofun (takes_body nofun) (hlast h₃ le_add_self) fun c₄ h₄ hlt' => ?_
      refine ⟨⟨rfl, h₄.mono le_rfl ?_⟩, hlt'.trans hlt⟩
      rw [mul_assoc]
      exact Shape.mul_kstar_mul_le _ _
    · exact hlast (h₂.mono le_rfl (mul_one _).ge) le_self_add
  · exact (Passage.start hc nil_mem_body).mono le_rfl le_self_add

theorem forms_rulePrequel (hc : c.Regular) :
    Forms body rulePrequel (fun _ => Shape.rulePrequel) id c := by
  unfold Forms rulePrequel
  extract_lets children rest
  have hrest (u : Unit) {ns : List Node} {c₁ : Cursor}
      (h₁ : Passage body c (Shape.perhaps (Shape.node (· = .action))) ns c₁) :
      wp (rest u ns) (fun ns c' => Passage body c Shape.rulePrequel ns c') c₁ := by
    simp only [rest, wp_bind, wp_pure]
    refine h₁.go (forms_clause _ h₁.regular) body_mul_body fun returns c₂ h₂ => ?_
    refine h₂.go (forms_throwsClause h₂.regular) body_mul_body fun _ c₃ h₃ => ?_
    rw [List.append_nil] at h₃
    refine h₃.go (forms_clause _ h₃.regular) body_mul_body fun locals c₄ h₄ => ?_
    have hdeclared := h₄.mono le_rfl (Shape.le_mul_kstar _ Shape.declaration)
    rw [← List.append_nil (_ ++ id locals)] at hdeclared
    refine wp_gather_of_invariant (I := fun ms => Passage body c _ (_ ++ ms)) ?_ hdeclared
    intro ms c₅ h₅
    have hnext {n : Node} {c₆ : Cursor} (h₆ : Passage body.proper c₅ Shape.declaration [n] c₆) :
        Passage body c Shape.rulePrequel (ns ++ id returns ++ id locals ++ (ms ++ [n])) c₆ := by
      rw [← List.append_assoc]
      refine (h₅.trans (h₆.mono (proper_le _) le_rfl) body_mul_body).mono le_rfl ?_
      exact Shape.mul_kstar_mul_le _ _
    simp only [wp_bind, wp_sees, wp_seesKind, wp_ite, wp_pure, h₅.regular.kindAt_zero]
    split
    · rename_i hs
      exact wp_mono (forms_options h₅.regular hs) fun n c₆ h₆ => hnext (h₆.mono le_rfl le_self_add)
    split
    · rename_i hk
      refine wp_mono (forms_namedAction h₅.regular (beq_iff_eq.1 hk)) fun n c₆ h₆ => ?_
      exact hnext (h₆.mono le_rfl le_add_self)
    · rwa [Option.toList_none, List.append_nil]
  have hstart : Passage body c 1 [] c := .start hc nil_mem_body
  simp only [wp_bind]
  refine hstart.accept nofun (takes_body nofun) (hrest () (hstart.mono le_rfl le_self_add))
    fun c₁ h₁ _ => ?_
  rw [one_mul] at h₁
  simp only [wp_bind, wp_close]
  exact hrest () ((h₁.closed .action le_add_self nofun _).mono le_rfl le_add_self)

theorem finishRule_on {L : Shape} {ns : List Node} {S T : Stretch} {Q : Unit → Cursor → Prop}
    (h : Passage S c L ns c₁) (hbody : ∀ kind : Token.Kind, kind ≠ .semicolon → S.Takes kind S)
    (hended : S.Takes .semicolon T) (hST : S ≤ T)
    (hQ : ∀ c₂, Passage T c (L * Shape.sign .semicolon) ns c₂ → Q () c₂) : wp finishRule Q c₁ := by
  unfold finishRule
  simp only [wp_bind, wp_ite, wp_pure, wp_sees, wp_modify, wp_reportMissing]
  refine h.accept nofun hended ?_ fun c₂ h₂ _ => hQ c₂ h₂
  have hreport := h.reportMissing "';'"
  simp only [Option.isNone_none, if_true]
  split
  · exact hQ _ (hreport.mono hST le_rfl).failed
  · exact hQ _ (hreport.skipRule hbody hended hST).failed

theorem wp_expect_of_ahead {Q : Option Token → Cursor → Prop} {t : Token} {ts : List Token}
    (ha : c.ahead = t :: ts) (hQ : Q (some t) (c.after t ts)) : wp (expect t.kind) Q c := by
  have hk : (kindAt c.ahead 0 == t.kind) = true := by
    rw [ha]
    exact beq_self_eq_true _
  unfold expect accept
  simp only [wp_bind, wp_seesKind, wp_ite, wp_pure]
  rw [if_pos hk]
  exact wp_advance_of_ahead ha hQ

theorem forms_handler (hc : c.Regular) (hs : startsHandler c.ahead) :
    Forms handlers.proper handler (fun _ => Shape.node (· = .handler)) (fun n => [n]) c := by
  have htwo {w : String} {t u : Token} {ts : List Token} (ha : c.ahead = t :: u :: ts)
      (ht : t.isWord w) (hu : u.kind = .bracket ∨ u.kind = .action) :
      Passage handlers.proper c (Shape.word w * Shape.sign u.kind) []
        ((c.after t (u :: ts)).after u ts) := by
    have hword : Passage {[t]} c (Shape.word w) [] (c.after t (u :: ts)) :=
      .next hc ha (Shape.singleton_mem_token ht) rfl
    refine hword.token rfl (Shape.singleton_mem_token rfl) ?_
    rintro _ rfl u' hu'
    refine pair_mem_handlers ?_ (hu' ▸ hu)
    rw [(Token.isWord_iff.1 ht).1]
    nofun
  unfold Forms ParseM.handler
  simp only [wp_bind, wp_ite, wp_close]
  rw [startsHandler, Bool.or_eq_true] at hs
  rcases hs with hs | hs
  · obtain ⟨t, u, ts, ha, ht, hu⟩ := exists_of_isWordAt_kindAt hs nofun
    have h₂ := htwo ha ht (.inl hu)
    refine wp_advance_of_ahead ha ?_
    rw [if_pos (Token.isWord_iff.1 ht).2, ← hu]
    refine wp_expect_of_ahead rfl ?_
    refine h₂.need nofun (takes_handlers nofun) le_rfl fun _ c₃ h₃ => ?_
    rw [hu] at h₃
    exact h₃.closed .handler le_self_add nofun _
  · obtain ⟨t, u, ts, ha, ht, hu⟩ := exists_of_isWordAt_kindAt hs nofun
    have h₂ := htwo ha ht (.inr hu)
    have htext : t.text ≠ "catch" := by
      rw [(Token.isWord_iff.1 ht).2]
      decide
    refine wp_advance_of_ahead ha ?_
    rw [if_neg htext, ← hu]
    refine wp_expect_of_ahead rfl ?_
    rw [hu] at h₂
    exact h₂.closed .handler le_add_self nofun _

/-- The rest of a rule whose colon is missing. -/
theorem skipRule_on {ns : List Node} {L : Shape} (h : Passage body.proper c 0 ns c₁) :
    Passage ended.proper c L ns c₁.skipRule :=
  (h.skipRule (fun _ hk => .proper (takes_body hk)) takes_ended.proper
    (proper_mono body_le_ended)).failed

theorem forms_tokenRule {fragment : Bool} (h : Passage body c (Shape.modifiers fragment) [] c₁)
    (hn : c₁.peek.isName) (flavour : Flavour) (start : Mark) :
    wp (tokenRule flavour start fragment c₁.peek)
      (fun n c' => Passage settled.proper c (Shape.node fun kind => kind.isRule) [n] c') c₁ := by
  unfold ParseM.tokenRule
  extract_lets children close rest options
  have hclose {ns : List Node} {c₂ : Cursor}
      (h₂ : Passage ended.proper c (Shape.ofKind (.tokenRule fragment)) ns c₂) (l : Location) :
      Passage settled.proper c (Shape.node fun kind => kind.isRule) [⟨.tokenRule fragment, l, ns⟩]
        c₂ :=
    ((h₂.closed _ le_rfl nofun l).weaken (by rfl)).mono (proper_mono ended_le_settled) le_rfl
  have hrest (u : Unit) {ns : List Node} {c₂ : Cursor} (h₂ : Passage body.proper c
      (Shape.modifiers fragment * Shape.identifier * Shape.perhaps (Shape.node (· = .options))) ns
        c₂) :
      wp (rest u ns)
        (fun n c' => Passage settled.proper c (Shape.node fun kind => kind.isRule) [n] c') c₂ := by
    simp only [rest, wp_bind, wp_ite, wp_modify]
    refine h₂.expect nofun (.proper (takes_body nofun)) (fun c₃ h₃ => ?_) fun _ c₃ h₃ => ?_
    · exact hclose (skipRule_on h₃) _
    · rw [if_neg (by simp)]
      refine h₃.go (forms_alternatives h₃.regular) proper_mul_body fun n c₄ h₄ => ?_
      refine finishRule_on h₄ (fun _ hk => .proper (takes_body hk)) takes_ended.proper
        (proper_mono body_le_ended) fun c₅ h₅ => hclose (h₅.mono le_rfl ?_) _
      rw [mul_assoc, mul_assoc, ← mul_assoc (Shape.sign .colon)]
      exact le_rfl
  have hoptions (u : Unit) {c₂ : Cursor} (h₂ : Passage body.proper c
      (Shape.modifiers fragment * Shape.identifier) [identifier c₁.peek] c₂) :
      wp (options u)
        (fun n c' => Passage settled.proper c (Shape.node fun kind => kind.isRule) [n] c') c₂ := by
    simp only [options, wp_bind, wp_sees, wp_ite]
    split
    · rename_i hs
      refine wp_mono (forms_options h₂.regular hs) fun n c₃ h₃ => hrest () ?_
      have hoptions := h₂.trans (h₃.mono (proper_le _) le_rfl) proper_mul_body
      exact hoptions.mono le_rfl (Shape.mul_le_mul_perhaps _ _)
    · exact hrest () (h₂.mono le_rfl (Shape.le_mul_perhaps _ _))
  simp only [wp_bind, wp_ite, wp_reportAt]
  refine h.identifier hn (fun kind hk => takes_proper (takes_body_name kind hk)) fun c₂ h₂ => ?_
  split
  · exact hoptions () (h₂.report _ _).failed
  · exact hoptions () h₂

theorem forms_parserRule {fragment : Bool} (h : Passage body c (Shape.modifiers fragment) [] c₁)
    (hn : c₁.peek.isName) (flavour : Flavour) (start : Mark) :
    wp (parserRule flavour start c₁.peek)
      (fun n c' => Passage settled.proper c (Shape.node fun kind => kind.isRule) [n] c') c₁ := by
  unfold ParseM.parserRule
  extract_lets close prequel
  have hclose {ns : List Node} {c₂ : Cursor}
      (h₂ : Passage settled.proper c (Shape.ofKind .parserRule) ns c₂) (l : Location) :
      Passage settled.proper c (Shape.node fun kind => kind.isRule) [⟨.parserRule, l, ns⟩] c₂ :=
    (h₂.closed _ le_rfl nofun l).weaken (by rfl)
  have hprequel (u : Unit) {c₂ : Cursor} (h₂ : Passage body.proper c
      ((Shape.modifiers true + Shape.modifiers false) * Shape.identifier) [identifier c₁.peek] c₂) :
      wp (prequel u)
        (fun n c' => Passage settled.proper c (Shape.node fun kind => kind.isRule) [n] c') c₂ := by
    simp only [prequel, wp_bind, wp_ite, wp_modify]
    refine h₂.go (forms_rulePrequel h₂.regular) proper_mul_body fun ns c₃ h₃ => ?_
    refine h₃.expect nofun (.proper (takes_body nofun)) (fun c₄ h₄ => ?_) fun _ c₄ h₄ => ?_
    · exact hclose ((skipRule_on h₄).mono (proper_mono ended_le_settled) le_rfl) _
    rw [if_neg (by simp)]
    refine h₄.go (forms_alternatives h₄.regular) proper_mul_body fun n c₅ h₅ => ?_
    refine finishRule_on h₅ (fun _ hk => .proper (takes_body hk)) takes_ended.proper
      (proper_mono body_le_ended) fun c₆ h₆ => ?_
    -- What handlers read is known by its first two tokens, so their passage begins here.
    refine (Passage.start h₆.regular nil_mem_handlers).gatherWhile
      (fun c hc hs => forms_handler hc hs)
      ((mul_le_mul_right (proper_le _) _).trans handlers_mul_handlers) fun handlers c₇ h₇ => ?_
    have hrule := h₆.trans h₇ proper_mul_handlers
    refine hclose (hrule.mono le_rfl ?_) _
    rw [one_mul, mul_assoc (_ * Shape.sign .colon), mul_assoc _ (Shape.sign .colon),
      ← mul_assoc (Shape.sign .colon)]
    exact le_rfl
  simp only [wp_bind, wp_ite, wp_reportAt]
  have hmodifiers : Shape.modifiers fragment ≤ Shape.modifiers true + Shape.modifiers false := by
    cases fragment with
    | true => exact le_self_add
    | false => exact le_add_self
  refine (h.mono le_rfl hmodifiers).identifier hn
    (fun kind hk => takes_proper (takes_body_name kind hk)) fun c₂ h₂ => ?_
  split
  · exact hprequel () (h₂.report _ _).failed
  · exact hprequel () h₂

theorem exists_of_isNameAt_one {ahead : List Token} (h : isNameAt ahead 1) :
    ∃ t u ts, ahead = t :: u :: ts ∧ u.isName := by
  match ahead, h with
  | t :: u :: ts, h => exact ⟨t, u, ts, rfl, h⟩

/-- Modifiers are read as long as a name follows. -/
theorem forms_ruleModifiers (turns : Nat) (hc : c.Regular) :
    wp (ruleModifiers turns) (fun fragment c' =>
      Passage body c (Shape.modifiers fragment) [] c' ∧ (c' = c ∨ c'.peek.isName)) c := by
  have hnone (c : Cursor) (hc : c.Regular) : Passage body c (Shape.modifiers false) [] c := by
    refine (Passage.start hc nil_mem_body).mono le_rfl fun w hw => ?_
    rw [(Language.mem_one w).1 hw]
    exact ⟨[], rfl, by simp, rfl⟩
  induction turns generalizing c with
  | zero => exact ⟨hnone c hc, .inl rfl⟩
  | succ turns ih =>
    unfold ruleModifiers
    simp only [wp_bind, wp_sees, wp_ite, wp_pure]
    split
    · rename_i hs
      rw [Bool.and_eq_true] at hs
      obtain ⟨t, u, ts, ha, hu⟩ := exists_of_isNameAt_one hs.2
      have ht : isModifier t := by
        rw [ha] at hs
        exact hs.1
      have hkind : t.kind ≠ .semicolon := by
        obtain ⟨w, -, hw⟩ := List.any_eq_true.1 ht
        rw [(Token.isWord_iff.1 hw).1]
        decide
      have hone : Passage body c {[.token t]} [] (c.after t (u :: ts)) :=
        .next hc ha rfl (singleton_mem_body hkind)
      refine wp_advance_of_ahead ha ?_
      refine wp_mono (ih hone.regular) fun later c₁ h₁ => ?_
      obtain ⟨h₁, hpeek⟩ := h₁
      refine ⟨?_, .inr ?_⟩
      · refine (hone.trans h₁ body_mul_body).mono le_rfl ?_
        rintro _ ⟨_, rfl, _, ⟨ts, rfl, hts, rfl⟩, rfl⟩
        exact ⟨t :: ts, rfl, List.forall_mem_cons.2 ⟨ht, hts⟩, rfl⟩
      · rcases hpeek with rfl | hpeek
        · exact hu
        · exact hpeek
    · exact ⟨hnone c hc, .inl trivial⟩

theorem forms_rule (flavour : Flavour) (hc : c.Regular) (hne : c.ahead ≠ []) :
    Forms settled.proper (rule flavour) (fun _ => Shape.node fun kind => kind.isRule) (fun n => [n])
      c := by
  unfold Forms rule
  simp only [wp_bind, wp_peek, wp_get]
  refine wp_mono (forms_ruleModifiers _ hc) fun fragment c₁ ⟨h₁, hpeek⟩ => ?_
  split
  · rename_i hk
    exact forms_tokenRule h₁ (Token.isName_iff.2 (.inl hk)) flavour _
  · rename_i hk
    exact forms_parserRule h₁ (Token.isName_iff.2 (.inr hk)) flavour _
  · rename_i hupper hlower
    -- No modifier was read, since a name would follow it.
    have hstay : c₁ = c := by
      refine hpeek.resolve_right fun hname => ?_
      rcases Token.isName_iff.1 hname with hk | hk
      · exact hupper hk
      · exact hlower hk
    subst hstay
    simp only [wp_bind, wp_modify, wp_close, wp_reportMissing]
    have hreport := (Passage.start hc nil_mem_body).reportMissing "rule name"
    have hskipped := (hreport.skipRule (fun _ hk => takes_body hk) takes_ended body_le_ended).proper
      (Passage.length_skipRule hne)
    refine (hskipped.mono (proper_mono ended_le_settled) le_rfl).error ?_
    rw [Passage.faults_skipRule]
    exact ⟨_, .head _, rfl⟩

/-! ## Modes and grammars -/

theorem proper_top_mul (S : Stretch) : (⊤ : Stretch).proper * S ≤ (⊤ : Stretch).proper :=
  (proper_mul _ _).trans (proper_mono le_top)

theorem ne_nil_of_goesOn {ahead : List Token} (h : !ahead.isEmpty && !startsMode ahead) :
    ahead ≠ [] := by
  rintro rfl
  cases h

/-- A mode is its lead and the rules behind that. -/
theorem wp_modeSection {flavour : Flavour} {Q : Node → Cursor → Prop} (hc : c.Regular)
    (hm : startsMode c.ahead)
    (hQ : ∀ name c₁, Passage ended.proper c
        (Shape.word "mode" * Shape.identifier * Shape.sign .semicolon) [identifier name] c₁ →
      wp (gatherWhile (fun ahead => !ahead.isEmpty && !startsMode ahead) (rule flavour))
        (fun rules c₂ => ∀ l, Q ⟨.modeSection, l, identifier name :: rules⟩ c₂) c₁) :
    wp (modeSection flavour) Q c := by
  obtain ⟨t, name, ts, ha, hn⟩ := exists_name_of_startsMode hm
  have ht : t.isWord "mode" := by
    rw [startsMode, Bool.and_eq_true, ha] at hm
    exact hm.1
  unfold ParseM.modeSection
  simp -zeta only [wp_bind]
  refine (Passage.start hc nil_mem_body).word ha ht (takes_proper (takes_body (by decide)))
    fun h₁ => ?_
  rw [one_mul] at h₁
  extract_lets start
  simp -zeta only [wp_bind]
  refine h₁.identifier hn (fun kind hk => .proper (takes_body_name kind hk)) fun c₂ h₂ => ?_
  extract_lets rules
  have hrules (u : Unit) {c₂ : Cursor} (h₂ : Passage body.proper c
      (Shape.word "mode" * Shape.identifier) [identifier name] c₂) : wp (rules u) Q c₂ := by
    simp only [rules, wp_bind, wp_close]
    refine h₂.need (by decide) takes_ended.proper (proper_mono body_le_ended) fun _ c₃ h₃ => ?_
    exact wp_mono (hQ name c₃ h₃) fun ns c₄ h₄ => h₄ _
  simp only [wp_bind, wp_ite, wp_reportAt]
  split
  · exact hrules () (h₂.report _ _).failed
  · exact hrules () h₂

theorem forms_modeSection (flavour : Flavour) (hc : c.Regular) (hm : startsMode c.ahead) :
    Forms (⊤ : Stretch).proper (modeSection flavour) (fun _ => Shape.node (· = .modeSection))
      (fun n => [n]) c := by
  refine wp_modeSection hc hm fun name c₁ h₁ => ?_
  refine (h₁.mono (proper_mono le_top) le_rfl).gatherWhile
    (fun c hc hcond => forms_rule flavour hc (ne_nil_of_goesOn hcond)) (proper_top_mul _)
    fun ns c₂ h₂ l => h₂.closed .modeSection le_rfl nofun l

theorem forms_grammarPart (flavour : Flavour) (hc : c.Regular) (hne : c.ahead ≠ []) :
    Forms (⊤ : Stretch).proper (grammarPart flavour) (fun _ => Shape.node fun kind => kind.isPart)
      (fun n => [n]) c := by
  unfold Forms grammarPart
  simp only [wp_bind]
  refine wp_mono (forms_prequel hc) fun n? c₁ h₁ => ?_
  cases n? with
  | some n => exact h₁.mono (proper_mono le_top) le_rfl
  | none =>
    obtain rfl : c₁ = c := h₁
    simp only [wp_bind, wp_sees, wp_ite]
    split
    · rename_i hm
      exact wp_mono (forms_modeSection flavour hc hm) fun n c₂ h₂ => h₂.weaken (by rfl)
    · refine wp_mono (forms_rule flavour hc hne) fun n c₂ h₂ => h₂.mono (proper_mono le_top) ?_
      exact Shape.node_mono fun kind hk => by simp [isPart, hk]

theorem forms_grammarHeader (hc : c.Regular) :
    Forms ended grammarHeader
      (fun _ => Shape.node fun kind => ∃ flavour, kind = .header flavour) Prod.fst c := by
  unfold Forms grammarHeader
  simp only [wp_bind, wp_get]
  split
  · rename_i flavour hf
    simp only [wp_bind, wp_pure]
    exact wp_mono (forms_header hc hf) fun n c₁ h₁ => h₁
  · simp only [wp_bind, wp_peek, wp_pure, wp_reportAt]
    exact (((Passage.start hc nil_mem_body).report _ _).mono body_le_ended le_rfl).failed

/-- The whole text is read. -/
theorem forms_grammar (hc : c.Regular) :
    wp ParseM.grammar (fun root c' => root.kind = .grammar ∧ c'.ahead = [] ∧
      Passage ⊤ c (Shape.ofKind .grammar) root.children c') c := by
  unfold ParseM.grammar
  simp only [wp_bind]
  refine wp_mono (forms_grammarHeader hc) fun (first, flavour) c₁ h₁ => ?_
  simp only [wp_get, wp_pure]
  let part : Shape := Shape.node fun kind => kind.isPart
  let header : Shape := Shape.node fun kind => ∃ flavour, kind = .header flavour
  have hstart : Passage ⊤ c (header * part∗) (first ++ []) c₁ := by
    rw [List.append_nil]
    exact h₁.mono le_top (Shape.le_mul_kstar _ _)
  refine wp_mono (wp_gatherWhile_of_progress
    (I := fun ns => Passage ⊤ c (header * part∗) (first ++ ns)) (fun ns c₂ h₂ hne => ?_) hstart)
    fun ns c₂ ⟨h₂, hempty⟩ => ⟨trivial, by simpa using hempty, h₂⟩
  refine wp_mono (forms_grammarPart flavour h₂.regular (by simpa using hne)) fun n c₃ h₃ => ?_
  refine ⟨?_, h₃.length_lt⟩
  rw [← List.append_assoc]
  exact (h₂.trans h₃ le_top).mono le_rfl (Shape.mul_kstar_mul_le _ _)

end ParseM

namespace Grammar

/-- What holds of reading the tokens holds of the tree, and the faults found on the way are among
those of the text. -/
theorem parse_of_wp {text : String} {Q : Node → Cursor → Prop}
    (h : ParseM.wp ParseM.grammar Q (.ofStream (TokenStream.ofChars text.toList).1)) :
    ∃ c, Q (parse text).tree c ∧
      ∀ f, f ∈ (parse text).faults ↔ f ∈ (TokenStream.ofChars text.toList).2 ∨ f ∈ c.faults := by
  rw [parse_eq]
  refine ⟨_, h, fun f => ?_⟩
  rw [Fault.mem_arrange, List.mem_append, List.mem_reverse]

theorem parse_passage (text : String) :
    ∃ c, ((parse text).tree.kind = .grammar ∧ c.ahead = [] ∧
      Passage ⊤ (.ofStream (TokenStream.ofChars text.toList).1) (Shape.ofKind .grammar)
        (parse text).tree.children c) ∧
      ∀ f, f ∈ (parse text).faults ↔ f ∈ (TokenStream.ofChars text.toList).2 ∨ f ∈ c.faults :=
  parse_of_wp (ParseM.forms_grammar (Cursor.regular_ofStream text.toList))

/-- Without a fault the tree is a derivation of all tokens. -/
theorem parse_derives {text : String} (h : (parse text).faults = []) :
    Derives [.node (parse text).tree true] (TokenStream.ofChars text.toList).1.tokens := by
  obtain ⟨c, ⟨hkind, hahead, hpassage⟩, hfaults⟩ := parse_passage text
  have hclean : c.faults = [] := by
    refine List.eq_nil_iff_forall_not_mem.2 fun f hf => ?_
    have hmem := (hfaults f).2 (.inr hf)
    rw [h] at hmem
    cases hmem
  obtain ⟨us, hus, -, hshape⟩ := hpassage.course
  obtain ⟨items, hitems, hnodes, hderives⟩ := hshape hclean
  have htokens : (TokenStream.ofChars text.toList).1.tokens = us ++ [] := hahead ▸ hus
  rw [htokens]
  exact .node true (hkind ▸ hitems) hderives hnodes .nil

/-- Reading reports whatever goes wrong. Each `error` node starts where a fault was found. Without a
fault the tree is a derivation of the text from its root, of all tokens and in their order, so that
none was skipped, and no node lacks what its kind asks for. -/
theorem parse_reports (text : String) :
    (∀ visit ∈ (parse text).tree.walk, visit.2.2.kind = .error →
      ∃ fault ∈ (parse text).faults, fault.location.start = visit.2.2.location.start) ∧
    ((parse text).faults = [] →
      Derives [.node (parse text).tree true] (TokenStream.ofChars text.toList).1.tokens ∧
      (∃ header name parts, (parse text).tree.children = header :: parts ∧ header.isHeader ∧
        header.children = [name] ∧ name.kind.isIdentifier) ∧
      ∀ visit ∈ (parse text).tree.walk, visit.2.2.Complete) := by
  obtain ⟨c, ⟨hkind, -, hpassage⟩, hfaults⟩ := parse_passage text
  constructor
  · have hroot : (parse text).tree.Everywhere (Node.Witnessed c.faults) :=
      .mk (fun herror => nomatch hkind.symm.trans herror) hpassage.witnessed
    intro visit hvisit herror
    obtain ⟨fault, hfault, hstart⟩ := hroot.visits none 0 visit hvisit herror
    exact ⟨fault, (hfaults fault).2 (.inr hfault), hstart⟩
  · intro hclean
    have hderives := parse_derives hclean
    have hroot : (parse text).tree.Everywhere Node.Complete := hderives.complete (.head _)
    refine ⟨hderives, ?_, hroot.visits none 0⟩
    obtain ⟨hcomplete, hchildren⟩ := hroot
    rw [Node.Complete, hkind] at hcomplete
    obtain ⟨header, parts, heq, flavour, hheader⟩ := hcomplete
    obtain ⟨hnamed, -⟩ := hchildren header (by rw [heq]; exact .head _)
    rw [Node.Complete, hheader] at hnamed
    obtain ⟨name, hname, hidentifier⟩ := hnamed
    exact ⟨header, name, parts, heq, by rw [Node.isHeader, hheader], hname, hidentifier⟩

/-- A text that is in order, and one with a parenthesis too many. -/
theorem parse_reports_parenthesis :
    let text := "lexer grammar G; import F; options \x7b k = v; \x7d A : ('a'..'b' | x=~[c])*;"
    let broken := "grammar G; r : s ) t ; ; u"
    (Derives [.node (parse text).tree true] (TokenStream.ofChars text.toList).1.tokens ∧
      ∃ visit ∈ (parse text).tree.walk, visit.2.2.kind = .range ∧ visit.2.2.Complete) ∧
    ∃ visit ∈ (parse broken).tree.walk, visit.2.2.kind = .error ∧
      ∃ fault ∈ (parse broken).faults, fault.location.start = visit.2.2.location.start := by
  intro text broken
  have hclean : (parse text).faults = [] := by decide +kernel
  have hrange : ∃ visit ∈ (parse text).tree.walk, visit.2.2.kind = .range := by decide +kernel
  have herror : ∃ visit ∈ (parse broken).tree.walk, visit.2.2.kind = .error := by decide +kernel
  obtain ⟨range, hvisit, hkind⟩ := hrange
  obtain ⟨error, hvisit', hkind'⟩ := herror
  obtain ⟨hderives, -, hcomplete⟩ := (parse_reports text).2 hclean
  exact ⟨⟨hderives, range, hvisit, hkind, hcomplete range hvisit⟩, error, hvisit', hkind',
    (parse_reports broken).1 error hvisit' hkind'⟩

end Grammar

end GrammarAtlas
