import GrammarAtlas.Proofs.Extraction
import GrammarAtlas.Proofs.Wholeness

/-! # Behind a semicolon reading goes on

A rule that begins behind a semicolon is read, whatever is wrong before the semicolon
(`Grammar.parse_resumes`).

What a declaration, the lead of a mode or a rule reads has no semicolon but as its last token,
leaving aside those within braces and the handlers of a rule. So nothing that begins before the
semicolon goes beyond it (`Passage.keeps`), and reading comes to the first token of the rule. There
the colon behind the name leaves but one way to go on (`ParseM.rule_of_leads`).

`Cursor.Keeps` is the invariant of the loops over the parts of a grammar and over the rules of a
mode: the rule is in the tree or still to come, unless something was nested too deep. -/

namespace GrammarAtlas

open Lookahead

namespace Node

/-- `n` is a node of the tree with the given root. -/
inductive Within (n : Node) : Node → Prop
  | root : Within n n
  | child {m parent : Node} (hm : m ∈ parent.children) (hn : Within n m) : Within n parent

theorem mem_visits (n : Node) (parent? : Option Node) (depth : Nat) :
    (parent?, depth, n) ∈ n.visits parent? depth := by
  obtain ⟨kind, l, children⟩ := n
  rw [visits]
  exact .head _

theorem visits_child {m parent : Node} (hm : m ∈ parent.children) (parent? : Option Node)
    (depth : Nat) : m.visits (some parent) (depth + 1) ⊆ parent.visits parent? depth := by
  obtain ⟨kind, l, children⟩ := parent
  have hall (parent? : Option Node) {ns : List Node} (hns : m ∈ ns) :
      m.visits parent? (depth + 1) ⊆ visitsAll parent? (depth + 1) ns := by
    induction ns with
    | nil => cases hns
    | cons n ns ih =>
      rw [visitsAll]
      rcases List.mem_cons.1 hns with rfl | hns
      · exact List.subset_append_left _ _
      · exact List.Subset.trans (ih hns) (List.subset_append_right _ _)
  rw [visits]
  exact List.Subset.trans (hall _ hm) (List.subset_cons_self _ _)

/-- A walk over a tree is also a walk over what is below each of its nodes. -/
theorem Within.visits {n root : Node} (h : n.Within root) (parent? : Option Node) (depth : Nat) :
    ∃ parent?' depth', n.visits parent?' depth' ⊆ root.visits parent? depth := by
  induction h generalizing parent? depth with
  | root => exact ⟨parent?, depth, List.Subset.refl _⟩
  | @child m parent hm _ ih =>
    obtain ⟨parent?', depth', hsub⟩ := ih (some parent) (depth + 1)
    exact ⟨parent?', depth', List.Subset.trans hsub (visits_child hm parent? depth)⟩

theorem Within.of_child {n m root : Node} (h : n.Within root) (hm : m ∈ n.children) :
    m.Within root := by
  induction h with
  | root => exact .child hm .root
  | child hparent _ ih => exact .child hparent ih

/-- A walk over a tree comes from each of its nodes to the children of the node. -/
theorem Within.child_mem_walk {n m root : Node} (h : n.Within root) (hm : m ∈ n.children) :
    ∃ depth, (some n, depth, m) ∈ root.walk := by
  obtain ⟨parent?, depth, hvisits⟩ := h.visits none 0
  exact ⟨depth + 1, hvisits (visits_child hm parent? depth (mem_visits m (some n) (depth + 1)))⟩

/-- What a walk visits is in the tree, and stands below the node from which the walk comes. -/
theorem within_of_mem_walk {root : Node} {visit : Option Node × Nat × Node}
    (hv : visit ∈ root.walk) : visit.2.2.Within root ∧
      ∀ parent ∈ visit.1, parent.Within root ∧ visit.2.2 ∈ parent.children := by
  obtain ⟨hn, rfl | ⟨parent, hparent, habove, hchild⟩⟩ := forall_visits
    (fun k hk m hm => Within.of_child hk hm) none 0 Within.root visit hv
  · exact ⟨hn, nofun⟩
  · refine ⟨hn, fun parent' h' => ?_⟩
    obtain rfl := Option.some.inj (hparent.symm.trans h')
    exact ⟨habove, hchild⟩

/-- `n` is the rule whose name is the token `name`. -/
structure IsRuleOf (name : Token) (n : Node) : Prop where
  isRule : n.kind = .parserRule ∨ ∃ fragment, n.kind = .tokenRule fragment
  isParserRule : n.kind = .parserRule ↔ name.kind = .lowerName
  nameNode : n.nameNode? = some (ParseM.identifier name)

theorem nameNode?_identifier {kind : Kind} {l : Location} {name : Token} {ns : List Node} :
    nameNode? ⟨kind, l, ParseM.identifier name :: ns⟩ = some (ParseM.identifier name) := rfl

/-- A rule defines its name. -/
theorem IsRuleOf.definition? {name : Token} {n : Node} (h : n.IsRuleOf name) :
    ∃ ns, Occurrence.definition? n (ParseM.identifier name) =
      some ⟨name.text, name.location, .definition, ns, .own⟩ := by
  have hname : Occurrence.isNameOf (ParseM.identifier name) n := by
    simp [Occurrence.isNameOf, h.nameNode]
  have hidentifier : (ParseM.identifier name).identifier? = some name.text := rfl
  rcases h.isRule with hk | ⟨fragment, hk⟩
  · exact ⟨.rule, by simp [Occurrence.definition?, hidentifier, Occurrence.role?, hk, hname]; rfl⟩
  · exact ⟨.token, by simp [Occurrence.definition?, hidentifier, Occurrence.role?, hk, hname]; rfl⟩

end Node

/-- The tokens `rule` begin with the name of a rule and its colon. -/
structure Token.Leads (name : Token) (rule : List Token) : Prop where
  isName : name.isName
  colon : ∃ colon after, rule = name :: colon :: after ∧ colon.kind = .colon

namespace Token.Leads
variable {name : Token} {rule : List Token}

theorem kindAt_zero (h : name.Leads rule) : kindAt rule 0 = name.kind := by
  obtain ⟨colon, after, rfl, -⟩ := h.colon
  rfl

theorem kindAt_one (h : name.Leads rule) : kindAt rule 1 = .colon := by
  obtain ⟨colon, after, rfl, hcolon⟩ := h.colon
  exact hcolon

theorem not_isNameAt_one (h : name.Leads rule) : isNameAt rule 1 = false := by
  rw [isNameAt, h.kindAt_one]
  rfl

theorem not_startsBlock (h : name.Leads rule) (w : String) : startsBlock rule w = false := by
  rw [startsBlock, h.kindAt_one]
  exact Bool.and_false _

theorem not_startsMode (h : name.Leads rule) : startsMode rule = false := by
  rw [startsMode, h.not_isNameAt_one, Bool.and_false]

theorem not_handles (h : name.Leads rule) : ¬ Stretch.Handles rule := by
  rintro ⟨word, t, rest, rfl, ht⟩
  have hcolon : t.kind = .colon := h.kindAt_one
  rw [hcolon] at ht
  rcases ht with ht | ht <;> cases ht

theorem ne_nil (h : name.Leads rule) : rule ≠ [] := by
  obtain ⟨colon, after, rfl, -⟩ := h.colon
  nofun

theorem peek {c : Cursor} (h : name.Leads c.ahead) : c.peek = name := by
  obtain ⟨colon, after, ha, -⟩ := h.colon
  exact Cursor.peek_of_ahead ha

end Token.Leads

namespace ParseM
variable {α : Type} {p : ParseM α} {Q : α → Cursor → Prop} {c : Cursor} {name : Token}
  {flavour : Flavour}

theorem tokenRule_isRuleOf (hname : name.kind = .upperName) (start : Mark) (fragment : Bool) :
    wp (tokenRule flavour start fragment name) (fun n _ => n.IsRuleOf name) c := by
  unfold ParseM.tokenRule
  extract_lets children close rest options
  have hclose (ns : List Node) (c : Cursor) :
      wp (close () (identifier name :: ns)) (fun n _ => n.IsRuleOf name) c :=
    ⟨.inr ⟨fragment, rfl⟩, by simp [hname, close, ParseM.close], Node.nameNode?_identifier⟩
  have hrest (ns : List Node) (c : Cursor) :
      wp (rest () (identifier name :: ns)) (fun n _ => n.IsRuleOf name) c := by
    simp only [rest, wp_bind, wp_ite]
    refine wp_of_forall fun colon? c₁ => ?_
    split
    · exact wp_of_forall fun _ c₂ => hclose ns c₂
    · exact wp_of_forall fun n c₂ => wp_of_forall fun _ c₃ => hclose (ns ++ [n]) c₃
  have hoptions (c : Cursor) : wp (options ()) (fun n _ => n.IsRuleOf name) c := by
    simp only [options, wp_bind, wp_ite]
    refine wp_of_forall fun _ c₁ => ?_
    split
    · exact wp_of_forall fun n c₂ => hrest [n] c₂
    · exact hrest [] c₁
  simp only [wp_bind, wp_ite]
  refine wp_of_forall fun _ c₁ => ?_
  split
  · exact wp_of_forall fun _ c₂ => hoptions c₂
  · exact hoptions c₁

theorem parserRule_isRuleOf (hname : name.kind = .lowerName) (start : Mark) :
    wp (parserRule flavour start name) (fun n _ => n.IsRuleOf name) c := by
  unfold ParseM.parserRule
  extract_lets close prequel
  have hclose (ns : List Node) (c : Cursor) :
      wp (close () (identifier name :: ns)) (fun n _ => n.IsRuleOf name) c :=
    ⟨.inl rfl, ⟨fun _ => hname, fun _ => rfl⟩, Node.nameNode?_identifier⟩
  have hprequel (c : Cursor) : wp (prequel ()) (fun n _ => n.IsRuleOf name) c := by
    simp only [prequel, wp_bind, wp_ite]
    refine wp_of_forall fun ns c₁ => wp_of_forall fun colon? c₂ => ?_
    split
    · exact wp_of_forall fun _ c₃ => hclose ns c₃
    · refine wp_of_forall fun n c₃ => wp_of_forall fun _ c₄ => wp_of_forall fun handlers c₅ => ?_
      exact hclose (ns ++ [n] ++ handlers) c₅
  simp only [wp_bind, wp_ite]
  refine wp_of_forall fun _ c₁ => ?_
  split
  · exact wp_of_forall fun _ c₂ => hprequel c₂
  · exact hprequel c₁

theorem ruleModifiers_of_leads {Q : Bool → Cursor → Prop} (turns : Nat) (h : name.Leads c.ahead)
    (hQ : Q false c) : wp (ruleModifiers turns) Q c := by
  cases turns with
  | zero => exact hQ
  | succ turns =>
    unfold ruleModifiers
    simp only [wp_bind, wp_sees, wp_ite, wp_pure, h.not_isNameAt_one, Bool.and_false]
    exact hQ

theorem rule_of_leads (h : name.Leads c.ahead) :
    wp (rule flavour) (fun n _ => n.IsRuleOf name) c := by
  unfold rule
  simp only [wp_bind, wp_peek, wp_get]
  refine ruleModifiers_of_leads _ h ?_
  rw [h.peek]
  rcases Token.isName_iff.1 h.isName with hk | hk
  · rw [hk]
    exact tokenRule_isRuleOf hk _ _
  · rw [hk]
    exact parserRule_isRuleOf hk _

theorem prequel_of_leads {Q : Option Node → Cursor → Prop} (h : name.Leads c.ahead)
    (hQ : Q none c) : wp prequel Q c := by
  have hat : (kindAt c.ahead 0 == .atSign) = false := by
    rw [h.kindAt_zero, beq_eq_false_iff_ne]
    intro hat
    have hname := h.isName
    rw [Token.isName, hat] at hname
    cases hname
  unfold prequel
  simp only [wp_bind, wp_sees, wp_seesKind, wp_ite, wp_pure, h.not_startsBlock, h.not_isNameAt_one,
    hat, Bool.and_false]
  exact hQ

end ParseM

/-! ## Coming to a rule -/

namespace Cursor
variable {c : Cursor} {name : Token} {rule : List Token}

/-- The tokens `rule` come behind a semicolon that is ahead and not within braces. -/
def Nears (rule : List Token) (c : Cursor) : Prop :=
  ∃ us s, c.ahead = us ++ s :: rule ∧ s.kind = .semicolon ∧ ¬ Token.Unclosed us

/-- The tokens `rule` are still to come, and reading will stop before them. -/
def Awaits (rule : List Token) (c : Cursor) : Prop := c.ahead = rule ∨ c.Nears rule

/-- The rule of `name` is in the tree of one of the nodes `ns`, or it is still to come and begins
with the tokens `rule`. -/
def Keeps (name : Token) (rule : List Token) (ns : List Node) (c : Cursor) : Prop :=
  c.Overdeep ∨ c.Awaits rule ∨ ∃ m ∈ ns, ∃ n : Node, n.Within m ∧ n.IsRuleOf name

theorem Nears.ne_nil (h : c.Nears rule) : c.ahead ≠ [] := by
  obtain ⟨us, s, ha, -⟩ := h
  rw [ha]
  exact List.append_ne_nil_of_right_ne_nil us nofun

theorem Awaits.ne_nil (h : c.Awaits rule) (hrule : name.Leads rule) : c.ahead ≠ [] := by
  rcases h with h | h
  · exact h ▸ hrule.ne_nil
  · exact h.ne_nil

end Cursor

/-- What has no semicolon before its end, but for handlers, does not go beyond a semicolon. -/
theorem Passage.keeps {c c₁ : Cursor} {L : Shape} {ns ms : List Node} {name : Token}
    {rule : List Token} (h : Passage Stretch.settled c L ns c₁) (hc : c.Nears rule)
    (hrule : name.Leads rule) : c₁.Keeps name rule ms := by
  obtain ⟨us, ha, hus | ⟨-, hdeep⟩, -⟩ := h.course
  · obtain ⟨before, s, hbefore, hs, hopen⟩ := hc
    refine .inr (.inl ?_)
    rcases Stretch.split_append (ha.symm.trans hbefore) with ⟨ws, rfl, rfl⟩ | ⟨ws, rfl, hahead⟩
    · -- The semicolon was read, so it is the last token that was.
      rcases hus before s ws rfl hs with hunclosed | rfl | ⟨word, t, rest, rfl, ht⟩
      · exact absurd hunclosed hopen
      · exact .inl rfl
      · exact absurd ⟨word, t, rest ++ c₁.ahead, rfl, ht⟩ hrule.not_handles
    · exact .inr ⟨ws, s, hahead, hs, fun hunclosed => hopen (hunclosed.prepend us)⟩
  · exact .inl hdeep

namespace ParseM
open Stretch
variable {c : Cursor} {name : Token} {rule : List Token} {flavour : Flavour}

/-- A loop keeps a rule if each of its turns does that meets one. -/
theorem gatherWhile_keeps {condition : List Token → Bool} {p : ParseM Node} {S : Stretch} {L : Shape}
    (hp : ∀ c : Cursor, c.Regular → condition c.ahead →
      Forms S.proper p (fun _ => L) (fun n => [n]) c)
    (hkeeps : ∀ c : Cursor, c.Regular → condition c.ahead → c.Awaits rule →
      wp p (fun n c' => c'.Keeps name rule [n]) c)
    (hc : c.Regular) (h : c.Keeps name rule []) :
    wp (gatherWhile condition p)
      (fun ns c' => c'.Keeps name rule ns ∧ condition c'.ahead = false) c := by
  refine wp_mono (wp_gatherWhile_of_progress
    (I := fun ns c => c.Regular ∧ c.Keeps name rule ns) ?turn ⟨hc, h⟩) fun ns c' h' => ⟨h'.1.2, h'.2⟩
  rintro ns c ⟨hc, h⟩ hcond
  have hread := hp c hc hcond
  refine ⟨⟨hread.regular, ?_⟩, hread.length_lt⟩
  rcases h with hdeep | hawaits | ⟨m, hm, hn⟩
  · exact .inl (hdeep.mono hread.faults)
  · rcases hkeeps c hc hcond hawaits with hdeep | hawaits | ⟨m, hm, hn⟩
    · exact .inl hdeep
    · exact .inr (.inl hawaits)
    · exact .inr (.inr ⟨m, List.mem_append_right _ hm, hn⟩)
  · exact .inr (.inr ⟨m, List.mem_append_left _ hm, hn⟩)

theorem rule_keeps (hrule : name.Leads rule) (hc : c.Regular) (h : c.Awaits rule) :
    wp (ParseM.rule flavour) (fun n c' => c'.Keeps name rule [n]) c := by
  have hne := h.ne_nil hrule
  rcases h with rfl | h
  · exact wp_mono (rule_of_leads hrule) fun n c' hn => .inr (.inr ⟨n, .head _, n, .root, hn⟩)
  · refine wp_mono (forms_rule flavour hc hne) fun n c' h' => ?_
    exact (h'.mono (proper_le _) le_rfl).keeps h hrule

theorem modeSection_keeps (hrule : name.Leads rule) (hc : c.Regular) (hm : startsMode c.ahead)
    (h : c.Nears rule) : wp (modeSection flavour) (fun n c' => c'.Keeps name rule [n]) c := by
  refine wp_modeSection hc hm fun mode c₁ h₁ => ?_
  have hlead : c₁.Keeps name rule [] :=
    (h₁.mono ((proper_le _).trans ended_le_settled) le_rfl).keeps h hrule
  refine wp_mono (gatherWhile_keeps
    (fun c hc hcond => forms_rule flavour hc (ne_nil_of_goesOn hcond))
    (fun c hc _ h => rule_keeps hrule hc h) h₁.regular hlead) fun ns c₂ h₂ l => ?_
  rcases h₂.1 with hdeep | hawaits | ⟨m, hm, n, hn, hname⟩
  · exact .inl hdeep
  · exact .inr (.inl hawaits)
  · exact .inr (.inr ⟨_, .head _, n, .child (.tail _ hm) hn, hname⟩)

theorem grammarPart_keeps (hrule : name.Leads rule) (hc : c.Regular) (h : c.Awaits rule) :
    wp (grammarPart flavour) (fun n c' => c'.Keeps name rule [n]) c := by
  unfold grammarPart
  simp only [wp_bind]
  rcases h with rfl | h
  · refine prequel_of_leads hrule ?_
    simp only [wp_bind, wp_sees, wp_ite, hrule.not_startsMode]
    exact rule_keeps hrule hc (.inl rfl)
  · refine wp_mono (forms_prequel hc) fun n? c₁ h₁ => ?_
    cases n? with
    | some n => exact (h₁.mono ((proper_le _).trans ended_le_settled) le_rfl).keeps h hrule
    | none =>
      obtain rfl : c₁ = c := h₁
      simp only [wp_bind, wp_sees, wp_ite]
      split
      · exact modeSection_keeps hrule hc ‹_› h
      · exact rule_keeps hrule hc (.inr h)

/-- A rule that comes behind a semicolon is in the tree. -/
theorem grammar_keeps (hrule : name.Leads rule) (hc : c.Regular) (h : c.Nears rule) :
    wp ParseM.grammar
      (fun root c' => c'.Overdeep ∨ ∃ n : Node, n.Within root ∧ n.IsRuleOf name) c := by
  unfold ParseM.grammar
  simp only [wp_bind]
  refine wp_mono (forms_grammarHeader hc) fun (first, flavour) c₁ h₁ => ?_
  have hheader : c₁.Keeps name rule [] := (h₁.mono ended_le_settled le_rfl).keeps h hrule
  refine wp_mono (gatherWhile_keeps
    (fun c hc hcond => forms_grammarPart flavour hc (by simpa using hcond))
    (fun c hc _ h => grammarPart_keeps hrule hc h) h₁.regular hheader) fun parts c₂ ⟨h₂, hend⟩ => ?_
  simp only [wp_get, wp_pure]
  rcases h₂ with hdeep | hawaits | ⟨m, hm, n, hn, hname⟩
  · exact .inl hdeep
  · exact absurd (by simpa using hend) (hawaits.ne_nil hrule)
  · exact .inr ⟨n, .child (List.mem_append_right _ hm) hn, hname⟩

end ParseM

/-- An occurrence is the first of its name or a later one. -/
theorem Occurrence.mem_sift {o : Occurrence} {os : List Occurrence} (h : o ∈ os)
    (seen : List (Namespace × String)) : o ∈ sift false seen os ∨ o ∈ sift true seen os := by
  induction os generalizing seen with
  | nil => cases h
  | cons p os ih =>
    rw [sift_cons, sift_cons true, List.mem_append, List.mem_append]
    rcases List.mem_cons.1 h with rfl | h
    · by_cases hseen : o.key ∈ seen
      · exact .inr (.inl (by simp [sift, hseen]))
      · exact .inl (.inl (by simp [sift, hseen]))
    · exact (ih h (p.key :: seen)).imp .inr .inr

/-- A table enters or reports every definition. -/
theorem SymbolTable.Agrees.accounts {table : SymbolTable} {os : List Occurrence} {o : Occurrence}
    (h : table.Agrees os) (ho : o ∈ os) :
    (∃ s ∈ table.symbols, s.entry = o.entry) ∨ o.duplicate ∈ table.diagnostics := by
  rcases Occurrence.mem_sift ho [] with hfirst | hrepeat
  · have hentry := List.mem_map_of_mem (f := Occurrence.entry) hfirst
    rw [← Occurrence.firsts, ← h.firsts] at hentry
    obtain ⟨s, hs, heq⟩ := List.mem_map.1 hentry
    exact .inl ⟨s, (List.mem_filter.1 hs).1, heq⟩
  · refine .inr ?_
    rw [h.repeats]
    exact List.mem_map_of_mem hrepeat

/-- A walk over a tree finds the definitions of its rules. -/
theorem Node.IsRuleOf.mem_definitions {name : Token} {n root : Node} (h : n.IsRuleOf name)
    (hn : n.Within root) :
    ∃ ns, (⟨name.text, name.location, .definition, ns, .own⟩ : Occurrence) ∈
      root.walk.filterMap Occurrence.definitionAt := by
  obtain ⟨ns, hdefinition⟩ := h.definition?
  obtain ⟨depth, hvisit⟩ := hn.child_mem_walk (List.mem_of_find?_eq_some h.nameNode)
  exact ⟨ns, List.mem_filterMap.2 ⟨_, hvisit, hdefinition⟩⟩

namespace Grammar

/-- What is wrong before a semicolon does not hide the rule behind it. Unless something is nested
too deep, a name with a colon that follows a semicolon outside of braces is the name of a rule in
the tree, and the table of the text has a symbol defined there or reports the name as defined
before. -/
theorem parse_resumes (text : String) {before after : List Token} {semicolon name colon : Token}
    (htokens : (TokenStream.ofChars text.toList).1.tokens =
      before ++ semicolon :: name :: colon :: after)
    (hsemicolon : semicolon.kind = .semicolon) (hname : name.isName) (hcolon : colon.kind = .colon)
    (hopen : ¬ Token.Unclosed before) (hdeep : ∀ f ∈ (parse text).faults, f.isTooDeep = false) :
    (∃ visit ∈ (parse text).tree.walk, visit.2.2.IsRuleOf name) ∧
      ((∃ s ∈ (SymbolTable.ofTree (parse text).tree).symbols, s.name = name.text ∧
          s.definition? = some name.location) ∨
        ∃ ns, ⟨.duplicate ns name.text, name.location⟩ ∈
          (SymbolTable.ofTree (parse text).tree).diagnostics) := by
  have hrule : name.Leads (name :: colon :: after) := ⟨hname, colon, after, rfl, hcolon⟩
  have hread := ParseM.grammar_keeps hrule (Cursor.regular_ofStream text.toList)
    ⟨before, semicolon, htokens, hsemicolon, hopen⟩
  obtain ⟨c, ⟨f, hf, htooDeep⟩ | ⟨n, hn, hisRule⟩, hfaults⟩ := parse_of_wp hread
  · rw [hdeep f ((hfaults f).2 (.inr hf))] at htooDeep
    cases htooDeep
  · constructor
    · obtain ⟨parent?, depth, hvisits⟩ := hn.visits none 0
      exact ⟨_, hvisits (n.mem_visits parent? depth), hisRule⟩
    · obtain ⟨ns, hdefinition⟩ := hisRule.mem_definitions hn
      rcases (SymbolTable.agrees_parse text).accounts hdefinition with ⟨s, hs, heq⟩ | hduplicate
      · exact .inl ⟨s, hs, congrArg Prod.fst heq, congrArg (·.2.2) heq⟩
      · exact .inr ⟨ns, hduplicate⟩

/-- The first rule of a mode has no end, and the second one, of the same name, is read. -/
theorem parse_resumes_unclosed :
    let text := "lexer grammar G; options \x7b k = v; \x7d mode M; A : ( 'a' | ~ ; A : x=( ) -> ; b"
    let tokens := (TokenStream.ofChars text.toList).1.tokens
    let name := tokens.getD 21 default
    (¬ Token.Unclosed (tokens.take 20) ∧ name.text = "A" ∧ name.start.offset = 60) ∧
      (∃ visit ∈ (parse text).tree.walk, visit.2.2.IsRuleOf name) ∧
      ((∃ s ∈ (SymbolTable.ofTree (parse text).tree).symbols, s.name = name.text ∧
          s.definition? = some name.location) ∨
        ∃ ns, ⟨.duplicate ns name.text, name.location⟩ ∈
          (SymbolTable.ofTree (parse text).tree).diagnostics) := by
  intro text tokens name
  have hopen : ¬ Token.Unclosed (tokens.take 20) := by decide +kernel
  have htokens : tokens = tokens.take 20 ++
      tokens.getD 20 default :: name :: tokens.getD 22 default :: tokens.drop 23 := by
    decide +kernel
  have hnames : (name.text = "A" ∧ name.start.offset = 60) ∧ name.isName ∧
      (tokens.getD 20 default).kind = .semicolon ∧ (tokens.getD 22 default).kind = .colon := by
    decide +kernel
  have hdeep : ∀ f ∈ (parse text).faults, f.isTooDeep = false := by decide +kernel
  obtain ⟨hname, hisName, hsemicolon, hcolon⟩ := hnames
  exact ⟨⟨hopen, hname⟩, parse_resumes text htokens hsemicolon hisName hcolon hopen hdeep⟩

end Grammar

end GrammarAtlas
