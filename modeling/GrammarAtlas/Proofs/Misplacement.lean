import GrammarAtlas.Proofs.Preservation
import GrammarAtlas.Proofs.Resumption
import GrammarAtlas.Proofs.Schema

/-! # What is out of place

Rules and modes that a grammar of its flavour must not have are read all the same, and reported at
their names. The parser reports them as it meets their names, before it knows whether the rest can be
read; nothing else reports the like. So the faults of that kind tell off the nodes of the tree that
are out of place, one for one and in their order, on whatever path the parser got to them
(`Grammar.parse_misplacements`). Arranging the faults does not change that: names stand one behind the
other. -/

namespace GrammarAtlas

namespace Fault

def isMisplacement (f : Fault) : Bool := f.cause.isMisplacement

def startsBy (f g : Fault) : Prop := f.location.start.offset ≤ g.location.start.offset

theorem insert_of_forall {f : Fault} {faults : List Fault} (h : ∀ g ∈ faults, f.startsBy g) :
    f.insert faults = f :: faults := by
  cases faults with
  | nil => rfl
  | cons g faults => exact if_pos (h g (.head _))

theorem insert_sorted {f : Fault} {faults : List Fault} (h : faults.Pairwise startsBy) :
    (f.insert faults).Pairwise startsBy := by
  induction faults with
  | nil => exact List.pairwise_singleton _ _
  | cons g faults ih =>
    obtain ⟨hg, hrest⟩ := List.pairwise_cons.1 h
    unfold insert
    split
    · rename_i hle
      refine List.pairwise_cons.2 ⟨List.forall_mem_cons.2 ⟨hle, fun k hk => ?_⟩, h⟩
      exact Nat.le_trans hle (hg k hk)
    · rename_i hlt
      refine List.pairwise_cons.2 ⟨fun k hk => ?_, ih hrest⟩
      rcases mem_insert.1 hk with rfl | hk
      · exact Nat.le_of_not_le hlt
      · exact hg k hk

theorem arrange_sorted (faults : List Fault) : (arrange faults).Pairwise startsBy := by
  induction faults with
  | nil => exact .nil
  | cons f faults ih => exact insert_sorted ih

theorem arrange_of_sorted {faults : List Fault} (h : faults.Pairwise startsBy) :
    arrange faults = faults := by
  induction faults with
  | nil => rfl
  | cons f faults ih =>
    obtain ⟨hf, hrest⟩ := List.pairwise_cons.1 h
    show f.insert (arrange faults) = _
    rw [ih hrest, insert_of_forall hf]

theorem filter_insert {p : Fault → Bool} {f : Fault} {faults : List Fault}
    (h : faults.Pairwise startsBy) :
    (f.insert faults).filter p = if p f then f.insert (faults.filter p) else faults.filter p := by
  induction faults with
  | nil => cases hf : p f <;> simp [insert, hf]
  | cons g faults ih =>
    obtain ⟨hg, hrest⟩ := List.pairwise_cons.1 h
    by_cases hle : f.location.start.offset ≤ g.location.start.offset
    · have hall : ∀ k ∈ (g :: faults).filter p, f.startsBy k := by
        intro k hk
        rcases List.mem_cons.1 (List.mem_filter.1 hk).1 with rfl | hk
        · exact hle
        · exact Nat.le_trans hle (hg k hk)
      rw [insert_of_forall hall, insert, if_pos hle, List.filter_cons]
    · rw [insert, if_neg hle, List.filter_cons, List.filter_cons, ih hrest]
      cases hf : p f <;> cases hpg : p g <;> simp [insert, hle]

/-- What is picked out of the faults keeps the order that it has among itself. -/
theorem filter_arrange (p : Fault → Bool) (faults : List Fault) :
    (arrange faults).filter p = arrange (faults.filter p) := by
  induction faults with
  | nil => rfl
  | cons f faults ih =>
    show (f.insert (arrange faults)).filter p = _
    rw [filter_insert (arrange_sorted faults), ih, List.filter_cons]
    split <;> rfl

end Fault

/-- No piece of a text is out of place. -/
theorem Piece.not_isMisplacement {lines : LineTable} {p : Piece} {f : Fault} (h : p.fault? lines = some f) :
    f.isMisplacement = false := by
  obtain ⟨cause, hcause, rfl⟩ := Option.map_eq_some_iff.1 h
  unfold cause? at hcause
  split at hcause
  · cases hcause
    rfl
  · unfold unclosedCause? at hcause
    split at hcause <;> cases hcause <;> rfl
  · obtain ⟨c, -, rfl⟩ := Option.map_eq_some_iff.1 hcause
    rfl
  all_goals cases hcause

namespace Node
variable {n : Node}

/-- What is wrong with a node of the kind and the name in a grammar of the flavour. -/
def Kind.misplacement? (flavour : Flavour) (name : String) : Kind → Option Fault.Cause
  | .tokenRule _ => if flavour = .parser then some (.tokenRuleInParserGrammar name) else none
  | .parserRule => if flavour = .lexer then some (.parserRuleInLexerGrammar name) else none
  | .modeSection => if flavour ≠ .lexer then some (.modeOutsideLexerGrammar name) else none
  | _ => none

/-- The fault of a node that is out of place in a grammar of the flavour. It is found at the name. -/
def misplacement? (flavour : Flavour) (n : Node) : Option Fault :=
  n.nameNode?.bind fun m => m.identifier?.bind fun name =>
    (n.kind.misplacement? flavour name).map fun cause => ⟨cause, m.location⟩

/-- What is out of place about a part of a grammar: the part, or the rules of a mode. -/
def misplacements (flavour : Flavour) (n : Node) : List Fault :=
  (n.misplacement? flavour).toList ++
    if n.kind = .modeSection then n.children.filterMap (misplacement? flavour) else []

theorem misplacement?_of_not_isNamed (h : n.kind.isNamed = false) (flavour : Flavour) :
    n.misplacement? flavour = none := by
  obtain ⟨kind, l, children⟩ := n
  unfold misplacement?
  cases kind with
  | modeSection | parserRule | tokenRule => cases h
  | _ => simp [Kind.misplacement?]

theorem misplacements_of_not_isNamed (h : n.kind.isNamed = false) (flavour : Flavour) :
    n.misplacements flavour = [] := by
  have hk : n.kind ≠ .modeSection := by
    intro hk
    rw [hk] at h
    cases h
  rw [misplacements, misplacement?_of_not_isNamed h, if_neg hk]
  rfl

theorem IsRuleOf.misplacement? {name : Token} (h : n.IsRuleOf name) (flavour : Flavour) :
    n.misplacement? flavour =
      (n.kind.misplacement? flavour name.text).map fun cause => ⟨cause, name.location⟩ := by
  rw [Node.misplacement?, h.nameNode]
  rfl

namespace Conforms

/-- Below anything but a mode there is neither a rule nor a mode. -/
theorem not_isNamed (h : n.Conforms) (hk : n.kind ≠ .modeSection) (depth : Nat) :
    ∀ v ∈ visitsAll (some n) depth n.children, v.2.2.kind.isNamed = false := by
  have hbelow : ∀ k : Node, k.Conforms ∧ k.kind ≠ .modeSection → ∀ m ∈ k.children,
      m.kind.isNamed = false := by
    rintro k ⟨hk, hmode⟩ m hm
    cases hmk : m.kind with
    | parserRule => exact absurd (hk.eq_modeSection hm (by rw [hmk]; rfl)) hmode
    | tokenRule => exact absurd (hk.eq_modeSection hm (by rw [hmk]; rfl)) hmode
    | modeSection =>
      have htop := hk.not_isTopLevel hm
      rw [hmk] at htop
      cases htop
    | _ => rfl
  have hstep : ∀ k : Node, k.Conforms ∧ k.kind ≠ .modeSection → ∀ m ∈ k.children,
      m.Conforms ∧ m.kind ≠ .modeSection := by
    refine fun k hk m hm => ⟨hk.1.children m hm, fun hmode => ?_⟩
    have hnamed := hbelow k hk m hm
    rw [hmode] at hnamed
    cases hnamed
  intro v hv
  obtain ⟨-, parent, -, hparent, hchild⟩ :=
    forall_visitsAll hstep depth ⟨h, hk⟩ n.children (fun _ hm => hm) v hv
  exact hbelow parent hparent _ hchild

variable (flavour : Flavour) (parent? : Option Node) (depth : Nat)

theorem filterMap_visits (h : n.Conforms) (hk : n.kind ≠ .modeSection) :
    (n.visits parent? depth).filterMap (fun v => v.2.2.misplacement? flavour) =
      (n.misplacement? flavour).toList := by
  have hnone : (visitsAll (some n) (depth + 1) n.children).filterMap
      (fun v => v.2.2.misplacement? flavour) = [] :=
    List.filterMap_eq_nil_iff.2 fun v hv =>
      misplacement?_of_not_isNamed (h.not_isNamed hk (depth + 1) v hv) flavour
  obtain ⟨kind, l, children⟩ := n
  rw [visits, List.filterMap_cons, hnone]
  cases misplacement? flavour ⟨kind, l, children⟩ <;> rfl

/-- A walk over a part comes by what is out of place about it. -/
theorem misplacements (h : n.Conforms) :
    (n.visits parent? depth).filterMap (fun v => v.2.2.misplacement? flavour) =
      n.misplacements flavour := by
  by_cases hk : n.kind = .modeSection
  · have hrules : (visitsAll (some n) (depth + 1) n.children).filterMap
        (fun v => v.2.2.misplacement? flavour) = n.children.filterMap (misplacement? flavour) := by
      rw [filterMap_visitsAll, List.filterMap_eq_flatMap_toList]
      refine List.flatMap_congr fun m hm => ?_
      refine (h.children m hm).filterMap_visits flavour _ _ fun hmode => ?_
      have htop := h.not_isTopLevel hm
      rw [hmode] at htop
      cases htop
    rw [Node.misplacements, if_pos hk, ← hrules]
    obtain ⟨kind, l, children⟩ := n
    rw [visits, List.filterMap_cons]
    cases misplacement? flavour ⟨kind, l, children⟩ <;> rfl
  · rw [Node.misplacements, if_neg hk, List.append_nil]
    exact h.filterMap_visits flavour parent? depth hk

omit flavour in
/-- The first word of a rule or a mode is its name. -/
theorem words_of_isNamed (h : n.Conforms) (hk : n.kind.isNamed) :
    ∃ text l rest, n.children = .leaf (.identifier text) l :: rest ∧ n.words = l :: wordsAll rest := by
  obtain ⟨text, l, rest, hchildren, -, -⟩ := h.shaped.named hk
  refine ⟨text, l, rest, hchildren, ?_⟩
  obtain ⟨kind, l', children⟩ := n
  subst hchildren
  have hword : kind.isWord = false := by
    cases kind with
    | modeSection | parserRule | tokenRule => rfl
    | _ => cases hk
  rw [words, hword, if_neg Bool.false_ne_true, wordsAll, words_of_isWord rfl]
  rfl

theorem location_of_misplacement? {text : String} {l : Location} {rest : List Node}
    (hchildren : n.children = .leaf (.identifier text) l :: rest) :
    ∀ f ∈ n.misplacement? flavour, f.location = l := by
  intro f hf
  have hname : n.nameNode? = some (.leaf (.identifier text) l) := by rw [nameNode?, hchildren]; rfl
  rw [Node.misplacement?, hname] at hf
  obtain ⟨cause, -, rfl⟩ := Option.map_eq_some_iff.1 hf
  rfl

theorem misplacement?_sublist (h : n.Conforms) :
    ((n.misplacement? flavour).toList.map Fault.location).Sublist n.words := by
  cases hf : n.misplacement? flavour with
  | none => exact List.nil_sublist _
  | some f =>
    cases hk : n.kind.isNamed with
    | false =>
      rw [misplacement?_of_not_isNamed hk] at hf
      cases hf
    | true =>
      obtain ⟨text, l, rest, hchildren, hwords⟩ := h.words_of_isNamed hk
      have hl := location_of_misplacement? flavour hchildren f hf
      rw [hwords, ← hl]
      exact (List.nil_sublist _).cons_cons _

/-- What is out of place about a part is found at words of it, in their order. -/
theorem misplacements_sublist (h : n.Conforms) :
    ((n.misplacements flavour).map Fault.location).Sublist n.words := by
  by_cases hk : n.kind = .modeSection
  · obtain ⟨text, l, rest, hchildren, hwords⟩ := h.words_of_isNamed (by rw [hk]; rfl)
    have hname : misplacement? flavour (.leaf (.identifier text) l) = none := rfl
    have hrest : ((rest.filterMap (misplacement? flavour)).map Fault.location).Sublist
        (wordsAll rest) := by
      rw [List.filterMap_eq_flatMap_toList, List.map_flatMap]
      exact flatMap_sublist_wordsAll fun m hm =>
        (h.children m (hchildren ▸ .tail _ hm)).misplacement?_sublist flavour
    rw [Node.misplacements, if_pos hk, hchildren, List.filterMap_cons_none hname, hwords,
      List.map_append]
    cases hf : n.misplacement? flavour with
    | none => exact hrest.cons _
    | some f =>
      have hl := location_of_misplacement? flavour hchildren f hf
      rw [← hl]
      exact hrest.cons_cons _
  · rw [Node.misplacements, if_neg hk, List.append_nil]
    exact h.misplacement?_sublist flavour

end Conforms

end Node

/-! ## What the parser reports -/

namespace Cursor

/-- What was found to be out of place so far, in the order of the reports. -/
def misplaced (c : Cursor) : List Fault := (c.faults.filter Fault.isMisplacement).reverse

/-- Nothing more was found to be out of place. -/
def Unmisplaced (c c' : Cursor) : Prop := c'.misplaced = c.misplaced

theorem misplaced_report (c : Cursor) (cause : Fault.Cause) (l : Location) :
    (c.report cause l).misplaced =
      c.misplaced ++ if cause.isMisplacement then [⟨cause, l⟩] else [] := by
  have hfault : Fault.isMisplacement ⟨cause, l⟩ = cause.isMisplacement := rfl
  rw [misplaced, report, List.filter_cons, hfault]
  cases cause.isMisplacement <;> simp [misplaced]

instance : Kept Unmisplaced where
  refl _ := rfl
  trans h h' := h'.trans h
  read _ := rfl
  report c l hcause := by
    rw [Unmisplaced, misplaced_report, hcause]
    exact List.append_nil _

end Cursor

namespace ParseM
open Lookahead Cursor
variable {c : Cursor} {flavour : Flavour}

theorem misplaced_reportIf {b : Prop} [Decidable b] {cause : Fault.Cause} (hcause : cause.isMisplacement)
    (t : Token) :
    wp (reportIf b cause t)
      (fun _ c' => c'.misplaced = c.misplaced ++ if b then [⟨cause, t.location⟩] else []) c := by
  unfold reportIf
  rw [wp_ite]
  split
  · rw [wp_reportAt, misplaced_report, hcause]
    rfl
  · exact (List.append_nil _).symm

/-- What is read behind a name adds nothing to what is reported at the name. -/
theorem misplaced_named {b : Prop} [Decidable b] {cause : Fault.Cause} (hcause : cause.isMisplacement)
    (name : Token) {rest : ParseM Node} (hrest : Keeps Unmisplaced rest) :
    wp (do let _ ← advance; reportIf b cause name; rest) (fun _ c' =>
      c'.misplaced = c.misplaced ++ if b then [⟨cause, name.location⟩] else []) c := by
  rw [wp_bind]
  refine wp_mono (keeps_advance (R := Unmisplaced) c) fun _ c₁ h₁ => ?_
  rw [wp_bind]
  refine wp_mono (misplaced_reportIf hcause name) fun _ c₂ h₂ => ?_
  refine wp_mono (hrest c₂) fun n c₃ h₃ => ?_
  rw [h₃, h₂, h₁]

/-- A token rule is reported if it is out of place, whatever is wrong with it besides. -/
theorem misplaced_tokenRule {name : Token} (hname : name.kind = .upperName) (start : Mark)
    (fragment : Bool) :
    wp (tokenRule flavour start fragment name)
      (fun n c' => c'.misplaced = c.misplaced ++ (n.misplacement? flavour).toList) c := by
  have hreport : wp (tokenRule flavour start fragment name) (fun _ c' => c'.misplaced = c.misplaced ++
      if flavour = .parser then [⟨.tokenRuleInParserGrammar name.text, name.location⟩] else []) c := by
    rw [tokenRule_eq]
    exact misplaced_named rfl name (keeps_tokenRuleRest start fragment name)
  refine wp_mono (wp_and hreport (tokenRule_isRuleOf hname start fragment)) fun n c' ⟨h, hn⟩ => ?_
  have hlower : n.kind ≠ .parserRule := by
    rw [Ne, hn.isParserRule, hname]
    decide
  obtain ⟨fragment', hk⟩ := hn.isRule.resolve_left hlower
  rw [h, hn.misplacement?, hk, Node.Kind.misplacement?]
  split <;> rfl

theorem misplaced_parserRule {name : Token} (hname : name.kind = .lowerName) (start : Mark) :
    wp (parserRule flavour start name)
      (fun n c' => c'.misplaced = c.misplaced ++ (n.misplacement? flavour).toList) c := by
  have hreport : wp (parserRule flavour start name) (fun _ c' => c'.misplaced = c.misplaced ++
      if flavour = .lexer then [⟨.parserRuleInLexerGrammar name.text, name.location⟩] else []) c := by
    rw [parserRule_eq]
    exact misplaced_named rfl name (keeps_parserRuleRest start name)
  refine wp_mono (wp_and hreport (parserRule_isRuleOf hname start)) fun n c' ⟨h, hn⟩ => ?_
  rw [h, hn.misplacement?, hn.isParserRule.2 hname, Node.Kind.misplacement?]
  split <;> rfl

theorem misplaced_rule :
    wp (rule flavour) (fun n c' => c'.misplaced = c.misplaced ++ (n.misplacement? flavour).toList) c := by
  unfold rule
  simp only [wp_bind, wp_peek, wp_get]
  refine wp_mono (keeps_ruleModifiers (R := Unmisplaced) _ c) fun fragment c₁ h₁ => ?_
  rw [← show c₁.misplaced = c.misplaced from h₁]
  split
  · exact misplaced_tokenRule ‹_› _ _
  · exact misplaced_parserRule ‹_› _
  · have hskip : Keeps Unmisplaced (do reportMissing "rule name"; modify Cursor.skipRule) :=
      .bind (keeps_reportMissing _) fun _ => keeps_skipRule
    exact (hskip c₁).trans (List.append_nil _).symm

/-- A mode is reported before its rules are, in the order of the nodes. -/
theorem misplaced_modeSection :
    wp (modeSection flavour)
      (fun n c' => c'.misplaced = c.misplaced ++ n.misplacements flavour) c := by
  rw [modeSection_eq, wp_bind]
  refine wp_mono (keeps_advance (R := Unmisplaced) c) fun t c₁ h₁ => ?_
  rw [wp_bind]
  refine wp_mono (keeps_advance (R := Unmisplaced) c₁) fun name c₂ h₂ => ?_
  rw [wp_bind]
  refine wp_mono (misplaced_reportIf rfl name) fun _ c₃ h₃ => ?_
  rw [wp_bind]
  refine wp_mono (keeps_expect (R := Unmisplaced) .semicolon c₃) fun _ c₄ h₄ => ?_
  rw [wp_bind]
  refine wp_mono (wp_gather_of_invariant (I := fun rules c' =>
    c'.misplaced = c₄.misplaced ++ rules.filterMap (·.misplacement? flavour)) (fun rules c h => ?_)
    (List.append_nil _).symm) fun rules c₅ h₅ => ?_
  · simp only [wp_bind, wp_sees, wp_ite, wp_pure]
    split
    · refine wp_mono misplaced_rule fun n c' h' => ?_
      rw [h', h, List.append_assoc, List.filterMap_append, Option.toList_some,
        List.filterMap_eq_flatMap_toList _ [n], List.flatMap_singleton]
    · rw [Option.toList_none, List.append_nil]
      exact h
  · have hname : Node.misplacement? flavour (identifier name) = none := rfl
    have hfault (l : Location) : Node.misplacement? flavour ⟨.modeSection, l, identifier name :: rules⟩ =
        (Node.Kind.misplacement? flavour name.text .modeSection).map fun cause =>
          ⟨cause, name.location⟩ := rfl
    rw [wp_close, Node.misplacements, if_pos rfl, List.filterMap_cons_none hname, hfault, h₅, h₄, h₃,
      h₂, h₁, Node.Kind.misplacement?, List.append_assoc]
    split <;> rfl

theorem misplaced_grammarPart (hc : c.Regular) :
    wp (grammarPart flavour)
      (fun n c' => c'.misplaced = c.misplaced ++ n.misplacements flavour) c := by
  unfold grammarPart
  rw [wp_bind]
  refine wp_mono (wp_and (keeps_prequel (R := Unmisplaced) c) (produces_prequel c hc))
    fun n? c₁ ⟨h₁, hreading, hprequel⟩ => ?_
  rw [← show c₁.misplaced = c.misplaced from h₁]
  cases n? with
  | some n =>
    have hnamed : n.kind.isNamed = false := by
      have hprequel := hprequel n rfl
      cases hk : n.kind with
      | parserRule | tokenRule | modeSection => rw [hk] at hprequel; cases hprequel
      | _ => rfl
    rw [wp_pure, Node.misplacements_of_not_isNamed hnamed, List.append_nil]
  | none =>
    show wp (do if ← sees startsMode then modeSection flavour else rule flavour) _ _
    rw [wp_bind, wp_sees, wp_ite]
    split
    · exact misplaced_modeSection
    · have hrule := produces_rule flavour c₁ hreading.regular
      refine wp_mono (wp_and misplaced_rule hrule) fun n c₂ ⟨h₂, _, hk⟩ => ?_
      have hmode : n.kind ≠ .modeSection := by
        intro hmode
        have hk : n.kind.isRule := hk
        rw [hmode] at hk
        cases hk
      rw [h₂, Node.misplacements, if_neg hmode, List.append_nil]

/-- The header tells the flavour. -/
theorem grammarHeader_flavour (hc : c.Regular) :
    wp grammarHeader (fun r c' => c'.Regular ∧ c'.misplaced = c.misplaced ∧
      ((r.1 = [] ∧ r.2 = .combined) ∨ ∃ n, r.1 = [n] ∧ n.kind = .header r.2)) c := by
  refine wp_and ((produces_grammarHeader c hc).1.regular) (wp_and
    (keeps_grammarHeader (R := Unmisplaced) c) ?_)
  unfold grammarHeader
  simp only [wp_bind, wp_get]
  split
  · rw [wp_bind]
    exact wp_mono (produces_header _ c hc) fun n c₁ h₁ => .inr ⟨n, rfl, h₁.2⟩
  · simp only [wp_bind, wp_peek, wp_reportAt, wp_pure]
    exact .inl ⟨trivial, trivial⟩

/-- What was reported to be out of place is that about the children of the root, in their order. -/
theorem misplaced_grammar (hc : c.Regular) :
    wp ParseM.grammar (fun root c' => c'.misplaced =
      c.misplaced ++ root.children.flatMap (Node.misplacements root.flavour)) c := by
  unfold ParseM.grammar
  simp only [wp_bind]
  refine wp_mono (grammarHeader_flavour hc) fun (first, flavour) c₁ ⟨hc₁, h₁, hfirst⟩ => ?_
  refine wp_mono (wp_gatherWhile_of_progress (I := fun parts c' => c'.Regular ∧
      (∀ n ∈ parts, n.kind.isPart) ∧
        c'.misplaced = c.misplaced ++ parts.flatMap (Node.misplacements flavour))
    (fun parts c₂ ⟨hc₂, hparts, h₂⟩ hgo => ?_) ⟨hc₁, by simp, by simpa using h₁⟩)
    fun parts c₂ ⟨⟨_, hparts, h₂⟩, _⟩ => ?_
  · have hforms := forms_grammarPart flavour hc₂ (by simpa using hgo)
    refine wp_mono (wp_and (wp_and hforms (produces_grammarPart flavour c₂ hc₂))
      (misplaced_grammarPart hc₂)) fun n c₃ ⟨⟨hpassage, _, hn⟩, h₃⟩ => ?_
    refine ⟨⟨hpassage.regular, ?_, ?_⟩, hpassage.length_lt⟩
    · exact List.forall_mem_append.2 ⟨hparts, List.forall_mem_singleton.2 hn⟩
    · rw [h₃, h₂, List.flatMap_append, List.flatMap_singleton, List.append_assoc]
  · have hheader : parts.find? Node.isHeader = none := by
      refine List.find?_eq_none.2 fun n hn => ?_
      simp [not_isHeader_of_isPart (hparts n hn)]
    simp only [wp_get, wp_pure]
    rcases hfirst with ⟨hnil, hcombined⟩ | ⟨n, hone, hk⟩
    · have hflavour (l : Location) : Node.flavour ⟨.grammar, l, first ++ parts⟩ = flavour := by
        rw [show first = [] from hnil, show flavour = .combined from hcombined, List.nil_append,
          Node.flavour, Node.header?, hheader]
        rfl
      rw [hflavour, h₂, show first = [] from hnil, List.nil_append]
    · have hn : n.isHeader := by rw [Node.isHeader, hk]
      have hflavour (l : Location) : Node.flavour ⟨.grammar, l, first ++ parts⟩ = flavour := by
        rw [show first = [n] from hone, List.singleton_append, Node.flavour, Node.header?,
          List.find?_cons_of_pos hn, Option.map_some, hk]
      have hnone : n.misplacements flavour = [] :=
        Node.misplacements_of_not_isNamed (by rw [hk]; rfl) flavour
      rw [hflavour, h₂, show first = [n] from hone, List.singleton_append, List.flatMap_cons, hnone,
        List.nil_append]

end ParseM

namespace Grammar

/-- What is reported to be out of place in a text is what the parser reported about the children of the
root. -/
theorem filter_faults (text : String) : (parse text).faults.filter Fault.isMisplacement =
    Fault.arrange
      ((parse text).tree.children.flatMap (Node.misplacements (parse text).tree.flavour)) := by
  have hpieces : (TokenStream.ofChars text.toList).2.filter Fault.isMisplacement = [] := by
    refine List.filter_eq_nil_iff.2 fun f hf => ?_
    obtain ⟨p, -, hp⟩ := List.mem_filterMap.1 hf
    rw [Piece.not_isMisplacement hp]
    exact Bool.false_ne_true
  have hparser := ParseM.misplaced_grammar (Cursor.regular_ofStream text.toList)
  rw [ParseM.wp, Cursor.misplaced, ← List.filter_reverse] at hparser
  rw [parse_eq]
  simp only
  rw [Fault.filter_arrange, List.filter_append, hpieces, List.nil_append, hparser]
  rfl

theorem walk_misplacements (text : String) (flavour : Flavour) :
    (parse text).tree.walk.filterMap (fun visit => visit.2.2.misplacement? flavour) =
      (parse text).tree.children.flatMap (Node.misplacements flavour) := by
  have hassembled := parse_assembled text
  generalize (parse text).tree = tree at hassembled
  have hroot : tree.misplacement? flavour = none :=
    Node.misplacement?_of_not_isNamed (by rw [hassembled.kind]; rfl) flavour
  have hconforms := hassembled.conforms
  obtain ⟨kind, l, children⟩ := tree
  simp only [Node.walk, Node.visits, List.filterMap_cons, hroot]
  rw [Node.filterMap_visitsAll]
  exact List.flatMap_congr fun n hn => (hconforms n hn).misplacements flavour _ _

/-- Just what is out of place is reported to be, at the name of the rule or mode that is: the faults of
that kind are those of the nodes of the tree, one for one and in their order. Every rule and every
mode has a name to be reported at, and no two are reported at one place. -/
theorem parse_misplacements (text : String) :
    let tree := (parse text).tree
    let faults := (parse text).faults.filter Fault.isMisplacement
    faults = tree.walk.filterMap (fun visit => visit.2.2.misplacement? tree.flavour) ∧
    (∀ visit ∈ tree.walk, visit.2.2.kind.isNamed → ∃ name l,
      visit.2.2.nameNode? = some (.leaf (.identifier name) l)) ∧
    (faults.map Fault.location).Nodup := by
  intro tree faults
  have hassembled := parse_assembled text
  obtain ⟨c', hreading, -⟩ := parse_reading text
  have hplaces : ((tree.children.flatMap (Node.misplacements tree.flavour)).map
      Fault.location).Sublist (Node.wordsAll tree.children) := by
    rw [List.map_flatMap]
    exact Node.flatMap_sublist_wordsAll fun n hn =>
      (hassembled.conforms n hn).misplacements_sublist tree.flavour
  have hascending := hreading.words_spread.ascending.sublist hplaces
  have hsorted : (tree.children.flatMap (Node.misplacements tree.flavour)).Pairwise Fault.startsBy :=
    (List.pairwise_map.1 hascending).imp Nat.le_of_lt
  have hfaults : faults = tree.children.flatMap (Node.misplacements tree.flavour) :=
    (filter_faults text).trans (Fault.arrange_of_sorted hsorted)
  refine ⟨hfaults.trans (walk_misplacements text _).symm, fun visit hvisit hnamed => ?_, ?_⟩
  · obtain ⟨name, l, rest, hchildren, -⟩ := (hassembled.schema.shaped _ _ _ hvisit).named hnamed
    exact ⟨name, l, by rw [Node.nameNode?, hchildren]; rfl⟩
  · rw [hfaults]
    exact hascending.imp fun {l m} hlt heq => by simp [heq] at hlt

/-- A mode and token rules in a parser grammar, of which two lack a colon. -/
theorem parse_misplacements_mixed :
    let text := "parser grammar P; r : A ; mode M; A 'a' ; B : A ; fragment C"
    let tree := (parse text).tree
    let faults := (parse text).faults.filter Fault.isMisplacement
    faults.map Fault.cause = [.modeOutsideLexerGrammar "M", .tokenRuleInParserGrammar "A",
      .tokenRuleInParserGrammar "B", .tokenRuleInParserGrammar "C"] ∧
    (∃ visit ∈ tree.walk, visit.2.2.kind.isNamed ∧ ∃ name l,
      visit.2.2.nameNode? = some (.leaf (.identifier name) l)) ∧
    (faults.map Fault.location).Nodup := by
  intro text tree faults
  obtain ⟨hfaults, hnames, hplaces⟩ := parse_misplacements text
  have hcauses : (tree.walk.filterMap fun visit => visit.2.2.misplacement? tree.flavour).map
      Fault.cause = [.modeOutsideLexerGrammar "M", .tokenRuleInParserGrammar "A",
        .tokenRuleInParserGrammar "B", .tokenRuleInParserGrammar "C"] := by decide +kernel
  have hnamed : ∃ visit ∈ tree.walk, visit.2.2.kind.isNamed := by decide +kernel
  obtain ⟨visit, hvisit, hk⟩ := hnamed
  exact ⟨(congrArg _ hfaults).trans hcauses, ⟨visit, hvisit, hk, hnames visit hvisit hk⟩, hplaces⟩

end Grammar

end GrammarAtlas
