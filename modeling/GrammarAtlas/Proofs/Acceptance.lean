import GrammarAtlas.Proofs.Recognition

/-! # Well-formed grammars are accepted

However an abstract grammar is spelled, the parser reports nothing and makes its tree of it
(`Grammar.parse_spelled`). Rules end with their semicolon, so what follows a rule matters little: it
must not look like a handler. A mode ends where the next one begins, or with the text. -/

namespace GrammarAtlas

open Abstract

namespace ParseM
open Lookahead
variable {c : Cursor} {l : Lexeme} {ls rest : List Lexeme}

theorem finishRule_shown {Q : Unit → Cursor → Prop} (h : c.Shows (.sign .semicolon :: ls))
    (hQ : ∀ c', c'.Shows ls → Q () c') : wp finishRule Q c := by
  unfold finishRule
  simp only [wp_bind, wp_ite]
  refine accept_shown h rfl fun t c₁ _ h₁ => ?_
  rw [if_neg (by simp)]
  exact hQ c₁ h₁

theorem tokenRule_shown {flavour : Flavour} (hf : flavour ≠ .parser) {r : TokenRule}
    (hr : r.body.depth ≤ nestingLimit) {name : Token} (hn : name.Shows (.name r.name.toName))
    (start : Mark)
    (h : c.Shows (.name r.name.toName :: .sign .colon ::
      (r.body.lexemes ++ .sign .semicolon :: rest))) :
    wp (tokenRule flavour start r.fragment name) (fun n c' => n.outline = r.outline ∧ c'.Shows rest)
      c := by
  unfold tokenRule
  extract_lets children close body options
  simp only [wp_bind, wp_ite]
  refine advance_shown h fun _ c₁ _ h₁ => ?_
  rw [if_neg hf]
  simp only [options, wp_bind, wp_sees, wp_ite]
  rw [h₁.not_startsBlock, if_neg Bool.false_ne_true]
  simp only [body, wp_bind, wp_ite]
  refine expect_shown h₁ rfl fun _ c₂ _ h₂ => ?_
  rw [if_neg (by simp)]
  refine (yields_alternatives hr rest).on h₂ fun n c₃ hbody h₃ => ?_
  refine finishRule_shown h₃ fun c₄ h₄ => ?_
  simp only [close, wp_close]
  refine ⟨?_, h₄⟩
  simp [children, TokenRule.outline, hn.outline_identifier, hbody]

/-- A loop that has nothing to do. -/
theorem gatherWhile_stop {condition : List Token → Bool} {p : ParseM Node}
    {Q : List Node → Cursor → Prop} (hc : condition c.ahead = false) (hQ : Q [] c) :
    wp (gatherWhile condition p) Q c := by
  rw [gatherWhile, wp_gather]
  unfold collect
  simp only [wp_bind, wp_sees, wp_ite, wp_pure]
  rw [hc, if_neg Bool.false_ne_true]
  exact hQ

/-- Where the colon follows the name, nothing stands between them. -/
theorem rulePrequel_shown {Q : List Node → Cursor → Prop} (h : c.Shows (.sign .colon :: ls))
    (hQ : Q [] c) : wp rulePrequel Q c := by
  have hword (w : String) : isWordAt c.ahead 0 w = false := h.isWordAt 0 w
  unfold rulePrequel
  extract_lets children rest
  simp only [wp_bind]
  refine accept_other h (by simp [Lexeme.kind, Sign.kind]) ?_
  simp only [rest, clause, throwsClause, wp_bind, wp_sees, wp_ite, wp_pure, hword]
  simp only [Bool.false_and, Bool.false_eq_true, if_false]
  rw [wp_gather]
  unfold collect
  simp only [wp_bind, wp_sees, wp_seesKind, wp_ite, wp_pure]
  rw [h.not_startsBlock, h.kindAt]
  exact hQ

theorem not_startsHandler (h : c.Shows ls) (hls : Abstract.kindAt ls 1 ≠ .bracket) :
    startsHandler c.ahead = false := by
  have haction := kindAt_ne_of_isForeign ls 1 (k := .action) rfl
  rw [startsHandler, h.kindAt, beq_false_of_ne hls, beq_false_of_ne haction, Bool.and_false,
    Bool.and_false]
  rfl

theorem parserRule_shown {flavour : Flavour} (hf : flavour ≠ .lexer) {r : ParserRule}
    (hr : r.body.depth ≤ nestingLimit) (hrest : Abstract.kindAt rest 1 ≠ .bracket) {name : Token}
    (hn : name.Shows (.name r.name.toName)) (start : Mark)
    (h : c.Shows (.name r.name.toName :: .sign .colon ::
      (r.body.lexemes ++ .sign .semicolon :: rest))) :
    wp (parserRule flavour start name) (fun n c' => n.outline = r.outline ∧ c'.Shows rest) c := by
  unfold parserRule
  extract_lets close prequel
  simp only [wp_bind, wp_ite]
  refine advance_shown h fun _ c₁ _ h₁ => ?_
  rw [if_neg hf]
  simp only [prequel, wp_bind, wp_ite]
  refine rulePrequel_shown h₁ ?_
  refine expect_shown h₁ rfl fun _ c₂ _ h₂ => ?_
  rw [if_neg (by simp)]
  refine (yields_alternatives hr rest).on h₂ fun n c₃ hbody h₃ => ?_
  refine finishRule_shown h₃ fun c₄ h₄ => ?_
  refine gatherWhile_stop (not_startsHandler h₄ hrest) ?_
  simp only [close, wp_close]
  refine ⟨?_, h₄⟩
  simp [ParserRule.outline, hn.outline_identifier, hbody]

/-- No modifier is read where no name follows. -/
theorem ruleModifiers_stop {Q : Bool → Cursor → Prop} (turns : Nat) (h : c.Shows ls)
    (hls : (Abstract.kindAt ls 1).isName = false) (hQ : Q false c) :
    wp (ruleModifiers turns) Q c := by
  cases turns with
  | zero => exact hQ
  | succ turns =>
    unfold ruleModifiers
    simp only [wp_bind, wp_sees, wp_ite, wp_pure]
    rw [isNameAt, h.kindAt, hls, Bool.and_false, if_neg Bool.false_ne_true]
    exact hQ

theorem isWord_fragment {t : Token} (ht : t.Shows (.name .fragment)) : t.isWord "fragment" = true := by
  rw [ht.isWord]
  decide +kernel

/-- The modifiers of a token rule say whether it is a fragment. -/
theorem ruleModifiers_shown {Q : Bool → Cursor → Prop} {r : TokenRule}
    (h : c.Shows (r.lexemes ++ rest))
    (hQ : ∀ c' : Cursor, c'.Shows (.name r.name.toName :: .sign .colon ::
      (r.body.lexemes ++ .sign .semicolon :: rest)) → Q r.fragment c') :
    wp (ruleModifiers c.ahead.length) Q c := by
  have hlexemes : r.lexemes ++ rest = (if r.fragment then [.name .fragment] else []) ++
      .name r.name.toName :: .sign .colon :: (r.body.lexemes ++ .sign .semicolon :: rest) := by
    simp [TokenRule.lexemes]
  rw [hlexemes] at h
  cases hf : r.fragment with
  | false =>
    rw [hf] at h hQ
    exact ruleModifiers_stop _ h rfl (hQ c h)
  | true =>
    rw [hf, if_pos rfl] at h
    rw [hf] at hQ
    obtain ⟨t, ts, ht, ha, -⟩ := h.exists_token
    have hmodifier : c.ahead.head?.any isModifier = true := by
      rw [ha]
      exact List.any_eq_true.2 ⟨"fragment", by decide, isWord_fragment ht⟩
    have hname : isNameAt c.ahead 1 = true := by
      rw [isNameAt, h.kindAt]
      exact r.name.isName_kind
    rw [show c.ahead.length = ts.length + 1 by rw [ha, List.length_cons]]
    unfold ruleModifiers
    simp only [wp_bind, wp_sees, wp_ite, wp_pure]
    rw [hmodifier, hname, Bool.and_true, if_pos rfl]
    refine advance_shown h fun u c₁ hu h₁ => ruleModifiers_stop _ h₁ rfl ?_
    rw [isWord_fragment hu]
    exact hQ c₁ h₁

theorem yields_tokenRule {flavour : Flavour} (hf : flavour ≠ .parser) {r : TokenRule}
    (hr : r.body.depth ≤ nestingLimit) (rest : List Lexeme) :
    Yields (rule flavour) r.lexemes rest r.outline := by
  intro c h
  unfold rule
  simp only [wp_bind, wp_peek, wp_get]
  refine ruleModifiers_shown h fun c₁ h₁ => ?_
  have hpeek : c₁.peek.Shows (.name r.name.toName) := h₁.peek
  have hkind : c₁.peek.kind = .upperName := hpeek.kind.trans r.capital
  rw [hkind]
  exact tokenRule_shown hf hr hpeek c.peek.start h₁

theorem yields_parserRule {flavour : Flavour} (hf : flavour ≠ .lexer) {r : ParserRule}
    (hr : r.body.depth ≤ nestingLimit) (hrest : Abstract.kindAt rest 1 ≠ .bracket) :
    Yields (rule flavour) r.lexemes rest r.outline := by
  intro c h
  have h : c.Shows (.name r.name.toName :: .sign .colon ::
      (r.body.lexemes ++ .sign .semicolon :: rest)) := by
    rw [show r.lexemes ++ rest = _ from List.append_assoc (_ :: _ :: r.body.lexemes) _ _] at h
    exact h
  unfold rule
  simp only [wp_bind, wp_peek, wp_get]
  refine ruleModifiers_stop _ h rfl ?_
  have hpeek : c.peek.Shows (.name r.name.toName) := h.peek
  have hkind : c.peek.kind = .lowerName := hpeek.kind.trans r.small
  rw [hkind]
  exact parserRule_shown hf hr hrest hpeek c.peek.start h

theorem yields_rule {flavour : Flavour} {r : Rule} (hf : r.admittedIn flavour)
    (hr : r.body.depth ≤ nestingLimit) (hrest : Abstract.kindAt rest 1 ≠ .bracket) :
    Yields (rule flavour) r.lexemes rest r.outline := by
  cases r with
  | parser r => exact yields_parserRule (bne_iff_ne.1 hf) hr hrest
  | token r => exact yields_tokenRule (bne_iff_ne.1 hf) hr rest

end ParseM

namespace Abstract

/-- A rule begins with a name that begins no other part, and no set of characters stands behind it. -/
theorem Rule.exists_name (r : Rule) : ∃ n ls, r.lexemes = .name n :: ls ∧ n.text ≠ "import" ∧
    n.text ≠ "mode" ∧ ∀ rest, kindAt (ls ++ rest) 0 ≠ .bracket := by
  have hfree (w : Word) : w.text ≠ "import" ∧ w.text ≠ "mode" := by
    constructor
    · intro h
      exact w.free (h ▸ by decide)
    · intro h
      exact w.free (h ▸ by decide)
  cases r with
  | parser r => exact ⟨_, _, rfl, (hfree r.name).1, (hfree r.name).2, fun rest => nofun⟩
  | token r =>
    obtain ⟨fragment, name, capital, body⟩ := r
    cases fragment with
    | true =>
      exact ⟨_, _, rfl, by decide, by decide, fun rest => name.kind_ne rfl⟩
    | false => exact ⟨_, _, rfl, (hfree name).1, (hfree name).2, fun rest => nofun⟩

theorem Rule.lexemes_ne_nil (r : Rule) : r.lexemes ≠ [] := by
  obtain ⟨n, ls, hls, -⟩ := r.exists_name
  rw [hls]
  nofun

theorem Rule.kindAt_append (r : Rule) (rest : List Lexeme) :
    kindAt (r.lexemes ++ rest) 1 ≠ .bracket := by
  obtain ⟨n, ls, hls, -, -, hbracket⟩ := r.exists_name
  rw [hls]
  exact hbracket rest

/-- Where a mode ends: at the next one, or with the text. -/
def ModeEnd (ls : List Lexeme) : Prop := ls = [] ∨ ∃ n ms, ls = .name .mode :: .name n :: ms

theorem ModeEnd.kindAt_ne {ls : List Lexeme} (h : ModeEnd ls) : kindAt ls 1 ≠ .bracket := by
  rcases h with rfl | ⟨n, ms, rfl⟩
  · nofun
  · exact n.kind_ne rfl

theorem modeEnd_flatMap (ms : List Mode) : ModeEnd (ms.flatMap Mode.lexemes) := by
  cases ms with
  | nil => exact .inl rfl
  | cons m ms => exact .inr ⟨_, _, rfl⟩

theorem Mode.lexemes_eq (m : Mode) : m.lexemes = .name .mode :: .name m.name.toName ::
    .sign .semicolon :: (m.rules.map Rule.token).flatMap Rule.lexemes := by
  rw [List.flatMap_map]
  rfl

theorem Mode.outline_eq (m : Mode) :
    m.outline = .bare .modeSection (m.name.outline :: (m.rules.map Rule.token).map Rule.outline) := by
  rw [List.map_map]
  rfl

end Abstract

namespace ParseM
open Lookahead
variable {c : Cursor} {ls rest : List Lexeme}

theorem not_isWordAt {n : Name} {w : String} (h : c.Shows (.name n :: ls)) (hn : n.text ≠ w) :
    isWordAt c.ahead 0 w = false := by
  rw [h.isWordAt]
  show (_ && n.text == w) = false
  rw [beq_false_of_ne hn, Bool.and_false]

theorem prequel_other {Q : Option Node → Cursor → Prop} {n : Name} (h : c.Shows (.name n :: ls))
    (hn : n.text ≠ "import") (hQ : Q none c) : wp prequel Q c := by
  have hat := kindAt_ne_of_isForeign (.name n :: ls) 0 (k := .atSign) rfl
  unfold prequel
  simp only [wp_bind, wp_sees, wp_seesKind, wp_ite, wp_pure, h.not_startsBlock, h.kindAt,
    not_isWordAt h hn, beq_false_of_ne hat, Bool.false_and, Bool.false_eq_true, if_false]
  exact hQ

theorem not_startsMode {n : Name} (h : c.Shows (.name n :: ls)) (hn : n.text ≠ "mode") :
    startsMode c.ahead = false := by
  rw [startsMode, not_isWordAt h hn, Bool.false_and]

theorem startsMode_of_shows {n : Name} (h : c.Shows (.name .mode :: .name n :: ls)) :
    startsMode c.ahead = true := by
  have hmode : (Lexeme.name .mode).isWord "mode" = true := by decide +kernel
  rw [startsMode, h.isWordAt, isNameAt, h.kindAt]
  exact Bool.and_eq_true_iff.2 ⟨hmode, n.isName_kind⟩

theorem not_isEmpty {l : Lexeme} (h : c.Shows (l :: ls)) : c.ahead.isEmpty = false := by
  obtain ⟨t, ts, -, ha, -⟩ := h.exists_token
  rw [ha]
  rfl

theorem isEmpty_of_shows (h : c.Shows []) : c.ahead.isEmpty = true := by
  rw [List.forall₂_nil_right_iff.1 h.ahead]
  rfl

/-- Rules may stand before any series in which they are read. -/
theorem Series.rules {condition : List Token → Bool} {p : ParseM Node} {ns : List Node}
    {rules : List Rule} (hrules : ∀ r ∈ rules, ∀ more, Abstract.kindAt more 1 ≠ .bracket →
      (∀ c : Cursor, c.Shows (r.lexemes ++ more) → condition c.ahead) ∧
        Yields p r.lexemes more r.outline)
    (hls : Abstract.kindAt ls 1 ≠ .bracket) (h : Series condition p rest ls ns) :
    Abstract.kindAt (rules.flatMap Rule.lexemes ++ ls) 1 ≠ .bracket ∧
      Series condition p rest (rules.flatMap Rule.lexemes ++ ls) (rules.map Rule.outline ++ ns) := by
  induction rules with
  | nil => exact ⟨hls, h⟩
  | cons r rules ih =>
    obtain ⟨hmore, hseries⟩ := ih fun q hq => hrules q (.tail _ hq)
    obtain ⟨hseen, hread⟩ := hrules r (.head _) _ hmore
    rw [List.flatMap_cons, List.append_assoc]
    exact ⟨r.kindAt_append _, .cons r.lexemes_ne_nil hseen hread hseries⟩

/-- The rules of a mode end where the mode does. -/
theorem series_modeRules {rules : List TokenRule} (hrules : ∀ r ∈ rules, r.body.depth ≤ nestingLimit)
    (hrest : ModeEnd rest) :
    Series (fun ahead => !ahead.isEmpty && !startsMode ahead) (rule .lexer) rest
      ((rules.map Rule.token).flatMap Rule.lexemes ++ rest)
      ((rules.map Rule.token).map Rule.outline) := by
  have hstop (c : Cursor) (h : c.Shows rest) : (!c.ahead.isEmpty && !startsMode c.ahead) = false := by
    rcases hrest with rfl | ⟨n, ms, rfl⟩
    · rw [isEmpty_of_shows h]
      rfl
    · rw [startsMode_of_shows h, Bool.not_true, Bool.and_false]
  have hrule (q : Rule) (hq : q ∈ rules.map Rule.token) (more : List Lexeme)
      (hmore : Abstract.kindAt more 1 ≠ .bracket) :
      (∀ c : Cursor, c.Shows (q.lexemes ++ more) → (!c.ahead.isEmpty && !startsMode c.ahead) = true) ∧
        Yields (rule .lexer) q.lexemes more q.outline := by
    obtain ⟨r, hr, rfl⟩ := List.mem_map.1 hq
    refine ⟨fun c h => ?_, yields_rule rfl (hrules r hr) hmore⟩
    obtain ⟨n, ls, hls, -, hmode, -⟩ := (Rule.token r).exists_name
    rw [hls] at h
    rw [not_isEmpty h, not_startsMode h hmode]
    rfl
  rw [← List.append_nil (List.map Rule.outline _)]
  exact (Series.rules hrule hrest.kindAt_ne (.nil hstop)).2

theorem yields_modeSection {m : Mode} (hm : ∀ r ∈ m.rules, r.body.depth ≤ nestingLimit)
    (hrest : ModeEnd rest) : Yields (modeSection .lexer) m.lexemes rest m.outline := by
  intro c h
  rw [m.lexemes_eq] at h
  unfold modeSection
  simp only [wp_bind, wp_ite, wp_close]
  refine advance_shown h fun _ c₁ _ h₁ => ?_
  refine advance_shown h₁ fun name c₂ hname h₂ => ?_
  rw [if_neg (by simp)]
  refine expect_shown h₂ rfl fun _ c₃ _ h₃ => ?_
  refine wp_mono ((series_modeRules hm hrest).gatherWhile_shown h₃) fun ns c₄ h₄ => ⟨?_, h₄.2⟩
  rw [Node.outline_mk, List.map_cons, hname.outline_identifier, h₄.1, m.outline_eq]

/-! ## Grammars -/

theorem yields_part_rule {flavour : Flavour} {r : Rule} (hf : r.admittedIn flavour)
    (hr : r.body.depth ≤ nestingLimit) (hrest : Abstract.kindAt rest 1 ≠ .bracket) :
    Yields (grammarPart flavour) r.lexemes rest r.outline := by
  intro c h
  obtain ⟨n, ls, hls, himport, hmode, -⟩ := r.exists_name
  have hname : c.Shows (.name n :: (ls ++ rest)) := by
    rw [hls] at h
    exact h
  unfold grammarPart
  simp only [wp_bind]
  refine prequel_other hname himport ?_
  simp only [wp_bind, wp_sees, wp_ite]
  rw [not_startsMode hname hmode, if_neg Bool.false_ne_true]
  exact yields_rule hf hr hrest c h

theorem yields_part_mode {m : Mode} (hm : ∀ r ∈ m.rules, r.body.depth ≤ nestingLimit)
    (hrest : ModeEnd rest) : Yields (grammarPart .lexer) m.lexemes rest m.outline := by
  intro c h
  have hname : c.Shows (.name .mode :: .name m.name.toName :: _) := h
  unfold grammarPart
  simp only [wp_bind]
  refine prequel_other hname (by decide) ?_
  simp only [wp_bind, wp_sees, wp_ite]
  rw [startsMode_of_shows hname, if_pos rfl]
  exact yields_modeSection hm hrest c h

theorem series_modes {flavour : Flavour} {modes : List Mode} (hmodal : modes ≠ [] → flavour = .lexer)
    (hmodes : ∀ m ∈ modes, ∀ r ∈ m.rules, r.body.depth ≤ nestingLimit) :
    Series (fun ahead => !ahead.isEmpty) (grammarPart flavour) [] (modes.flatMap Mode.lexemes)
      (modes.map Mode.outline) := by
  induction modes with
  | nil =>
    refine .nil fun c h => ?_
    rw [isEmpty_of_shows h]
    rfl
  | cons m modes ih =>
    obtain rfl := hmodal nofun
    refine .cons nofun (fun c h => ?_) (yields_part_mode (hmodes m (.head _)) (modeEnd_flatMap modes))
      (ih (fun _ => rfl) fun q hq => hmodes q (.tail _ hq))
    rw [not_isEmpty (show c.Shows (_ :: _) from h)]
    rfl

theorem series_parts (s : Source) (hs : ∀ b ∈ s.bodies, b.depth ≤ nestingLimit) :
    Series (fun ahead => !ahead.isEmpty) (grammarPart s.flavour) []
      (s.rules.flatMap Rule.lexemes ++ s.modes.flatMap Mode.lexemes)
      (s.rules.map Rule.outline ++ s.modes.map Mode.outline) := by
  have hrule (r : Rule) (hr : r ∈ s.rules) : r.body.depth ≤ nestingLimit :=
    hs _ (List.mem_append_left _ (List.mem_map_of_mem hr))
  have hmode (m : Mode) (hm : m ∈ s.modes) (r : TokenRule) (hr : r ∈ m.rules) :
      r.body.depth ≤ nestingLimit :=
    hs _ (List.mem_append_right _ (List.mem_flatMap.2 ⟨m, hm, List.mem_map_of_mem hr⟩))
  refine (Series.rules (fun r hr more hmore => ⟨fun c h => ?_, ?_⟩) (modeEnd_flatMap _).kindAt_ne
    (series_modes s.modal hmode)).2
  · obtain ⟨n, ls, hls, -⟩ := r.exists_name
    rw [hls] at h
    rw [not_isEmpty h]
    rfl
  · exact yields_part_rule (s.admitted r hr) (hrule r hr) hmore

/-- The first words of a grammar declare its flavour. -/
theorem headerFlavour_shown {s : Source} (h : c.Shows (s.headerLexemes ++ rest)) :
    headerFlavour? c.ahead = some s.flavour := by
  have hgrammar : (Lexeme.name .grammar).isWord "grammar" = true := by decide +kernel
  rw [headerFlavour?]
  simp only [h.isWordAt]
  obtain ⟨flavour, name, rules, modes, admitted, modal⟩ := s
  cases flavour with
  | combined =>
    have hlexer : (Lexeme.name .grammar).isWord "lexer" = false := by decide +kernel
    have hparser : (Lexeme.name .grammar).isWord "parser" = false := by decide +kernel
    simp [Source.headerLexemes, Abstract.isWordAt, hgrammar, hlexer, hparser]
  | lexer =>
    have hlexer : (Lexeme.name .lexer).isWord "lexer" = true := by decide +kernel
    simp [Source.headerLexemes, Abstract.isWordAt, hgrammar, hlexer]
  | parser =>
    have hlexer : (Lexeme.name .parser).isWord "lexer" = false := by decide +kernel
    have hparser : (Lexeme.name .parser).isWord "parser" = true := by decide +kernel
    simp [Source.headerLexemes, Abstract.isWordAt, hgrammar, hlexer, hparser]

theorem yields_header (s : Source) (rest : List Lexeme) :
    Yields (header s.flavour) s.headerLexemes rest (.bare (.header s.flavour) [s.name.outline]) := by
  intro c h
  unfold header
  simp -zeta only [wp_bind, wp_peek]
  extract_lets start children close named
  -- The word `grammar` comes next, whether or not one stood before it.
  have hnamed (u : Unit) {c₁ : Cursor}
      (h₁ : c₁.Shows (.name .grammar :: .name s.name.toName :: .sign .semicolon :: rest)) :
      wp (named u) (fun n c' => n.outline = .bare (.header s.flavour) [s.name.outline] ∧
        c'.Shows rest) c₁ := by
    simp only [named, close, wp_bind, wp_seesName, wp_ite, wp_close]
    refine advance_shown h₁ fun _ c₂ _ h₂ => ?_
    have hname : isNameAt c₂.ahead 0 := by
      rw [isNameAt, h₂.kindAt]
      exact s.name.isName_kind
    rw [if_pos hname]
    refine advance_shown h₂ fun t c₃ ht h₃ => ?_
    refine expect_shown h₃ rfl fun _ c₄ _ h₄ => ⟨?_, h₄⟩
    simp [ht.outline_identifier]
  obtain ⟨flavour, name, rules, modes, admitted, modal⟩ := s
  simp only [wp_bind, wp_ite]
  cases flavour with
  | combined =>
    rw [if_neg (by simp)]
    exact hnamed () h
  | lexer | parser =>
    rw [if_pos (by simp)]
    exact advance_shown h fun _ c₁ _ h₁ => hnamed () h₁

theorem grammar_shown {s : Source} (hs : ∀ b ∈ s.bodies, b.depth ≤ nestingLimit)
    (h : c.Shows s.lexemes) :
    wp grammar (fun n c' => n.outline = s.outline ∧ c'.faults = []) c := by
  have h : c.Shows (s.headerLexemes ++
      (s.rules.flatMap Rule.lexemes ++ s.modes.flatMap Mode.lexemes)) := by
    rw [← List.append_assoc]
    exact h
  unfold grammar grammarHeader
  simp only [wp_bind, wp_get]
  rw [headerFlavour_shown h]
  simp only [wp_bind, wp_pure]
  refine (yields_header s _).on h fun n c₁ hn h₁ => ?_
  refine wp_mono ((series_parts s hs).gatherWhile_shown h₁) fun ns c₂ ⟨hns, h₂⟩ => ⟨?_, h₂.clean⟩
  rw [Node.outline_mk, List.singleton_append, List.map_cons, hn, hns]
  rfl

end ParseM

namespace Grammar

/-- However a well-formed grammar is spelled, reading it reports nothing and gives its tree, which is
the tree of no other grammar. -/
theorem parse_spelled (s : Source) (text : String) (happart : s.lexemes.IsChain Lexeme.Apart)
    (hdepth : ∀ b ∈ s.bodies, b.depth ≤ nestingLimit) (h : Spells s.lexemes text.toList) :
    (parse text).faults = [] ∧ (parse text).tree.outline = s.outline ∧
      ∀ s' : Source, (parse text).tree.outline = s'.outline → s' = s := by
  obtain ⟨htokens, hfaults⟩ := h.ofChars
  have hstart : (Cursor.ofStream (TokenStream.ofChars text.toList).1).Shows s.lexemes :=
    ⟨htokens, rfl, happart⟩
  obtain ⟨htree, hclean⟩ := ParseM.grammar_shown hdepth hstart
  rw [parse_eq, hfaults, hclean]
  dsimp only
  exact ⟨rfl, htree, fun s' h' => Source.outline_injective (h'.symm.trans htree)⟩

/-- A keyword names a command, a label stands in a block, and a mode follows. -/
def modalGrammar : Source where
  flavour := .lexer
  name := ⟨⟨"Words", by decide +kernel⟩, by decide⟩
  rules := [
    .token ⟨true, ⟨⟨"D", by decide +kernel⟩, by decide⟩, by decide +kernel,
      ⟨⟨[⟨none, none, .charSet ⟨"0-9\\]", by decide⟩⟩], none, []⟩, []⟩⟩,
    .token ⟨false, ⟨⟨"W", by decide +kernel⟩, by decide⟩, by decide +kernel,
      ⟨⟨[⟨some ⟨.zeroOrMore, false⟩, some ⟨⟨⟨"x", by decide +kernel⟩, by decide⟩, true⟩,
          .negated (.block
            ⟨[⟨none, none, .range ⟨"a", by decide⟩ ⟨"\\'", by decide⟩⟩], none, []⟩
            [⟨[], some ⟨⟨"none", by decide +kernel⟩, by decide⟩, []⟩])⟩],
        none,
        [⟨.mode, some ⟨⟨"M", by decide +kernel⟩, by decide⟩⟩, ⟨⟨"skip", by decide +kernel⟩, none⟩]⟩,
      []⟩⟩]
  modes := [⟨⟨⟨"M", by decide +kernel⟩, by decide⟩,
    [⟨false, ⟨⟨"E", by decide +kernel⟩, by decide⟩, by decide +kernel,
      ⟨⟨[⟨none, none, .wildcard⟩], none, []⟩, [⟨[], none, []⟩]⟩⟩]⟩]
  admitted := by decide
  modal := fun _ => rfl

theorem parse_spelled_modal :
    let text := " lexer grammar Words ; fragment D : [0-9\\]] ;" ++
      " W : x += ~ ( 'a' .. '\\'' | # none ) * ? -> mode ( M ) , skip ; mode M ; E : . | ;"
    Spells modalGrammar.lexemes text.toList ∧ (parse text).faults = [] ∧
      (parse text).tree.outline = modalGrammar.outline := by
  intro text
  have htext : text.toList = render modalGrammar.lexemes := by decide +kernel
  have hspells : Spells modalGrammar.lexemes text.toList := htext ▸ spells_render _
  obtain ⟨hfaults, htree, -⟩ :=
    parse_spelled modalGrammar text (by decide +kernel) (by decide +kernel) hspells
  exact ⟨hspells, hfaults, htree⟩

end Grammar

end GrammarAtlas
