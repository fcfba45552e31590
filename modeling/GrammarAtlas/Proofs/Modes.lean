import GrammarAtlas.Proofs.Extraction
import GrammarAtlas.Proofs.ImportSearch
import GrammarAtlas.Proofs.Wholeness

/-! # The mode of a token rule is the one declared last before it

In a tree a token rule stands in a mode if it is below the node of the mode. In the text modes do
not nest: each goes on until the next. The two agree because a mode ends at the end of the text only,
or where the next one begins (`ParseM.modeSection_ends`), and there nothing but the next mode can be
read (`ParseM.prequel_of_startsMode`). So no part of a grammar behind a mode is anything else than a
mode (`ParseM.Sectioned`, `Grammar.parse_sections`), whatever is wrong between them.

Main statement: `SymbolTable.moded_parse`. -/

namespace GrammarAtlas

open Lookahead

/-- Nothing is ahead but perhaps a mode. -/
def Cursor.AtMode (c : Cursor) : Prop := c.ahead = [] ∨ startsMode c.ahead

namespace ParseM
variable {c : Cursor} {flavour : Flavour}

theorem word_of_startsMode (hm : startsMode c.ahead) :
    ∃ t ts, c.ahead = t :: ts ∧ t.kind = .lowerName ∧ t.text = "mode" := by
  obtain ⟨t, u, ts, ha, -⟩ := exists_name_of_startsMode hm
  rw [startsMode, Bool.and_eq_true, ha] at hm
  obtain ⟨hkind, htext⟩ := Token.isWord_iff.1 (show t.isWord "mode" from hm.1)
  exact ⟨t, u :: ts, ha, hkind, htext⟩

/-- No other declaration begins where a mode does. -/
theorem prequel_of_startsMode {Q : Option Node → Cursor → Prop} (hm : startsMode c.ahead)
    (hQ : Q none c) : wp prequel Q c := by
  obtain ⟨t, ts, ha, hkind, htext⟩ := word_of_startsMode hm
  have hword (w : String) (hw : w ≠ "mode") : isWordAt c.ahead 0 w = false := by
    rw [ha]
    show t.isWord w = false
    rw [Bool.eq_false_iff, Ne, Token.isWord_iff, htext]
    exact fun h => hw h.2.symm
  have hat : (kindAt c.ahead 0 == .atSign) = false := by
    rw [ha]
    show (t.kind == .atSign) = false
    rw [hkind]
    rfl
  unfold prequel
  simp only [wp_bind, wp_sees, wp_seesKind, wp_ite, wp_pure, startsBlock, hword "options" (by decide),
    hword "tokens" (by decide), hword "channels" (by decide), hword "import" (by decide), hat,
    Bool.false_and]
  exact hQ

/-- A mode goes on until the next one, or to the end of the text. -/
theorem modeSection_ends (hc : c.Regular) (hm : startsMode c.ahead) :
    wp (modeSection flavour) (fun _ c' => c'.AtMode) c := by
  refine wp_modeSection hc hm fun name c₁ h₁ => ?_
  refine wp_mono (wp_gatherWhile_of_progress (I := fun _ c => c.Regular)
    (fun ns c hc hcond => ?_) h₁.regular) fun rules c₂ ⟨_, hstop⟩ l => ?_
  · exact wp_mono (forms_rule flavour hc (ne_nil_of_goesOn hcond)) fun n c' h =>
      ⟨h.regular, h.length_lt⟩
  · rw [Bool.and_eq_false_iff] at hstop
    rcases hstop with hempty | hmode
    · exact .inl (by simpa using hempty)
    · exact .inr (by simpa using hmode)

/-- Behind a mode there is a mode or nothing, and where a mode begins it is read. -/
theorem grammarPart_modes (hc : c.Regular) (hne : c.ahead ≠ []) :
    wp (grammarPart flavour) (fun n c' => (n.kind = .modeSection → c'.AtMode) ∧
      (startsMode c.ahead → n.kind = .modeSection)) c := by
  unfold grammarPart
  simp only [wp_bind]
  by_cases hm : startsMode c.ahead
  · refine prequel_of_startsMode hm ?_
    simp only [wp_bind, wp_sees, wp_ite, hm, if_true]
    have hkind := modeSection_on flavour hc hm
    exact ⟨fun _ => modeSection_ends hc hm, fun _ => hkind.2⟩
  · refine wp_mono (wp_and (forms_prequel hc) (produces_prequel c hc)) fun n? c₁ ⟨h₁, _, hn⟩ => ?_
    cases n? with
    | some n =>
      refine ⟨fun hk => ?_, fun h => absurd h hm⟩
      have hprequel := hn n rfl
      rw [show n.kind = .modeSection from hk] at hprequel
      cases hprequel
    | none =>
      obtain rfl : c₁ = c := h₁
      simp only [wp_bind, wp_sees, wp_ite, if_neg hm]
      refine wp_mono (produces_rule flavour c₁ hc) fun n c₂ ⟨_, hrule⟩ => ?_
      refine ⟨fun hk => ?_, fun h => absurd h hm⟩
      have hrule : n.kind.isRule := hrule
      rw [hk] at hrule
      cases hrule

/-- Once one of the parts is a mode, so are all later ones, and so is what comes next. -/
structure Sectioned (parts : List Node) (c : Cursor) : Prop where
  regular : c.Regular
  sections : parts.Pairwise fun n m => n.kind = .modeSection → m.kind = .modeSection
  atMode : (∃ n ∈ parts, n.kind = .modeSection) → c.AtMode

theorem Sectioned.grammarPart {parts : List Node} (h : Sectioned parts c) (hne : c.ahead ≠ []) :
    wp (grammarPart flavour) (fun n c' => Sectioned (parts ++ [n]) c' ∧
      c'.ahead.length < c.ahead.length) c := by
  have hstarts (hmode : ∃ n ∈ parts, n.kind = .modeSection) : startsMode c.ahead :=
    (h.atMode hmode).resolve_left hne
  have hpart := forms_grammarPart flavour h.regular hne
  refine wp_mono (wp_and hpart (grammarPart_modes h.regular hne)) fun n c' hn => ?_
  obtain ⟨hforms, hends, hnext⟩ := hn
  refine ⟨⟨hforms.regular, ?_, ?_⟩, hforms.length_lt⟩
  · refine List.pairwise_append.2 ⟨h.sections, List.pairwise_singleton _ _, ?_⟩
    intro m hm k hk hkind
    obtain rfl := List.mem_singleton.1 hk
    exact hnext (hstarts ⟨m, hm, hkind⟩)
  · rintro ⟨m, hm, hkind⟩
    rcases List.mem_append.1 hm with hm | hm
    · exact hends (hnext (hstarts ⟨m, hm, hkind⟩))
    · obtain rfl := List.mem_singleton.1 hm
      exact hends hkind

/-- Once a mode is declared, all parts of a grammar are modes. -/
theorem grammar_sections (hc : c.Regular) :
    wp ParseM.grammar (fun root _ =>
      root.children.Pairwise fun n m => n.kind = .modeSection → m.kind = .modeSection) c := by
  unfold ParseM.grammar
  simp only [wp_bind]
  refine wp_mono (produces_grammarHeader c hc) fun header c₁ hheader => ?_
  obtain ⟨first, flavour⟩ := header
  obtain ⟨h₁, -, hfirst⟩ := hheader
  have hheader : ∀ n ∈ first, n.kind ≠ .modeSection := by
    intro n hn hk
    have hheader := hfirst n hn
    simp [Node.isHeader, hk] at hheader
  refine wp_mono (wp_gatherWhile_of_progress (I := Sectioned)
    (fun parts c h hne => h.grammarPart (by simpa using hne))
    ⟨h₁.regular, .nil, by simp⟩) fun parts c₂ hparts => ?_
  simp only [wp_get, wp_pure]
  have hfirst : first.Pairwise fun n m => n.kind = .modeSection → m.kind = .modeSection :=
    List.pairwise_of_forall_mem_list fun n hn _ _ hk => absurd hk (hheader n hn)
  have hsections := hparts.1.sections
  exact List.pairwise_append.2 ⟨hfirst, hsections, fun n hn _ _ hk => absurd hk (hheader n hn)⟩

end ParseM

theorem Grammar.parse_sections (text : String) :
    (parse text).tree.children.Pairwise fun n m =>
      n.kind = .modeSection → m.kind = .modeSection := by
  obtain ⟨_, h, -⟩ := parse_of_wp (ParseM.grammar_sections (Cursor.regular_ofStream text.toList))
  exact h

/-- Kinds of symbols that stand in a mode. -/
def Symbol.Kind.isTokenRule : Symbol.Kind → Bool
  | .tokenRule | .fragmentRule => true
  | _ => false

namespace Declaration
variable {mode? : Option String} {ds es : List Declaration}

/-- The mode that a declaration is of. -/
def declaredMode? (d : Declaration) : Option String :=
  d.occurrence?.bind fun o => if o.ns = .mode then some o.name else none

/-- The declaration notes the mode it stands in if it is that of a token rule, and no mode if it is
not. Where no mode is given, it stands in the default one. -/
def NotesMode (mode? : Option String) : Declaration → Prop
  | symbol kind _ _ noted? =>
    noted? = if kind.isTokenRule then some (mode?.getD defaultMode) else none
  | grammar _ => True

/-- Each declaration notes the mode declared last before it, or the given one if there is none. -/
def Moded : Option String → List Declaration → Prop
  | _, [] => True
  | mode?, d :: ds => d.NotesMode mode? ∧ Moded (d.declaredMode?.or mode?) ds

theorem moded_append : Moded mode? (ds ++ es) ↔
    Moded mode? ds ∧ Moded ((ds.filterMap declaredMode?).getLast?.or mode?) es := by
  induction ds generalizing mode? with
  | nil => simp [Moded]
  | cons d ds ih =>
    have hlast : ((d :: ds).filterMap declaredMode?).getLast?.or mode? =
        (ds.filterMap declaredMode?).getLast?.or (d.declaredMode?.or mode?) := by
      cases hd : d.declaredMode? with
      | none => simp [hd]
      | some mode =>
        cases hds : (ds.filterMap declaredMode?).getLast? <;> simp [hd, hds, List.getLast?_cons]
    rw [List.cons_append, Moded, Moded, ih, hlast, and_assoc]

theorem Moded.notes {d : Declaration} (h : Moded mode? (ds ++ d :: es)) :
    d.NotesMode ((ds.filterMap declaredMode?).getLast?.or mode?) :=
  (moded_append.1 h).2.1

/-- What a declaration notes is the mode of the symbol that it enters. -/
theorem NotesMode.entered {d : Declaration} (h : d.NotesMode mode?) :
    d.entered.mode? =
      if d.entered.kind.isTokenRule then some (mode?.getD defaultMode) else none := by
  cases d with
  | symbol => exact h
  | grammar i =>
    rw [Declaration.entered, Import.symbol]
    cases i.tokensOnly <;> rfl

/-- Declarations of which none is of a mode. -/
theorem moded_of_forall (h : ∀ d ∈ ds, d.NotesMode mode? ∧ d.declaredMode? = none) :
    Moded mode? ds := by
  induction ds with
  | nil => trivial
  | cons d ds ih =>
    obtain ⟨⟨hnotes, hnone⟩, hds⟩ := List.forall_mem_cons.1 h
    refine ⟨hnotes, ?_⟩
    rw [hnone]
    exact ih hds

open Node

theorem notes_ofName {kind : Symbol.Kind} {noted? : Option String} {n : Node} {d : Declaration}
    (hnoted : noted? = if kind.isTokenRule then some (mode?.getD defaultMode) else none)
    (hkind : kind.namespace? ≠ some .mode) (h : ofName kind noted? n = some d) :
    d.NotesMode mode? ∧ d.declaredMode? = none := by
  obtain ⟨name, -, rfl⟩ := Option.map_eq_some_iff.1 h
  refine ⟨hnoted, ?_⟩
  cases hns : kind.namespace? with
  | none => simp [declaredMode?, occurrence?, hns]
  | some ns =>
    have hmode : ns ≠ .mode := fun heq => hkind (heq ▸ hns)
    simp [declaredMode?, occurrence?, hns, hmode]

theorem notes_ofNamed {kind : Symbol.Kind} {noted? : Option String} {n : Node}
    (hnoted : noted? = if kind.isTokenRule then some (mode?.getD defaultMode) else none)
    (hkind : kind.namespace? ≠ some .mode) :
    ∀ d ∈ ofNamed kind noted? n, d.NotesMode mode? ∧ d.declaredMode? = none := by
  intro d hd
  obtain ⟨m, -, hm⟩ := Option.bind_eq_some_iff.1 (Option.mem_toList.1 hd)
  exact notes_ofName hnoted hkind hm

/-- A part that is no mode declares nothing but what stands in the present mode. -/
theorem notes_ofPart {n : Node} (hk : n.kind ≠ .modeSection) :
    ∀ d ∈ ofPart mode? n, d.NotesMode mode? ∧ d.declaredMode? = none := by
  obtain ⟨kind, l, children⟩ := n
  have himport {f : Node → Option Declaration} (hf : ∀ n d, f n = some d → ∃ i, d = .grammar i) :
      ∀ d ∈ children.filterMap f, d.NotesMode mode? ∧ d.declaredMode? = none := by
    intro d hd
    obtain ⟨n, -, hn⟩ := List.mem_filterMap.1 hd
    obtain ⟨i, rfl⟩ := hf n d hn
    exact ⟨trivial, rfl⟩
  have hlist {sk : Symbol.Kind} (hsk : sk.isTokenRule = false) (hns : sk.namespace? ≠ some .mode) :
      ∀ d ∈ children.filterMap (ofName sk none), d.NotesMode mode? ∧ d.declaredMode? = none := by
    intro d hd
    obtain ⟨n, -, hn⟩ := List.mem_filterMap.1 hd
    exact notes_ofName (by rw [hsk]; rfl) hns hn
  cases kind with
  | parserRule => exact notes_ofNamed rfl (by decide)
  | tokenRule fragment =>
    cases fragment with
    | false => exact notes_ofNamed rfl (by decide)
    | true => exact notes_ofNamed rfl (by decide)
  | modeSection => exact absurd rfl hk
  | tokenList => exact hlist rfl (by decide)
  | channelList => exact hlist rfl (by decide)
  | delegates =>
    refine himport fun n d hd => ?_
    unfold ofDelegate at hd
    split at hd
    · cases hd; exact ⟨_, rfl⟩
    · cases hd
  | options =>
    refine himport fun n d hd => ?_
    unfold ofOption at hd
    split at hd
    · split at hd
      · cases hd; exact ⟨_, rfl⟩
      · cases hd; exact ⟨_, rfl⟩
      · cases hd
    · cases hd
  | _ => exact List.forall_mem_nil _

theorem ofPart_modeSection (mode? : Option String) (l l' : Location) (text : String)
    (rest : List Node) :
    ofPart mode? ⟨.modeSection, l, .leaf (.identifier text) l' :: rest⟩ =
      .symbol .mode text l' none :: ofParts (some text) rest := rfl

/-- What a mode declares stands in it, wherever the mode stands. -/
theorem moded_section {n : Node} (h : n.Conforms) (hk : n.kind = .modeSection)
    (present? : Option String) : Moded mode? (ofPart present? n) := by
  cases h with
  | word hw => cases hk; cases hw
  | node hfits hc =>
    cases hk
    cases hfits with
    | @named name rest _ hname _ hrest =>
      obtain ⟨text, heq⟩ := (hc name (.head _)).identifier (Kind.isIdentifier_of_isName hname)
      rw [heq, ofPart_modeSection]
      refine ⟨rfl, moded_of_forall fun d hd => ?_⟩
      rw [ofParts_eq_flatMap, List.mem_flatMap] at hd
      obtain ⟨m, hm, hd⟩ := hd
      refine notes_ofPart (fun hmode => ?_) d hd
      have hrule := hrest m hm
      rw [hmode] at hrule
      cases hrule
    | plain hnamed => cases hnamed

theorem moded_sections {ns : List Node} (h : ∀ n ∈ ns, n.Conforms ∧ n.kind = .modeSection)
    (present? : Option String) : Moded mode? (ofParts present? ns) := by
  induction ns generalizing mode? with
  | nil => simp [ofParts, Moded]
  | cons n ns ih =>
    obtain ⟨⟨hn, hk⟩, hns⟩ := List.forall_mem_cons.1 h
    rw [ofParts, moded_append]
    exact ⟨moded_section hn hk _, ih hns⟩

theorem moded_ofParts {ns : List Node} (hns : ∀ n ∈ ns, n.Conforms)
    (hsections : ns.Pairwise fun n m => n.kind = .modeSection → m.kind = .modeSection) :
    Moded none (ofParts none ns) := by
  induction ns with
  | nil => simp [ofParts, Moded]
  | cons n ns ih =>
    obtain ⟨hn, hns⟩ := List.forall_mem_cons.1 hns
    obtain ⟨hnext, hsections⟩ := List.pairwise_cons.1 hsections
    rw [ofParts, moded_append]
    by_cases hk : n.kind = .modeSection
    · exact ⟨moded_section hn hk _, moded_sections (fun m hm => ⟨hns m hm, hnext m hm hk⟩) _⟩
    · have hnotes : ∀ d ∈ ofPart none n, d.NotesMode none ∧ d.declaredMode? = none :=
        notes_ofPart hk
      have hnone : (ofPart none n).filterMap declaredMode? = [] :=
        List.filterMap_eq_nil_iff.2 fun d hd => (hnotes d hd).2
      refine ⟨moded_of_forall hnotes, ?_⟩
      rw [hnone]
      exact ih hns hsections

theorem moded_ofTree (text : String) : Moded none (ofTree (Grammar.parse text).tree) :=
  moded_ofParts (Grammar.parse_assembled text).conforms (Grammar.parse_sections text)

end Declaration

/-! ## Symbols in a mode -/

/-- The mode that is declared last before a place of the text. -/
def Occurrence.modeBefore (definitions : List Occurrence) (offset : Nat) : String :=
  ((definitions.filter fun o => o.ns == .mode && o.location.start.offset < offset).getLast?.map
    name).getD defaultMode

open Declaration in
theorem Declaration.modeBefore_eq {ds before after : List Declaration} {d : Declaration}
    (hds : ds = before ++ d :: after)
    (hascending : (ds.map start).Pairwise fun a b => a.offset < b.offset) :
    Occurrence.modeBefore (ds.filterMap occurrence?) d.start.offset =
      ((before.filterMap declaredMode?).getLast?).getD defaultMode := by
  subst hds
  rw [List.map_append, List.map_cons, List.pairwise_append, List.pairwise_cons] at hascending
  obtain ⟨-, ⟨hafter, -⟩, hbefore⟩ := hascending
  have hstart {e : Declaration} {o : Occurrence} (ho : e.occurrence? = some o) :
      o.location.start = e.start := by rw [location_of_occurrence? ho]; rfl
  have hfirst : (before.filterMap occurrence?).filter
      (fun o => o.ns == .mode && o.location.start.offset < d.start.offset) =
        (before.filterMap occurrence?).filter (·.ns == .mode) := by
    refine List.filter_congr fun o ho => ?_
    obtain ⟨e, he, ho⟩ := List.mem_filterMap.1 ho
    have hlt := hbefore e.start (List.mem_map_of_mem he) d.start (.head _)
    simp [hstart ho, hlt]
  have hrest : ((d :: after).filterMap occurrence?).filter
      (fun o => o.ns == .mode && o.location.start.offset < d.start.offset) = [] := by
    refine List.filter_eq_nil_iff.2 fun o ho => ?_
    obtain ⟨e, he, ho⟩ := List.mem_filterMap.1 ho
    have hle : d.start.offset ≤ e.start.offset := by
      rcases List.mem_cons.1 he with rfl | he
      · exact le_rfl
      · exact (hafter e.start (List.mem_map_of_mem he)).le
    simp [hstart ho, hle]
  have hnames : ((before.filterMap occurrence?).filter (·.ns == .mode)).map Occurrence.name =
      before.filterMap declaredMode? := by
    rw [List.filter_filterMap, List.map_filterMap]
    refine List.filterMap_congr fun e _ => ?_
    rw [declaredMode?]
    cases e.occurrence? with
    | none => rfl
    | some o => by_cases ho : o.ns = .mode <;> simp [ho]
  rw [Occurrence.modeBefore, List.filterMap_append, List.filter_append, hfirst, hrest,
    List.append_nil, ← List.getLast?_map, hnames]

/-- Token rules, and they alone, stand in a mode: the one defined last before them. -/
structure SymbolTable.Moded (table : SymbolTable) (definitions : List Occurrence) : Prop where
  /-- Definitions come in the order of the text. -/
  ascending : definitions.Pairwise fun o p => o.location.start.offset < p.location.start.offset
  inMode : ∀ s ∈ table.symbols, s.kind.isTokenRule → ∃ l, s.definition? = some l ∧
    s.mode? = some (Occurrence.modeBefore definitions l.start.offset)
  inNone : ∀ s ∈ table.symbols, s.kind.isTokenRule = false → s.mode? = none

namespace SymbolTable
open Occurrence

theorem moded_parse (text : String) :
    (ofTree (Grammar.parse text).tree).Moded
      ((Grammar.parse text).tree.walk.filterMap definitionAt) := by
  have hsymbols : ∀ s ∈ (ofTree (Grammar.parse text).tree).symbols, ∃ l, s.definition? = some l ∧
      s.mode? = if s.kind.isTokenRule then some (modeBefore
        ((Grammar.parse text).tree.walk.filterMap definitionAt) l.start.offset) else none := by
    intro s hs
    obtain ⟨d, hd, rfl⟩ := List.mem_map.1 ((symbols_ofTree _).subset hs)
    obtain ⟨before, after, hds⟩ := List.append_of_mem hd
    have hmoded := Declaration.moded_ofTree text
    rw [hds] at hmoded
    refine ⟨d.location, d.definition?_entered, ?_⟩
    rw [hmoded.notes.entered, definitions_parse, Option.or_none]
    rw [← Declaration.modeBefore_eq hds (Declaration.ofTree_ascending text)]
    rfl
  refine ⟨(agrees_parse text).sourceOrder, fun s hs hk => ?_, fun s hs hk => ?_⟩
  · obtain ⟨l, hl, hmode⟩ := hsymbols s hs
    exact ⟨l, hl, by rw [hmode, if_pos hk]⟩
  · obtain ⟨l, -, hmode⟩ := hsymbols s hs
    rw [hmode, if_neg (by simp [hk])]

/-- In the table of every text a token rule stands in the mode that is defined last before it, by
the definitions that any resolution of the text finds. -/
theorem modes_enclose (text : String) (warn : Bool) :
    let tree := (Grammar.parse text).tree
    (∀ library, ∃ r known, Resolution.inquire library tree (ofTree tree) warn = some (r, known) ∧
        (ofTree tree).Moded (r.occurrences.filter isDefinition)) ∧
      ∀ known r, Resolution.attempt known tree (ofTree tree) warn = .ok r →
        (ofTree tree).Moded (r.occurrences.filter isDefinition) := by
  intro tree
  have hattempt : ∀ known r, Resolution.attempt known tree (ofTree tree) warn = .ok r →
      (ofTree tree).Moded (r.occurrences.filter isDefinition) := by
    intro known r h
    rw [Resolution.attempt_filter h]
    exact moded_parse text
  refine ⟨fun library => ?_, hattempt⟩
  obtain ⟨r, known, hknown, hok⟩ := Resolution.exists_inquire library tree (ofTree tree) warn
  exact ⟨r, known, hknown, hattempt known r hok⟩

/-- A broken rule and a block out of place lie between the modes, one of which is declared again. -/
theorem modes_enclose_broken :
    let text := "lexer grammar L; tokens \x7b T \x7d A : 'a' ; mode M; B : ( 'b' mode N; \x7d " ++
      "C : mode ; mode M; options \x7b k = v; \x7d r : mode ; fragment D : 'd'"
    let tree := (Grammar.parse text).tree
    ∃ r, Resolution.attempt [] tree (ofTree tree) true = .ok r ∧
      (ofTree tree).symbols.map (fun s => (s.name, s.mode?)) =
        [("T", none), ("A", some "DEFAULT_MODE"), ("M", none), ("B", some "M"), ("N", none),
          ("C", some "N"), ("options", none), ("D", some "M")] ∧
      (ofTree tree).Moded (r.occurrences.filter isDefinition) := by
  intro text tree
  have hok : ∃ r, r ∈ (Resolution.attempt [] tree (ofTree tree) true).toOption ∧
      (ofTree tree).symbols.map (fun s => (s.name, s.mode?)) =
        [("T", none), ("A", some "DEFAULT_MODE"), ("M", none), ("B", some "M"), ("N", none),
          ("C", some "N"), ("options", none), ("D", some "M")] := by
    decide +kernel
  obtain ⟨r, hr, hsymbols⟩ := hok
  have hr := Resolution.eq_ok_of_mem_toOption hr
  exact ⟨r, hr, hsymbols, (modes_enclose text true).2 [] r hr⟩

end SymbolTable

end GrammarAtlas
