import GrammarAtlas.Proofs.Reading
import GrammarAtlas.Tree.Rule

/-! # Every production is a reading

One lemma for each production, in the order of the grammar: what its nodes are, and that they were
read from the cursor on. -/

namespace GrammarAtlas

namespace ParseM
open Lookahead Node.Kind

theorem produces_header (flavour : Flavour) :
    Produces (header flavour) (fun n => [n]) (fun n => n.kind = .header flavour) := by
  intro c hc
  unfold header
  simp -zeta only [wp_bind, wp_peek]
  extract_lets start children close name
  have hclose (u : Unit) (ns : List Node) (c₁ : Cursor) (h₁ : Reading c ns c₁)
      (hns : ∀ n ∈ ns, n.kind.isName) :
      wp (close u ns) (fun n c' => Reading c [n] c' ∧ n.kind = .header flavour) c₁ := by
    simp only [close, wp_bind, wp_close]
    exact (passes_expect _).on h₁ fun _ c₂ h₂ => ⟨h₂.closed (.plain rfl rfl hns rfl), trivial⟩
  have hname (u : Unit) (c₁ : Cursor) (h₁ : Reading c [] c₁) :
      wp (name u) (fun n c' => Reading c [n] c' ∧ n.kind = .header flavour) c₁ := by
    simp only [name, wp_bind, wp_seesName, wp_ite]
    refine passes_advance.on h₁ fun _ c₂ h₂ => ?_
    rw [h₂.regular.isNameAt_zero]
    split
    · rename_i hn
      refine identifier_on h₂ hn fun c₃ h₃ _ => hclose () _ c₃ h₃ ?_
      simpa [identifier, Node.leaf, isName] using h₂.regular.plain_peek hn
    · exact (passes_reportMissing _).on h₂ fun _ c₃ h₃ => hclose () [] c₃ h₃ (by simp)
  simp only [wp_bind, wp_ite]
  split
  · exact passes_advance.on (.start hc) fun _ c₁ h₁ => hname () c₁ h₁
  · exact hname () c (.start hc)

theorem exists_dotted {ahead : List Token} (h : kindAt ahead 0 == .dot && isNameAt ahead 1) :
    ∃ dot part ts, ahead = dot :: part :: ts := by
  match ahead with
  | [] => simp [kindAt] at h
  | [t] => simp [isNameAt, kindAt, Token.Kind.isName] at h
  | dot :: part :: ts => exact ⟨dot, part, ts, rfl⟩

/-- The further parts of a dotted name are the tokens read for them. -/
theorem dottedParts_on (turns : Nat) {c : Cursor} (hc : c.Regular) :
    wp (dottedParts turns) (fun s c' => Reading c [] c' ∧
      ∃ us, c.ahead = us ++ c'.ahead ∧ s = Token.spelled us) c := by
  induction turns generalizing c with
  | zero => exact ⟨.start hc, [], rfl, rfl⟩
  | succ turns ih =>
    unfold dottedParts
    simp only [wp_bind, wp_sees, wp_ite, wp_pure]
    split
    · rename_i hdot
      obtain ⟨dot, part, ts, ha⟩ := exists_dotted hdot
      have h₂ := ((Reading.start hc).token ha).token (show _ = part :: ts from rfl)
      refine wp_advance_of_ahead ha (wp_advance_of_ahead rfl ?_)
      refine wp_mono (ih h₂.regular) fun s c₃ h => ?_
      obtain ⟨h₃, us, hus, rfl⟩ := h
      refine ⟨h₂.skip h₃, dot :: part :: us, ?_, ?_⟩
      · rw [ha, show ts = us ++ c₃.ahead from hus]
        rfl
      · simp [Token.spelled, String.append_assoc]
    · exact ⟨.start hc, [], rfl, rfl⟩

theorem produces_optionValue :
    Produces optionValue Option.toList (fun v? => ∀ v ∈ v?, v.kind.isValue) := by
  intro c hc
  unfold optionValue
  simp only [wp_bind, wp_peek]
  have hdotted (hk : c.peek.kind ≠ .finish) :
      wp (do
          let _ ← advance
          let parts ← dottedParts (← get).ahead.length
          return some (← close (.identifier (c.peek.text ++ parts)) c.peek.start []))
        (fun v? c' => Reading c v?.toList c' ∧ ∀ v ∈ v?, v.kind.isValue) c := by
    obtain ⟨ts, ha⟩ := hc.ahead_of_peek hk
    simp only [wp_bind, wp_get, wp_close, wp_pure]
    refine wp_advance_of_ahead ha ?_
    refine wp_mono (dottedParts_on _ (hc.after ha)) fun parts c₁ h => ?_
    obtain ⟨h₁, us, hus, hparts⟩ := h
    refine ⟨(Reading.start hc).word ha h₁ rfl fun s hs => ⟨us, hus, ?_⟩, by simp [isValue]⟩
    rw [← Option.some.inj hs, hparts]
  have hliteral (hk : c.peek.kind ≠ .finish) :
      wp (do
          let _ ← advance
          return some (literal c.peek))
        (fun v? c' => Reading c v?.toList c' ∧ ∀ v ∈ v?, v.kind.isValue) c := by
    simp only [wp_bind, wp_pure]
    refine literal_on (.start hc) hk fun c₁ h₁ => ⟨h₁, ?_⟩
    simp [literal, Node.leaf, isValue]
  split
  · exact hdotted (by simp [*])
  · exact hdotted (by simp [*])
  · exact hliteral (by simp [*])
  · exact hliteral (by simp [*])
  · simp only [wp_bind, wp_close, wp_pure]
    refine passes_advance.on (.start hc) fun _ c₁ h₁ => ?_
    exact ⟨h₁.closed (.plain rfl rfl (by simp) rfl), by simp [isValue]⟩
  · simp only [wp_bind, wp_pure]
    exact (passes_reportMissing _).on (.start hc) fun _ c₁ h₁ => ⟨h₁, by simp⟩

theorem produces_optionEntry :
    Produces optionEntry Option.toList (fun n? => ∀ n ∈ n?, Node.Kind.options.admits n.kind) := by
  intro c hc
  unfold optionEntry
  simp only [wp_bind, wp_peek, wp_ite, wp_pure]
  split
  · exact (passes_reportMissing _).on (.start hc) fun _ c₁ h₁ => ⟨h₁, by simp⟩
  · refine passes_advance.on (.start hc) fun _ c₁ h₁ => ?_
    refine (passes_expect _).on h₁ fun _ c₂ h₂ => ?_
    split
    · exact ⟨h₂, by simp⟩
    · refine produces_optionValue.on h₂ fun value? c₃ hvalue h₃ => ?_
      split
      · simp only [wp_bind, wp_close, wp_pure]
        refine (passes_expect _).on h₃ fun _ c₄ h₄ =>
          ⟨h₄.closed (.plain rfl rfl ?_ rfl), by simp [admits]⟩
        simpa [admits] using hvalue
      · exact ⟨h₃.forget, by simp⟩

theorem produces_options : Produces options (fun n => [n]) (fun n => n.kind = .options) := by
  intro c hc
  unfold options
  simp only [wp_bind, wp_close]
  refine advance_on (.start hc) fun c₁ h₁ _ => ?_
  refine passes_advance.on h₁ fun _ c₂ h₂ => ?_
  refine gather_on .options h₂ ?turn fun ns c₃ hns h₃ => ?close
  case turn =>
    intro c hc
    simp only [wp_bind, wp_sees, wp_ite, wp_pure, wp_modify]
    split
    · exact ⟨.start hc, by simp⟩
    · refine produces_optionEntry.on (.start hc) fun option? c₁ ho h₁ => ?_
      split
      · exact (passes_accept _).on (reading_skipWhile _ h₁) fun _ c₂ h₂ => ⟨h₂, ho⟩
      · exact ⟨h₁, ho⟩
  case close =>
    exact (passes_expect _).on h₃ fun _ c₄ h₄ => ⟨h₄.closed (.plain rfl rfl hns rfl), trivial⟩

theorem delegate_on {c : Cursor} (hc : c.Regular) (hn : c.peek.isName) :
    wp (delegate c.peek) (fun n c' => Reading c [n] c' ∧ Node.Kind.delegates.admits n.kind) c := by
  obtain ⟨ts, ha⟩ := hc.ahead_of_peek (Token.kind_ne_finish hn)
  have hword {name : String} {alias? : Option String} {c₁ : Cursor}
      (h₁ : Reading (c.after c.peek ts) [] c₁) :
      Reading c [⟨.delegate name alias?, c₁.since c.peek.start, []⟩] c₁ ∧
        Node.Kind.delegates.admits (.delegate name alias?) :=
    ⟨(Reading.start hc).word ha h₁ rfl (by simp [spelling?]), rfl⟩
  unfold delegate
  simp only [wp_bind, wp_ite, wp_peek, wp_close]
  refine wp_advance_of_ahead ha ?_
  refine (passes_accept _).on (.start (hc.after ha)) fun _ c₁ h₁ => ?_
  split
  · split
    · exact passes_advance.on h₁ fun _ c₂ h₂ => hword h₂
    · exact (passes_reportMissing _).on h₁ fun _ c₂ h₂ => hword h₂
  · exact hword h₁

theorem produces_delegates : Produces delegates (fun n => [n]) (fun n => n.kind = .delegates) := by
  intro c hc
  unfold delegates
  simp only [wp_bind, wp_close]
  refine advance_on (.start hc) fun c₁ h₁ _ => ?_
  refine gather_on .delegates h₁ ?turn fun ns c₂ hns h₂ => ?close
  case turn =>
    intro c hc
    simp only [wp_bind, wp_peek, wp_ite, wp_pure]
    split
    · rename_i hn
      refine wp_mono (delegate_on hc hn) fun n c₁ ⟨h₁, hk⟩ => ?_
      exact (passes_accept _).on h₁ fun _ c₂ h₂ => ⟨h₂, by simpa using hk⟩
    · exact (passes_reportMissing _).on (.start hc) fun _ c₁ h₁ => ⟨h₁, by simp⟩
  case close =>
    exact (passes_expect _).on h₂ fun _ c₃ h₃ => ⟨h₃.closed (.plain rfl rfl hns rfl), trivial⟩

theorem produces_nameList {kind : Node.Kind} (hk : kind = .tokenList ∨ kind = .channelList) :
    Produces (nameList kind) (fun n => [n]) (fun n => n.kind = kind) := by
  intro c hc
  unfold nameList
  simp only [wp_bind, wp_close]
  refine advance_on (.start hc) fun c₁ h₁ _ => ?_
  refine passes_advance.on h₁ fun _ c₂ h₂ => ?_
  refine gather_on .tokenList h₂ ?turn fun ns c₃ hns h₃ => ?close
  case turn =>
    intro c hc
    simp only [wp_bind, wp_seesName, wp_ite, wp_pure, hc.isNameAt_zero]
    split
    · rename_i hn
      refine identifier_on (.start hc) hn fun c₁ h₁ _ => ?_
      refine (passes_accept _).on h₁ fun _ c₂ h₂ => ⟨h₂, ?_⟩
      simpa [identifier, Node.leaf, admits, isName] using hc.plain_peek hn
    · exact ⟨.start hc, by simp⟩
  case close =>
    refine (passes_expect _).on h₃ fun _ c₄ h₄ => ⟨h₄.closed ?_, trivial⟩
    rcases hk with rfl | rfl
    · exact .plain rfl rfl hns rfl
    · exact .plain rfl rfl hns rfl

theorem passes_actionName : Passes actionName := by
  intro c hc
  unfold actionName
  simp only [wp_bind, wp_seesName, wp_ite, wp_pure]
  split
  · exact passes_advance.on (.start hc) fun _ c₁ h₁ => h₁
  · exact (passes_reportMissing _).on (.start hc) fun _ c₁ h₁ => h₁

theorem produces_namedAction :
    Produces namedAction (fun n => [n]) (fun n => ∃ name, n.kind = .namedAction name) := by
  intro c hc
  unfold namedAction
  simp -zeta only [wp_bind]
  refine advance_on (.start hc) fun c₁ h₁ _ => ?_
  extract_lets start close
  have hclose (u : Unit) (name : String) (c₁ : Cursor) (h₁ : Reading c [] c₁) :
      wp (close u name) (fun n c' => Reading c [n] c' ∧ ∃ name, n.kind = .namedAction name) c₁ := by
    simp only [close, wp_bind, wp_close]
    exact (passes_expect _).on h₁ fun _ c₂ h₂ => ⟨h₂.closed (.plain rfl rfl (by simp) rfl), name, rfl⟩
  simp only [wp_bind, wp_ite]
  refine passes_actionName.on h₁ fun name? c₂ h₂ => ?_
  refine (passes_accept _).on h₂ fun _ c₃ h₃ => ?_
  split
  · refine passes_actionName.on h₃ fun part? c₄ h₄ => ?_
    split
    · exact hclose () _ c₄ h₄
    · exact hclose () _ c₄ h₄
  · exact hclose () _ c₃ h₃

theorem produces_prequel : Produces prequel Option.toList (fun n? => ∀ n ∈ n?, n.kind.isPrequel) := by
  intro c hc
  unfold prequel
  simp only [wp_bind, wp_sees, wp_seesKind, wp_ite, wp_pure]
  split
  · exact produces_options.on (.start hc) fun n c₁ hn h₁ => ⟨h₁, by simp [hn, isPrequel]⟩
  split
  · refine (produces_nameList (.inl rfl)).on (.start hc) fun n c₁ hn h₁ => ⟨h₁, ?_⟩
    simp [hn, isPrequel]
  split
  · refine (produces_nameList (.inr rfl)).on (.start hc) fun n c₁ hn h₁ => ⟨h₁, ?_⟩
    simp [hn, isPrequel]
  split
  · exact produces_delegates.on (.start hc) fun n c₁ hn h₁ => ⟨h₁, by simp [hn, isPrequel]⟩
  split
  · refine produces_namedAction.on (.start hc) fun n c₁ ⟨name, hn⟩ h₁ => ⟨h₁, ?_⟩
    simp [hn, isPrequel]
  · exact ⟨.start hc, by simp⟩

/-! ## Bodies of rules -/

theorem command_on {c : Cursor} (hc : c.Regular) :
    wp (command c.peek) (fun n c' => Reading c [n] c' ∧ Node.Kind.commands.admits n.kind) c := by
  unfold command
  simp -zeta only [wp_bind]
  refine passes_advance.on (.start hc) fun _ c₁ h₁ => ?_
  extract_lets arguments close argued
  have hclose (u : Unit) (ns : List Node) (c₁ : Cursor) (h₁ : Reading c ns c₁)
      (hns : ∀ n ∈ ns, n.kind.isArgument) (hone : ns.length ≤ 1) :
      wp (close u ns) (fun n c' => Reading c [n] c' ∧ Node.Kind.commands.admits n.kind) c₁ := by
    simp only [close, wp_close]
    exact ⟨h₁.closed (.plain rfl rfl hns (by simpa [allows] using hone)), rfl⟩
  have hargued (u : Unit) (ns : List Node) (c₁ : Cursor) (h₁ : Reading c ns c₁)
      (hns : ∀ n ∈ ns, n.kind.isArgument) (hone : ns.length ≤ 1) :
      wp (argued u ns) (fun n c' => Reading c [n] c' ∧ Node.Kind.commands.admits n.kind) c₁ := by
    simp only [argued, wp_bind]
    exact (passes_expect _).on h₁ fun _ c₂ h₂ => hclose () ns c₂ h₂ hns hone
  simp only [wp_bind, wp_ite, wp_peek]
  refine (passes_accept _).on h₁ fun _ c₂ h₂ => ?_
  split
  · split
    · rename_i hn
      refine identifier_on h₂ hn fun c₃ h₃ _ => hargued () _ c₃ h₃ ?_ (Nat.le_refl 1)
      simpa [identifier, Node.leaf, isArgument] using h₂.regular.plain_peek hn
    · split
      · rename_i hi
        refine literal_on h₂ (by simp [hi]) fun c₃ h₃ => hargued () _ c₃ h₃ ?_ (Nat.le_refl 1)
        simp [literal, Node.leaf, isArgument]
      · exact (passes_reportMissing _).on h₂ fun u c₃ h₃ => hargued u [] c₃ h₃ (by simp) (by simp)
  · exact hclose () [] c₂ h₂ (by simp) (by simp)

theorem produces_commands : Produces commands (fun n => [n]) (fun n => n.kind = .commands) := by
  intro c hc
  unfold ParseM.commands
  simp only [wp_bind, wp_close]
  refine advance_on (.start hc) fun c₁ h₁ _ => ?_
  refine gather_on .commands h₁ ?turn fun ns c₂ hns h₂ => ?close
  case turn =>
    intro c hc
    simp only [wp_bind, wp_peek, wp_ite, wp_pure]
    split
    · refine wp_mono (command_on hc) fun n c₁ ⟨h₁, hk⟩ => ?_
      exact (passes_accept _).on h₁ fun _ c₂ h₂ => ⟨h₂, by simpa using hk⟩
    · exact (passes_reportMissing _).on (.start hc) fun _ c₁ h₁ => ⟨h₁, by simp⟩
  case close => exact ⟨h₂.closed (.plain rfl rfl hns rfl), trivial⟩

/-- An element that was read since `c` is repeated as a whole. -/
theorem repeated_on {c c₁ : Cursor} {e : Node} (h : Reading c [e] c₁) (he : e.kind.isElement) :
    wp (repeated c.peek.start e) (fun n c' => Reading c [n] c' ∧ n.kind.isElement) c₁ := by
  unfold ParseM.repeated
  simp only [wp_bind, wp_peek]
  split
  · exact ⟨h, he⟩
  · simp only [wp_bind, wp_close]
    refine passes_advance.on h fun _ c₂ h₂ => ?_
    refine (passes_accept _).on h₂ fun _ c₃ h₃ => ⟨h₃.closed (.plain rfl rfl ?_ rfl), rfl⟩
    simpa [admits] using he

/-- Both productions yield elements. -/
structure Nested.Sound (nested : Nested) : Prop where
  block : Produces nested.block (fun n => [n]) (fun n => n.kind.isElement)
  atom : Produces nested.atom (fun n => [n]) (fun n => n.kind.isElement)

/-- The empty node that stands for what is missing at the token ahead. -/
theorem missing_on {c c₁ : Cursor} {ns : List Node} (expected : String) (h : Reading c ns c₁) :
    wp (do reportMissing expected; close .error (← peek).start [])
      (fun n c' => Reading c (ns ++ [n]) c' ∧ n.kind.isElement) c₁ := by
  simp only [wp_bind, wp_peek, wp_close]
  refine (passes_reportMissing _).on h fun _ c₂ h₂ => ⟨?_, rfl⟩
  exact h₂.node (.start h₂.regular) (.plain rfl rfl (by simp) rfl)

variable {nested : Nested}

theorem Nested.Sound.labelTarget (hn : nested.Sound) :
    Produces (labelTarget nested) (fun n => [n]) (fun n => n.kind.isElement) := by
  intro c hc
  unfold ParseM.labelTarget
  simp only [wp_bind, wp_seesKind, wp_sees, wp_ite]
  split
  · exact hn.block c hc
  split
  · exact hn.atom c hc
  · exact missing_on _ (.start hc)

theorem Nested.Sound.element (hn : nested.Sound) :
    Produces (element nested) (fun n => [n]) (fun n => n.kind.isElement) := by
  intro c hc
  unfold ParseM.element
  simp only [wp_bind, wp_peek, wp_sees, wp_seesKind, wp_ite, wp_close]
  split
  · refine passes_advance.on (.start hc) fun _ c₁ h₁ => ?_
    refine passes_advance.on h₁ fun _ c₂ h₂ => ?_
    refine hn.labelTarget.on h₂ fun target c₃ ht h₃ => ?_
    refine repeated_on (h₃.closed (.plain rfl rfl ?_ rfl)) rfl
    simpa [admits] using ht
  split
  · exact hn.block.on (.start hc) fun e c₁ he h₁ => repeated_on h₁ he
  refine (passes_accept _).on (.start hc) fun _ c₁ h₁ => ?_
  split
  · refine (passes_accept _).on h₁ fun _ c₂ h₂ => ?_
    split
    · refine (passes_accept _).on h₂ fun _ c₃ h₃ => ?_
      exact ⟨h₃.closed (.plain rfl rfl (by simp) rfl), rfl⟩
    · exact ⟨h₂.closed (.plain rfl rfl (by simp) rfl), rfl⟩
  · exact hn.atom.on h₁ fun e c₂ he h₂ => repeated_on h₂ he

theorem produces_skipGarbage :
    Produces skipGarbage (fun n => [n]) (fun n => n.kind.isElement) := by
  intro c hc
  unfold skipGarbage
  simp only [wp_bind, wp_peek, wp_modify, wp_close]
  refine (passes_reportMissing _).on (.start hc) fun _ c₁ h₁ => ?_
  refine passes_advance.on h₁ fun _ c₂ h₂ => ?_
  exact ⟨(reading_skipWhile _ h₂).closed (.plain rfl rfl (by simp) rfl), rfl⟩

theorem admits_alternative_of_isElement {kind : Node.Kind} {label? : Option String}
    (h : kind.isElement) : (Node.Kind.alternative label?).admits kind := by
  simp [admits, h]

theorem Nested.Sound.alternative (hn : nested.Sound) :
    Produces (alternative nested) (fun n => [n]) (fun n => n.kind.isAlternative) := by
  intro c hc
  unfold ParseM.alternative
  simp -zeta only [wp_bind, wp_peek]
  extract_lets start children label? elements
  have helements (u : Unit) (ns : List Node) (c₁ : Cursor) (h₁ : Reading c ns c₁)
      (hns : ∀ n ∈ ns, (Node.Kind.alternative none).admits n.kind) :
      wp (elements u ns) (fun n c' => Reading c [n] c' ∧ n.kind.isAlternative) c₁ := by
    simp -zeta only [elements, wp_bind]
    refine gatherWhile_on (.alternative none) h₁ ?element fun ms c₂ hms h₂ => ?label
    case element =>
      intro c hc
      simp only [wp_bind, wp_sees, wp_ite]
      split
      · exact hn.element.mono (fun _ => admits_alternative_of_isElement) c hc
      · exact produces_skipGarbage.mono (fun _ => admits_alternative_of_isElement) c hc
    case label =>
      have hall := List.forall_mem_append.2 ⟨hns, hms⟩
      extract_lets all commanded
      -- The nodes read so far may stand in an alternative of any label.
      have hcommanded (u : Unit) (label? : Option String) (c₃ : Cursor) (h₃ : Reading c all c₃) :
          wp (commanded u label?) (fun n c' => Reading c [n] c' ∧ n.kind.isAlternative) c₃ := by
        simp only [commanded, wp_bind, wp_seesKind, wp_ite, wp_close]
        split
        · refine produces_commands.on h₃ fun node c₄ hk h₄ => ⟨h₄.closed (.plain rfl rfl ?_ rfl), rfl⟩
          exact List.forall_mem_append.2 ⟨hall, by simp [hk, admits]⟩
        · exact ⟨h₃.closed (.plain rfl rfl hall rfl), rfl⟩
      simp only [wp_bind, wp_ite, wp_seesName]
      refine (passes_accept _).on h₂ fun _ c₃ h₃ => ?_
      split
      · split
        · exact passes_advance.on h₃ fun t c₄ h₄ => hcommanded () (some t.text) c₄ h₄
        · exact (passes_reportMissing _).on h₃ fun u c₄ h₄ => hcommanded u none c₄ h₄
      · exact hcommanded () none c₃ h₃
  simp only [wp_bind]
  refine wp_accept hc (helements () [] c (.start hc) (by simp)) fun _ => ?_
  refine advance_on (.start hc) fun c₁ h₁ _ => ?_
  simp only [wp_bind, wp_close]
  exact helements () _ c₁ (h₁.closed (.plain rfl rfl (by simp) rfl)) (by simp [admits])

theorem Nested.Sound.alternativeList (hn : nested.Sound) :
    Produces (alternativeList nested) id (fun ns => ns ≠ [] ∧ ∀ n ∈ ns, n.kind.isAlternative) := by
  refine produces_gather_ne_nil fun c hc => ?_
  simp only [wp_bind, wp_pure]
  refine hn.alternative.on (.start hc) fun n c₁ hk h₁ => ?_
  exact (passes_accept _).on h₁ fun _ c₂ h₂ => ⟨h₂, by simpa using hk⟩

theorem Nested.Sound.produces_block (hn : nested.Sound) :
    Produces (ParseM.block nested) (fun n => [n]) (fun n => n.kind.isElement) := by
  intro c hc
  unfold ParseM.block
  simp -zeta only [wp_bind]
  refine advance_on (.start hc) fun c₁ h₁ _ => ?_
  extract_lets start body
  have hbody (u : Unit) (c₁ : Cursor) (h₁ : Reading c [] c₁) :
      wp (body u) (fun n c' => Reading c [n] c' ∧ n.kind.isElement) c₁ := by
    simp only [body, wp_bind, wp_close]
    refine hn.alternativeList.on h₁ fun ns c₂ ⟨hne, hns⟩ h₂ => ?_
    refine (passes_expect _).on h₂ fun _ c₃ h₃ => ⟨h₃.closed (.plain rfl rfl hns ?_), rfl⟩
    simpa [allows] using List.length_pos_iff.2 hne
  simp only [wp_bind, wp_sees, wp_ite]
  split
  · refine produces_options.passes.on h₁ fun _ c₂ h₂ => ?_
    exact (passes_expect _).on h₂ fun _ c₃ h₃ => hbody () c₃ h₃
  · exact hbody () c₁ h₁

theorem produces_deepBlock :
    Produces deepBlock (fun n => [n]) (fun n => n.kind.isElement) := by
  intro c hc
  unfold deepBlock
  simp only [wp_bind, wp_modify, wp_close]
  refine advance_on (.start hc) fun c₁ h₁ ht => ?_
  refine reportAt_on _ h₁ ht fun c₂ h₂ => ?_
  exact ⟨(reading_skipParens h₂).closed (.plain rfl rfl (by simp) rfl), rfl⟩

/-- What is negated by the sign at `c`, which has been read. -/
theorem negand_on {nested? : Option Nested} {c c₁ : Cursor} (hn : ∀ nested ∈ nested?, nested.Sound)
    (h : Reading c [] c₁) (ht : c.peek = c₁.peek ∨ c₁.last? = some c.peek) :
    wp (negand c.peek nested?) (fun n c' => Reading c [n] c' ∧ n.kind.isElement) c₁ := by
  unfold negand
  split
  · simp only [wp_bind, wp_modify, wp_close]
    refine reportAt_on _ h ht fun c₂ h₂ => ?_
    exact ⟨(reading_skipWhile _ h₂).closed (.plain rfl rfl (by simp) rfl), rfl⟩
  · rename_i nested
    simp only [wp_bind, wp_seesKind, wp_sees, wp_ite]
    split
    · exact (hn nested rfl).block.on h fun n c₂ hk h₂ => ⟨h₂, hk⟩
    split
    · exact (hn nested rfl).atom.on h fun n c₂ hk h₂ => ⟨h₂, hk⟩
    · exact missing_on _ h

theorem produces_atom {nested? : Option Nested} (hn : ∀ nested ∈ nested?, nested.Sound) :
    Produces (ParseM.atom nested?) (fun n => [n]) (fun n => n.kind.isElement) := by
  intro c hc
  unfold ParseM.atom
  simp only [wp_bind, wp_peek]
  split
  · rename_i hk
    have hn : c.peek.isName := by simp [Token.isName, hk, Token.Kind.isName]
    simp only [wp_bind, wp_pure]
    refine identifier_on (.start hc) hn fun c₁ h₁ _ => ?_
    exact (passes_accept _).on h₁ fun _ c₂ h₂ => ⟨h₂, hc.plain_peek hn⟩
  · rename_i hk
    have hn : c.peek.isName := by simp [Token.isName, hk, Token.Kind.isName]
    simp only [wp_bind, wp_pure]
    refine identifier_on (.start hc) hn fun c₁ h₁ _ => ?_
    refine (passes_accept _).on h₁ fun _ c₂ h₂ => ?_
    exact (passes_accept _).on h₂ fun _ c₃ h₃ => ⟨h₃, hc.plain_peek hn⟩
  · rename_i hk
    simp only [wp_bind, wp_ite, wp_pure]
    refine literal_on (.start hc) (by simp [hk]) fun c₁ h₁ => ?_
    refine (passes_accept _).on h₁ fun _ c₂ h₂ => ?_
    split
    · refine wp_accept h₂.regular ?_ fun hl => ?_
      · simp only [wp_bind, wp_close]
        refine (passes_reportMissing _).on h₂ fun _ c₃ h₃ => ⟨h₃.closed (.plain rfl rfl ?_ rfl), rfl⟩
        simp [literal, Node.leaf, admits]
      · refine literal_on h₂ (by simp [hl]) fun c₃ h₃ => ⟨h₃.closed (.plain rfl rfl ?_ rfl), rfl⟩
        simp [literal, Node.leaf, admits]
    · exact (passes_accept _).on h₂ fun _ c₃ h₃ => ⟨h₃, rfl⟩
  · rename_i hk
    simp only [wp_bind, wp_pure]
    exact word_on _ rfl (by simp [spelling?]) (.start hc) (by simp [hk]) fun c₁ h₁ _ => ⟨h₁, rfl⟩
  · simp only [wp_bind, wp_close]
    refine passes_advance.on (.start hc) fun _ c₁ h₁ => ?_
    refine (passes_accept _).on h₁ fun _ c₂ h₂ => ?_
    exact ⟨h₂.closed (.plain rfl rfl (by simp) rfl), rfl⟩
  · simp only [wp_bind, wp_close]
    refine advance_on (.start hc) fun c₁ h₁ ht => ?_
    refine wp_mono (negand_on hn h₁ ht) fun n c₂ h => ?_
    obtain ⟨h₂, hk⟩ := h
    exact ⟨h₂.closed (.plain rfl rfl (by simpa [admits] using hk) rfl), rfl⟩
  · simp only [wp_bind, wp_close]
    refine (passes_reportMissing _).on (.start hc) fun _ c₁ h₁ => ?_
    exact ⟨h₁.closed (.plain rfl rfl (by simp) rfl), rfl⟩

theorem Nested.sound_within (room : Nat) : (Nested.within room).Sound := by
  induction room with
  | zero => exact ⟨produces_deepBlock, produces_atom (by simp)⟩
  | succ room ih =>
    have hinner : Nested.Sound ⟨ParseM.block (within room), (within room).atom⟩ :=
      ⟨ih.produces_block, ih.atom⟩
    refine ⟨ih.produces_block, produces_atom ?_⟩
    simpa using hinner

theorem produces_alternatives :
    Produces alternatives (fun n => [n]) (fun n => n.kind = .alternatives) := by
  intro c hc
  unfold ParseM.alternatives
  simp only [wp_bind, wp_peek, wp_close]
  refine (Nested.sound_within _).alternativeList.on (.start hc) fun ns c₁ ⟨hne, hns⟩ h₁ => ?_
  refine ⟨h₁.closed (.plain rfl rfl hns ?_), trivial⟩
  simpa [allows] using List.length_pos_iff.2 hne

/-! ## Rules, modes and the whole grammar -/

theorem produces_clause (w : String) :
    Produces (clause w) id (fun ns => ∀ n ∈ ns, n.kind.isClause) := by
  intro c hc
  unfold clause
  simp only [wp_bind, wp_sees, wp_ite, wp_pure, wp_close]
  split
  · refine passes_advance.on (.start hc) fun _ c₁ h₁ => ?_
    refine advance_on (.start h₁.regular) fun c₂ h₂ _ => ?_
    exact ⟨h₁.trans (h₂.closed (.plain rfl rfl (by simp) rfl)), by simp [isClause]⟩
  · exact ⟨.start hc, by simp⟩

theorem passes_throwsClause : Passes throwsClause := by
  intro c hc
  unfold throwsClause
  simp only [wp_bind, wp_sees, wp_ite, wp_pure]
  split
  · refine passes_advance.on (.start hc) fun _ c₁ h₁ => ?_
    refine gather_on .error h₁ ?turn fun ns c₂ _ h₂ => h₂.forget
    intro c hc
    simp only [wp_bind, wp_sees, wp_ite, wp_pure]
    split
    · refine passes_advance.on (.start hc) fun _ c₁ h₁ => ?_
      exact (passes_accept _).on h₁ fun _ c₂ h₂ => ⟨h₂, by simp⟩
    · exact ⟨.start hc, by simp⟩
  · exact .start hc

theorem produces_rulePrequel :
    Produces rulePrequel id (fun ns => ∀ n ∈ ns, n.kind.isClause) := by
  intro c hc
  unfold rulePrequel
  extract_lets children rest
  have hrest (u : Unit) (ns : List Node) (c₁ : Cursor) (h₁ : Reading c ns c₁)
      (hns : ∀ n ∈ ns, n.kind.isClause) :
      wp (rest u ns) (fun ns c' => Reading c ns c' ∧ ∀ n ∈ ns, n.kind.isClause) c₁ := by
    simp only [rest, wp_bind, wp_pure]
    refine (produces_clause _).on h₁ fun returns c₂ hreturns h₂ => ?_
    refine passes_throwsClause.on h₂ fun _ c₃ h₃ => ?_
    refine (produces_clause _).on h₃ fun locals c₄ hlocals h₄ => ?_
    refine gather_on .parserRule h₄ ?turn fun declarations c₅ hdeclarations h₅ => ⟨h₅, ?_⟩
    case turn =>
      intro c hc
      simp only [wp_bind, wp_sees, wp_seesKind, wp_ite, wp_pure]
      split
      · exact produces_options.on (.start hc) fun n c₁ hn h₁ => ⟨h₁, by simp [hn, admits, isClause]⟩
      split
      · refine produces_namedAction.on (.start hc) fun n c₁ ⟨name, hn⟩ h₁ => ⟨h₁, ?_⟩
        simp [hn, admits, isClause]
      · exact ⟨.start hc, by simp⟩
    have hhead := List.forall_mem_append.2 ⟨List.forall_mem_append.2 ⟨hns, hreturns⟩, hlocals⟩
    exact List.forall_mem_append.2 ⟨hhead, hdeclarations⟩
  simp only [wp_bind]
  refine wp_accept hc (hrest () [] c (.start hc) (by simp)) fun _ => ?_
  refine advance_on (.start hc) fun c₁ h₁ _ => ?_
  simp only [wp_bind, wp_close]
  exact hrest () _ c₁ (h₁.closed (.plain rfl rfl (by simp) rfl)) (by simp [isClause])

theorem produces_handler : Produces handler (fun n => [n]) (fun n => n.kind = .handler) := by
  intro c hc
  unfold ParseM.handler
  simp only [wp_bind, wp_ite, wp_close]
  refine advance_on (.start hc) fun c₁ h₁ _ => ?_
  split
  · refine (passes_expect _).on h₁ fun _ c₂ h₂ => ?_
    refine (passes_expect _).on h₂ fun _ c₃ h₃ => ?_
    exact ⟨h₃.closed (.plain rfl rfl (by simp) rfl), trivial⟩
  · refine (passes_expect _).on h₁ fun _ c₂ h₂ => ?_
    exact ⟨h₂.closed (.plain rfl rfl (by simp) rfl), trivial⟩

section
variable {c c₁ : Cursor} (flavour : Flavour)

/-- A rule is its name and the clauses behind it. -/
theorem closed_rule {t : Token} {ns : List Node} {kind : Node.Kind}
    (h : Reading c (identifier t :: ns) c₁) (hk : kind = .parserRule ∨ ∃ f, kind = .tokenRule f)
    (hplain : isPlain t.text) (hcalls : kind.calls t.text) (hns : ∀ n ∈ ns, n.kind.isClause) :
    Reading c [⟨kind, c₁.since c.peek.start, identifier t :: ns⟩] c₁ ∧ kind.isRule := by
  rcases hk with rfl | ⟨f, rfl⟩
  · exact ⟨h.closed (.named rfl hplain hcalls hns), rfl⟩
  · exact ⟨h.closed (.named rfl hplain hcalls hns), rfl⟩

theorem tokenRule_on (h : Reading c [] c₁) (hk : c₁.peek.kind = .upperName) (fragment : Bool) :
    wp (tokenRule flavour c.peek.start fragment c₁.peek)
      (fun n c' => Reading c [n] c' ∧ n.kind.isRule) c₁ := by
  have hn : c₁.peek.isName := Token.isName_iff.2 (.inl hk)
  have hplain := h.regular.plain_peek hn
  have hcalls : (Node.Kind.tokenRule fragment).calls c₁.peek.text :=
    (h.regular.capitalized_peek hn).1 hk
  unfold ParseM.tokenRule
  extract_lets children close body options
  have hbody (u : Unit) (ns : List Node) (c₂ : Cursor) (h₂ : Reading c (identifier c₁.peek :: ns) c₂)
      (hns : ∀ n ∈ ns, n.kind.isClause) :
      wp (body u (identifier c₁.peek :: ns)) (fun n c' => Reading c [n] c' ∧ n.kind.isRule) c₂ := by
    simp only [body, wp_bind, wp_ite, wp_modify]
    refine (passes_expect _).on h₂ fun _ c₃ h₃ => ?_
    split
    · exact closed_rule (reading_skipRule h₃) (.inr ⟨_, rfl⟩) hplain hcalls hns
    · refine produces_alternatives.on h₃ fun n c₄ hk h₄ => ?_
      refine passes_finishRule.on h₄ fun _ c₅ h₅ => closed_rule h₅ (.inr ⟨_, rfl⟩) hplain hcalls ?_
      exact List.forall_mem_append.2 ⟨hns, by simp [hk, isClause]⟩
  have hoptions (u : Unit) (c₂ : Cursor) (h₂ : Reading c [identifier c₁.peek] c₂) :
      wp (options u) (fun n c' => Reading c [n] c' ∧ n.kind.isRule) c₂ := by
    simp only [options, wp_bind, wp_sees, wp_ite]
    split
    · refine produces_options.on h₂ fun n c₃ hk h₃ => hbody () [n] c₃ h₃ ?_
      simp [hk, isClause]
    · exact hbody () [] c₂ h₂ (by simp)
  simp only [wp_bind, wp_ite]
  refine identifier_on h hn fun c₂ h₂ hl => ?_
  split
  · exact reportAt_on _ h₂ (.inr hl) fun c₃ h₃ => hoptions () c₃ h₃
  · exact hoptions () c₂ h₂

theorem parserRule_on (h : Reading c [] c₁) (hk : c₁.peek.kind = .lowerName) :
    wp (parserRule flavour c.peek.start c₁.peek)
      (fun n c' => Reading c [n] c' ∧ n.kind.isRule) c₁ := by
  have hn : c₁.peek.isName := Token.isName_iff.2 (.inr hk)
  have hplain := h.regular.plain_peek hn
  have hcalls : Node.Kind.parserRule.calls c₁.peek.text := by
    rw [calls, Bool.not_eq_true', Bool.eq_false_iff, Ne, ← h.regular.capitalized_peek hn, hk]
    decide
  unfold ParseM.parserRule
  extract_lets close prequel
  have hprequel (u : Unit) (c₂ : Cursor) (h₂ : Reading c [identifier c₁.peek] c₂) :
      wp (prequel u) (fun n c' => Reading c [n] c' ∧ n.kind.isRule) c₂ := by
    simp only [prequel, wp_bind, wp_ite, wp_modify]
    refine produces_rulePrequel.on h₂ fun ns c₃ hns h₃ => ?_
    refine (passes_expect _).on h₃ fun _ c₄ h₄ => ?_
    split
    · exact closed_rule (reading_skipRule h₄) (.inl rfl) hplain hcalls hns
    · refine produces_alternatives.on h₄ fun n c₅ hk h₅ => ?_
      refine passes_finishRule.on h₅ fun _ c₆ h₆ => ?_
      refine gatherWhile_on .parserRule h₆ ?_ fun handlers c₇ hhandlers h₇ => ?_
      · exact produces_handler.mono fun n hk => by simp [hk, admits, isClause]
      · have hbody := List.forall_mem_append.2 ⟨hns, show ∀ m ∈ [n], _ by simp [hk, isClause]⟩
        exact closed_rule h₇ (.inl rfl) hplain hcalls (List.forall_mem_append.2 ⟨hbody, hhandlers⟩)
  simp only [wp_bind, wp_ite]
  refine identifier_on h hn fun c₂ h₂ hl => ?_
  split
  · exact reportAt_on _ h₂ (.inr hl) fun c₃ h₃ => hprequel () c₃ h₃
  · exact hprequel () c₂ h₂

theorem passes_ruleModifiers (turns : Nat) : Passes (ruleModifiers turns) := by
  induction turns with
  | zero => exact fun c hc => .start hc
  | succ turns ih =>
    intro c hc
    unfold ruleModifiers
    simp only [wp_bind, wp_sees, wp_ite, wp_pure]
    split
    · refine passes_advance.on (.start hc) fun _ c₁ h₁ => ?_
      exact ih.on h₁ fun _ c₂ h₂ => h₂
    · exact .start hc

theorem produces_rule : Produces (rule flavour) (fun n => [n]) (fun n => n.kind.isRule) := by
  intro c hc
  unfold rule
  simp only [wp_bind, wp_peek, wp_get]
  refine (passes_ruleModifiers _).on (.start hc) fun fragment c₁ h₁ => ?_
  split
  · rename_i hk
    exact tokenRule_on flavour h₁ hk fragment
  · rename_i hk
    exact parserRule_on flavour h₁ hk
  · simp only [wp_bind, wp_modify, wp_close]
    refine (passes_reportMissing _).on h₁ fun _ c₂ h₂ => ?_
    exact ⟨(reading_skipRule h₂).closed (.plain rfl rfl (by simp) rfl), rfl⟩

theorem exists_name_of_startsMode {ahead : List Token} (h : startsMode ahead) :
    ∃ t u ts, ahead = t :: u :: ts ∧ u.isName := by
  match ahead with
  | [] => simp [startsMode, isWordAt] at h
  | [t] => simp [startsMode, isNameAt, kindAt, Token.Kind.isName] at h
  | t :: u :: ts =>
    rw [startsMode, Bool.and_eq_true] at h
    exact ⟨t, u, ts, rfl, h.2⟩

theorem modeSection_on (hc : c.Regular) (hm : startsMode c.ahead) :
    wp (modeSection flavour) (fun n c' => Reading c [n] c' ∧ n.kind = .modeSection) c := by
  obtain ⟨t, name, ts, ha, hn⟩ := exists_name_of_startsMode hm
  have hstart : t.start = c.peek.start := by rw [Cursor.peek_of_ahead ha]
  have hplain : isPlain name.text := (hc.after ha).plain_peek hn
  unfold ParseM.modeSection
  simp -zeta only [wp_bind]
  refine wp_advance_of_ahead ha ?_
  extract_lets start
  simp -zeta only [wp_bind]
  refine identifier_on ((Reading.start hc).token ha) hn fun c₁ h₁ hl => ?_
  extract_lets rules
  have hrules (u : Unit) (c₁ : Cursor) (h₁ : Reading c [identifier name] c₁) :
      wp (rules u) (fun n c' => Reading c [n] c' ∧ n.kind = .modeSection) c₁ := by
    simp only [rules, start, wp_bind, wp_close, hstart]
    refine (passes_expect _).on h₁ fun _ c₂ h₂ => ?_
    refine gatherWhile_on .modeSection h₂ (produces_rule flavour) fun ns c₃ hns h₃ => ?_
    exact ⟨h₃.closed (.named rfl hplain rfl hns), trivial⟩
  simp only [wp_bind, wp_ite]
  split
  · exact reportAt_on _ h₁ (.inr hl) fun c₂ h₂ => hrules () c₂ h₂
  · exact hrules () c₁ h₁

theorem produces_grammarPart :
    Produces (grammarPart flavour) (fun n => [n]) (fun n => n.kind.isPart) := by
  intro c hc
  unfold grammarPart
  simp only [wp_bind]
  refine produces_prequel.on (.start hc) fun n? c₁ hn h₁ => ?_
  cases n? with
  | some n =>
    simp only [wp_pure]
    exact ⟨h₁, by simp [isPart, hn n rfl]⟩
  | none =>
    simp only [wp_bind, wp_sees, wp_ite]
    split
    · rename_i hm
      refine wp_mono (modeSection_on flavour h₁.regular hm) fun n c₂ ⟨h₂, hk⟩ => ?_
      exact ⟨h₁.trans h₂, by simp [isPart, hk]⟩
    · refine (produces_rule flavour).on h₁ fun n c₂ hk h₂ => ⟨h₂, by simp [isPart, hk]⟩

end

theorem not_isHeader_of_isPart {n : Node} (h : n.kind.isPart) : n.isHeader = false := by
  obtain ⟨kind, l, children⟩ := n
  cases kind with
  | header => cases h
  | _ => rfl

theorem produces_grammarHeader :
    Produces grammarHeader Prod.fst (fun r => r.1.length ≤ 1 ∧ ∀ n ∈ r.1, n.isHeader) := by
  intro c hc
  unfold grammarHeader
  simp only [wp_bind, wp_get]
  split
  · simp only [wp_bind, wp_pure]
    refine (produces_header _).on (.start hc) fun n c₁ hk h₁ => ⟨h₁, ?_⟩
    simp [Node.isHeader, hk]
  · simp only [wp_bind, wp_peek, wp_pure]
    exact reportAt_on _ (.start hc) (.inl rfl) fun c₁ h₁ => ⟨h₁, by simp⟩

theorem grammar_on {c : Cursor} (hc : c.Regular) :
    wp ParseM.grammar (fun root c' => Reading c root.children c' ∧
      (∀ n ∈ root.children, n.isHeader ∨ n.kind.isPart) ∧
      ∀ n ∈ root.children.tail, n.kind.isPart) c := by
  unfold ParseM.grammar
  simp only [wp_bind]
  refine produces_grammarHeader.on (.start hc) fun (first, flavour) c₁ ⟨hone, hfirst⟩ h₁ => ?_
  simp only [wp_get, wp_pure]
  refine (produces_gatherWhile (produces_grammarPart flavour)).on h₁ fun parts c₂ hparts h₂ => ?_
  refine ⟨h₂, List.forall_mem_append.2 ⟨fun n hn => .inl (hfirst n hn), ?_⟩, ?_⟩
  · exact fun n hn => .inr (hparts n hn)
  · match first, hone with
    | [], _ => exact fun n hn => hparts n (List.mem_of_mem_tail hn)
    | [header], _ => exact hparts

end ParseM

/-- Every tree was read off the tokens of its text, a header first, if there is one, and then parts. -/
theorem Grammar.parse_reading (text : String) :
    ∃ c', Reading (.ofStream (TokenStream.ofChars text.toList).1) (parse text).tree.children c' ∧
      (∀ n ∈ (parse text).tree.children, n.isHeader ∨ n.kind.isPart) ∧
      ∀ n ∈ (parse text).tree.children.tail, n.kind.isPart := by
  rw [parse_eq]
  exact ⟨_, ParseM.grammar_on (Cursor.regular_ofStream text.toList)⟩

end GrammarAtlas
