import GrammarAtlas.Proofs.Passage
import GrammarAtlas.Proofs.Productions

/-! # Every production is a passage

One lemma for each production, in the order of the grammar: what its nodes consist of where nothing
is wrong, and where semicolons stand in what it reads. -/

namespace GrammarAtlas

open scoped Computability

namespace ParseM
open Lookahead Node.Kind Stretch

variable {c c₁ : Cursor}

theorem exists_of_isWordAt {ahead : List Token} {w : String} (h : isWordAt ahead 0 w) :
    ∃ t ts, ahead = t :: ts ∧ t.isWord w := by
  cases ahead with
  | nil => cases h
  | cons t ts => exact ⟨t, ts, rfl, h⟩

theorem exists_of_kindAt_one {ahead : List Token} {kind : Token.Kind} (h : kindAt ahead 1 = kind)
    (hne : kind ≠ .finish) : ∃ t u ts, ahead = t :: u :: ts ∧ u.kind = kind := by
  match ahead with
  | [] => exact absurd h.symm hne
  | [t] => exact absurd h.symm hne
  | t :: u :: ts => exact ⟨t, u, ts, rfl, h⟩

/-- A word with a sign behind it is ahead. -/
theorem exists_of_isWordAt_kindAt {ahead : List Token} {w : String} {kind : Token.Kind}
    (h : isWordAt ahead 0 w && kindAt ahead 1 == kind) (hne : kind ≠ .finish) :
    ∃ t u ts, ahead = t :: u :: ts ∧ t.isWord w ∧ u.kind = kind := by
  rw [Bool.and_eq_true, beq_iff_eq] at h
  obtain ⟨t, u, ts, rfl, hu⟩ := exists_of_kindAt_one h.2 hne
  exact ⟨t, u, ts, rfl, h.1, hu⟩

theorem takes_body_name (kind : Token.Kind) (h : kind.isName) : body.Takes kind body :=
  takes_body (by rintro rfl; cases h)

theorem takes_entry_name (kind : Token.Kind) (h : kind.isName) : entry.Takes kind entry :=
  takes_entry (by rintro rfl; cases h)

/-- The words of a header are ahead. -/
theorem words_of_headerFlavour? {ahead : List Token} {flavour : Flavour}
    (h : headerFlavour? ahead = some flavour) :
    (flavour = .combined ∧ ∃ t ts, ahead = t :: ts ∧ t.isWord "grammar") ∨
      (flavour ≠ .combined ∧ ∃ w t u ts, ahead = t :: u :: ts ∧ t.isWord w ∧ u.isWord "grammar" ∧
        Shape.word w * Shape.word "grammar" = Shape.flavour flavour) := by
  have htwo {w : String} (hw : isWordAt ahead 0 w && isWordAt ahead 1 "grammar") :
      ∃ t u ts, ahead = t :: u :: ts ∧ t.isWord w ∧ u.isWord "grammar" := by
    rw [Bool.and_eq_true] at hw
    match ahead, hw with
    | t :: u :: ts, hw => exact ⟨t, u, ts, rfl, hw⟩
  unfold headerFlavour? at h
  split at h
  · rename_i hw
    cases h
    obtain ⟨t, u, ts, ha, ht, hu⟩ := htwo hw
    exact .inr ⟨nofun, "lexer", t, u, ts, ha, ht, hu, rfl⟩
  split at h
  · rename_i hw
    cases h
    obtain ⟨t, u, ts, ha, ht, hu⟩ := htwo hw
    exact .inr ⟨nofun, "parser", t, u, ts, ha, ht, hu, rfl⟩
  split at h
  · rename_i hw
    cases h
    exact .inl ⟨rfl, exists_of_isWordAt hw⟩
  · cases h

theorem forms_header {flavour : Flavour} (hc : c.Regular)
    (hf : headerFlavour? c.ahead = some flavour) :
    Forms ended (header flavour) (fun _ => Shape.node fun kind => ∃ declared, kind = .header declared)
      (fun n => [n]) c := by
  unfold Forms header
  simp -zeta only [wp_bind, wp_peek]
  extract_lets start children close name
  have hclose (u : Unit) {ns : List Node} {c₁ : Cursor}
      (h₁ : Passage body c (Shape.flavour flavour * Shape.identifier) ns c₁) :
      wp (close u ns) (fun n c' => Passage ended c
        (Shape.node fun kind => ∃ declared, kind = .header declared) [n] c') c₁ := by
    simp only [close, wp_bind, wp_close]
    refine h₁.need nofun takes_ended body_le_ended fun _ c₂ h₂ => ?_
    exact (h₂.closed (.header flavour) le_rfl nofun _).weaken ⟨_, rfl⟩
  have hname (u : Unit) {L : Shape} {c₁ : Cursor} {t : Token} {ts : List Token}
      (h₁ : Passage body c L [] c₁) (ha : c₁.ahead = t :: ts) (ht : t.isWord "grammar")
      (hL : L * Shape.word "grammar" = Shape.flavour flavour) :
      wp (name u) (fun n c' => Passage ended c
        (Shape.node fun kind => ∃ declared, kind = .header declared) [n] c') c₁ := by
    simp only [name, wp_bind, wp_seesName, wp_ite, wp_reportMissing]
    refine h₁.word ha ht (takes_body nofun) fun h₂ => ?_
    rw [hL] at h₂
    rw [h₂.regular.isNameAt_zero]
    split
    · rename_i hn
      exact h₂.identifier hn takes_body_name fun c₃ h₃ => hclose () h₃
    · exact hclose () (h₂.reportMissing _).failed
  simp only [wp_bind, wp_ite]
  have hstart : Passage body c 1 [] c := .start hc nil_mem_body
  rcases words_of_headerFlavour? hf with ⟨rfl, t, ts, ha, ht⟩ | ⟨hne, w, t, u, ts, ha, ht, hu, hL⟩
  · rw [if_neg (by simp)]
    exact hname () hstart ha ht (one_mul _)
  · rw [if_pos hne]
    refine hstart.word ha ht (takes_body nofun) fun h₁ => ?_
    rw [one_mul] at h₁
    exact hname () h₁ rfl hu hL

theorem forms_dottedParts (turns : Nat) (hc : c.Regular) :
    wp (dottedParts turns) (fun s c' => c'.Regular ∧ c'.faults = c.faults ∧
      ∃ us ∈ entry, c.ahead = us ++ c'.ahead ∧ Shape.Dotted us ∧ s = Token.spelled us) c := by
  induction turns generalizing c with
  | zero => exact ⟨hc, rfl, [], nil_mem_entry, rfl, .nil, rfl⟩
  | succ turns ih =>
    unfold dottedParts
    simp only [wp_bind, wp_sees, wp_ite, wp_pure]
    split
    · rename_i hdot
      obtain ⟨dot, part, ts, ha⟩ := exists_dotted hdot
      rw [ha, Bool.and_eq_true, beq_iff_eq] at hdot
      have hdotKind : dot.kind = .dot := hdot.1
      have hpart : part.isName := hdot.2
      refine wp_advance_of_ahead ha (wp_advance_of_ahead rfl ?_)
      refine wp_mono (ih ((hc.after ha).after rfl)) fun s c₁ h => ?_
      obtain ⟨hc₁, hfaults, us, hus, hrest, hdotted, rfl⟩ := h
      have hdotNe : dot.kind ≠ .closeBrace := by
        rw [hdotKind]
        decide
      have hpartNe : part.kind ≠ .closeBrace := by
        intro hk
        rw [Token.isName, hk] at hpart
        cases hpart
      refine ⟨hc₁, hfaults, dot :: part :: us, ?_, ?_, .cons hdotKind hpart hdotted, ?_⟩
      · exact List.forall_mem_cons.2 ⟨hdotNe, List.forall_mem_cons.2 ⟨hpartNe, hus⟩⟩
      · rw [ha, show ts = us ++ c₁.ahead from hrest]
        rfl
      · simp [Token.spelled, String.append_assoc]
    · exact ⟨hc, trivial, [], nil_mem_entry, rfl, .nil, rfl⟩

/-- A production that may find nothing has reported that. -/
def found {α : Type} (L : Shape) : Option α → Shape
  | some _ => L
  | none => 0

theorem forms_optionValue (hc : c.Regular) :
    Forms entry optionValue (found (Shape.node fun kind => kind.isValue)) Option.toList c := by
  have hstart : Passage entry c 1 [] c := .start hc nil_mem_entry
  have hdotted (hn : c.peek.isName) :
      Forms entry (do
          let _ ← advance
          let parts ← dottedParts (← get).ahead.length
          return some (← close (.identifier (c.peek.text ++ parts)) c.peek.start []))
        (found (Shape.node fun kind => kind.isValue)) Option.toList c := by
    obtain ⟨ts, ha⟩ := hc.ahead_of_peek (Token.kind_ne_finish hn)
    unfold Forms
    simp only [wp_bind, wp_get, wp_close, wp_pure]
    refine wp_advance_of_ahead ha ?_
    refine wp_mono (forms_dottedParts _ (hc.after ha)) fun parts c₁ h => ?_
    obtain ⟨hc₁, hfaults, us, hus, hrest, hdotted, rfl⟩ := h
    have hahead : c.ahead = (c.peek :: us) ++ c₁.ahead := by
      rw [ha, show ts = us ++ c₁.ahead from hrest]
      rfl
    have hentry : c.peek :: us ∈ entry :=
      entry_mul_entry (Language.append_mem_mul (takes_entry_name _ hn [] nil_mem_entry _ rfl) hus)
    have hword : Passage entry c (Shape.ofKind (.identifier (c.peek.text ++ Token.spelled us))) []
        c₁ :=
      ⟨hc₁, hfaults ▸ List.suffix_rfl, by simp, c.peek :: us, hahead, .inl hentry,
        fun _ => ⟨_, ⟨c.peek, us, rfl, hn, hdotted, rfl⟩, Item.nodes_tokens _, .tokens _⟩⟩
    exact (hword.closed _ le_rfl nofun _).weaken (P := fun kind => kind.isValue) rfl
  have hliteral (hk : c.peek.kind = .quoted ∨ c.peek.kind = .integer) :
      Forms entry (do
          let _ ← advance
          return some (literal c.peek))
        (found (Shape.node fun kind => kind.isValue)) Option.toList c := by
    have hkind : c.peek.kind ≠ .closeBrace := by rcases hk with hk | hk <;> simp [hk]
    have hne : c.peek.kind ≠ .finish := by rcases hk with hk | hk <;> simp [hk]
    unfold Forms
    simp only [wp_bind, wp_pure]
    refine hstart.leaf (.literal c.peek.text) hne (Shape.singleton_mem_token ⟨hk, rfl⟩) nofun
      (takes_entry hkind) fun c₁ h₁ => ?_
    rw [one_mul] at h₁
    exact h₁.weaken (P := fun kind => kind.isValue) rfl
  unfold Forms optionValue
  simp only [wp_bind, wp_peek]
  split
  · rename_i hk
    exact hdotted (Token.isName_iff.2 (.inl hk))
  · rename_i hk
    exact hdotted (Token.isName_iff.2 (.inr hk))
  · rename_i hk
    exact hliteral (.inl hk)
  · rename_i hk
    exact hliteral (.inr hk)
  · rename_i hk
    simp only [wp_bind, wp_close, wp_pure]
    refine hstart.sign hk nofun (takes_entry nofun) fun c₁ h₁ => ?_
    rw [one_mul] at h₁
    exact (h₁.closed .action le_self_add nofun _).weaken (P := fun kind => kind.isValue) rfl
  · simp only [wp_bind, wp_pure, wp_reportMissing]
    exact hstart.reportMissing _

theorem forms_optionEntry (hc : c.Regular) :
    Forms entry optionEntry (found (Shape.node fun kind => ∃ key, kind = .option key)) Option.toList
      c := by
  have hstart : Passage entry c 1 [] c := .start hc nil_mem_entry
  unfold Forms optionEntry
  simp only [wp_bind, wp_peek, wp_ite, wp_pure, wp_reportMissing]
  split
  · exact hstart.reportMissing _
  · rename_i hn
    refine hstart.name (by simpa using hn) takes_entry_name fun c₁ h₁ => ?_
    refine h₁.expect nofun (takes_entry nofun) (fun c₂ h₂ => h₂) fun _ c₂ h₂ => ?_
    rw [if_neg (by simp)]
    refine h₂.go (forms_optionValue h₂.regular) entry_mul_entry fun value? c₃ h₃ => ?_
    cases value? with
    | none => exact h₃.mono le_rfl (mul_zero _).le
    | some value =>
      simp only [wp_bind, wp_close, wp_pure]
      refine h₃.need nofun (takes_entry nofun) le_rfl fun _ c₄ h₄ => ?_
      rw [one_mul] at h₄
      refine (h₄.closed (.option c.peek.text) le_rfl nofun _).weaken
        (P := fun kind => ∃ key, kind = .option key) ⟨_, rfl⟩

/-- The word that leads in a block of declarations is read, and the brace behind it. -/
theorem opening_on {w : String} {Q : Cursor → Prop} (hc : c.Regular) (hs : startsBlock c.ahead w)
    (hQ : ∀ c₀, Passage opening c (Shape.word w * Shape.sign .openBrace) [] c₀ → Q c₀) :
    wp advance (fun _ c₁ => wp advance (fun _ => Q) c₁) c := by
  obtain ⟨t, u, ts, ha, ht, hu⟩ := exists_of_isWordAt_kindAt hs nofun
  refine wp_advance_of_ahead ha (wp_advance_of_ahead rfl (hQ _ ?_))
  have hword : Passage {[t]} c (Shape.word w) [] (c.after t (u :: ts)) :=
    .next hc ha (Shape.singleton_mem_token ht) rfl
  refine hword.token rfl (Shape.singleton_mem_token hu) ?_
  rintro _ rfl u' hu'
  refine ⟨t, u', rfl, ?_, hu'.trans hu⟩
  rw [(Token.isWord_iff.1 ht).1]
  nofun

theorem forms_options (hc : c.Regular) (hs : startsBlock c.ahead "options") :
    Forms body.proper options (fun _ => Shape.node (· = .options)) (fun n => [n]) c := by
  unfold Forms options
  simp only [wp_bind, wp_close]
  refine opening_on hc hs fun c₀ h₀ => ?_
  let entries : Shape := Shape.node fun kind => ∃ key, kind = .option key
  have hstart : Passage entry c₀ entries∗ [] c₀ :=
    (Passage.start h₀.regular nil_mem_entry).mono le_rfl one_le_kstar
  refine wp_mono (wp_gather_of_invariant (I := Passage entry c₀ entries∗) ?turn hstart)
    fun ns c₁ h₁ => ?close
  case turn =>
    intro ns c₁ h₁
    simp only [wp_bind, wp_sees, wp_ite, wp_pure, wp_modify]
    split
    · rwa [Option.toList_none, List.append_nil]
    refine h₁.go (forms_optionEntry h₁.regular) entry_mul_entry fun option? c₂ h₂ => ?_
    cases option? with
    | none =>
      -- The entry was reported, so that its tokens may be skipped.
      have hfailed := h₂.mono le_rfl (mul_zero _).le
      simp only [Option.isNone_none, if_true]
      refine (hfailed.skipWhile fun t ts ht => ?_).perhaps nofun (takes_entry nofun) fun _ c₃ h₃ => ?_
      · rw [Bool.and_eq_true, bne_iff_ne, bne_iff_ne] at ht
        exact takes_entry ht.2
      · exact (h₃.mono le_rfl (zero_mul _).le).failed
    | some option => exact h₂.mono le_rfl kstar_mul_le_kstar
  case close =>
    refine (h₀.trans h₁ opening_mul_entry).need nofun (.proper (takes_body nofun)) le_rfl
      fun _ c₂ h₂ => ?_
    rw [List.nil_append] at h₂
    exact h₂.closed .options le_rfl nofun _

theorem forms_delegate (hc : c.Regular) (hn : c.peek.isName) :
    Forms body (delegate c.peek)
      (fun _ => Shape.node fun kind => ∃ name alias?, kind = .delegate name alias?) (fun n => [n])
      c := by
  have hstart : Passage body c 1 [] c := .start hc nil_mem_body
  unfold Forms delegate
  simp only [wp_bind, wp_ite, wp_peek, wp_close, wp_reportMissing]
  refine hstart.name hn takes_body_name fun c₁ h₁ => ?_
  rw [one_mul] at h₁
  refine h₁.accept nofun (takes_body nofun) ?_ fun c₂ h₂ _ => ?_
  · exact (h₁.closed (.delegate c.peek.text none) le_rfl nofun _).weaken ⟨_, _, rfl⟩
  · rw [if_pos (by simp)]
    split
    · rename_i hsecond
      refine h₂.name hsecond takes_body_name fun c₃ h₃ => ?_
      exact (h₃.closed (.delegate c₂.peek.text (some c.peek.text)) le_rfl nofun _).weaken ⟨_, _, rfl⟩
    · exact ((h₂.reportMissing _).failed.closed (.delegate c.peek.text none) le_rfl nofun _).weaken
        ⟨_, _, rfl⟩

theorem forms_delegates (hc : c.Regular) (hs : isWordAt c.ahead 0 "import") :
    Forms ended.proper delegates (fun _ => Shape.node (· = .delegates)) (fun n => [n]) c := by
  obtain ⟨t, ts, ha, ht⟩ := exists_of_isWordAt hs
  unfold Forms delegates
  simp only [wp_bind, wp_close]
  refine (Passage.start hc nil_mem_body).word ha ht (takes_proper (takes_body nofun)) fun h₁ => ?_
  rw [one_mul] at h₁
  let part : Shape := Shape.node fun kind => ∃ name alias?, kind = .delegate name alias?
  refine h₁.gather (M := part * Shape.sign .comma) (E := part) proper_mul_body ?turn
    fun ns c₂ h₂ => ?close
  case turn =>
    intro c hc
    simp only [wp_bind, wp_peek, wp_ite, wp_pure, wp_reportMissing]
    split
    · rename_i hn
      refine wp_mono (forms_delegate hc hn) fun n c₁ h₁ => ?_
      refine h₁.accept nofun (takes_body nofun) h₁ fun c₂ h₂ hlt => ⟨h₂, ?_⟩
      exact hlt.trans_le h₁.length_le
    · exact ((Passage.start hc nil_mem_body).reportMissing _).failed
  case close =>
    refine h₂.need nofun takes_ended.proper (proper_mono body_le_ended) fun _ c₃ h₃ => ?_
    exact h₃.closed .delegates le_rfl nofun _

theorem forms_nameList {kind : Node.Kind} {w : String} (hc : c.Regular) (hs : startsBlock c.ahead w)
    (hkind : Shape.ofKind kind =
      Shape.word w * Shape.sign .openBrace * Shape.names * Shape.sign .closeBrace)
    (hne : kind ≠ .error) :
    Forms body.proper (nameList kind) (fun _ => Shape.node (· = kind)) (fun n => [n]) c := by
  unfold Forms nameList
  simp only [wp_bind, wp_close]
  refine opening_on hc hs fun c₀ h₀ => ?_
  refine (h₀.mono opening_le_proper le_rfl).gather (M := Shape.identifier * Shape.sign .comma)
    (E := Shape.perhaps Shape.identifier) proper_mul_body ?turn fun ns c₁ h₁ => ?close
  case turn =>
    intro c hc
    have hstart : Passage body c 1 [] c := .start hc nil_mem_body
    simp only [wp_bind, wp_seesName, wp_ite, wp_pure, hc.isNameAt_zero]
    split
    · rename_i hn
      refine hstart.identifier hn takes_body_name fun c₁ h₁ => ?_
      rw [one_mul] at h₁
      refine h₁.accept nofun (takes_body nofun) ?_ fun c₂ h₂ hlt => ⟨h₂, hlt.trans_le h₁.length_le⟩
      exact h₁.mono le_rfl le_add_self
    · exact hstart.mono le_rfl le_self_add
  case close =>
    refine h₁.need nofun (.proper (takes_body nofun)) le_rfl fun _ c₂ h₂ => ?_
    exact h₂.closed kind hkind.ge hne _

theorem forms_actionName (hc : c.Regular) :
    Forms body actionName (fun
      | some name => Shape.named name
      | none => 0) (fun _ => []) c := by
  have hstart : Passage body c 1 [] c := .start hc nil_mem_body
  unfold Forms actionName
  simp only [wp_bind, wp_seesName, wp_ite, wp_pure, wp_reportMissing, hc.isNameAt_zero]
  split
  · rename_i hn
    refine hstart.name hn takes_body_name fun c₁ h₁ => ?_
    rw [one_mul] at h₁
    exact h₁
  · exact hstart.reportMissing _

theorem forms_namedAction (hc : c.Regular) (hk : c.peek.kind = .atSign) :
    Forms body.proper namedAction (fun _ => Shape.node fun kind => ∃ name, kind = .namedAction name)
      (fun n => [n]) c := by
  unfold Forms namedAction
  simp -zeta only [wp_bind]
  refine (Passage.start hc nil_mem_body).sign hk nofun (takes_proper (takes_body nofun))
    fun c₁ h₁ => ?_
  rw [one_mul] at h₁
  extract_lets start close
  have hclose (u : Unit) (name : String) (c₂ : Cursor)
      (h₂ : Passage body.proper c (Shape.sign .atSign * Shape.actionName name) [] c₂) :
      wp (close u name) (fun n c' => Passage body.proper c
        (Shape.node fun kind => ∃ name, kind = .namedAction name) [n] c') c₂ := by
    simp only [close, wp_bind, wp_close]
    refine h₂.need nofun (.proper (takes_body nofun)) le_rfl fun _ c₃ h₃ => ?_
    exact (h₃.closed (.namedAction name) le_rfl nofun _).weaken ⟨_, rfl⟩
  simp only [wp_bind, wp_ite]
  refine h₁.go (forms_actionName h₁.regular) proper_mul_body fun name? c₂ h₂ => ?_
  rw [List.append_nil] at h₂
  refine h₂.accept nofun (.proper (takes_body nofun)) ?_ fun c₃ h₃ _ => ?_
  · cases name? with
    | none => exact hclose () _ c₂ (h₂.mono le_rfl (mul_zero _).le).failed
    | some name => exact hclose () _ c₂ (h₂.mono le_rfl (mul_le_mul_right (fun w hw => .inl hw) _))
  · rw [if_pos (by simp)]
    refine h₃.go (forms_actionName h₃.regular) proper_mul_body fun part? c₄ h₄ => ?_
    cases part? with
    | none => exact hclose () _ c₄ (h₄.mono le_rfl (mul_zero _).le).failed
    | some part =>
      refine hclose () _ c₄ (h₄.mono le_rfl ?_)
      cases name? with
      | none =>
        rw [mul_zero, zero_mul, zero_mul]
        exact zero_le
      | some name =>
        rw [mul_assoc, mul_assoc, ← mul_assoc (Shape.named name)]
        exact mul_le_mul_right (fun w hw => .inr ⟨name, part, rfl, hw⟩) _

/-- A declaration is read, or nothing is. -/
theorem forms_prequel (hc : c.Regular) :
    wp prequel (fun
      | some n, c' => Passage ended.proper c (Shape.node fun kind => kind.isPart) [n] c'
      | none, c' => c' = c) c := by
  have hbody {kind : Node.Kind} (hk : kind.isPart) {n : Node} {c₁ : Cursor}
      (h : Passage body.proper c (Shape.node (· = kind)) [n] c₁) :
      Passage ended.proper c (Shape.node fun kind => kind.isPart) [n] c₁ :=
    (h.mono (proper_mono body_le_ended) le_rfl).weaken hk
  unfold prequel
  simp only [wp_bind, wp_sees, wp_seesKind, wp_ite, wp_pure]
  split
  · rename_i hs
    exact wp_mono (forms_options hc hs) fun n c₁ h => hbody rfl h
  split
  · rename_i hs
    exact wp_mono (forms_nameList hc hs rfl nofun) fun n c₁ h => hbody rfl h
  split
  · rename_i hs
    exact wp_mono (forms_nameList hc hs rfl nofun) fun n c₁ h => hbody rfl h
  split
  · rename_i hs
    rw [Bool.and_eq_true] at hs
    exact wp_mono (forms_delegates hc hs.1) fun n c₁ h => h.weaken (by rfl)
  split
  · rename_i hk
    rw [hc.kindAt_zero, beq_iff_eq] at hk
    refine wp_mono (forms_namedAction hc hk) fun n c₁ h => ?_
    refine h.mono (proper_mono body_le_ended) ?_
    rintro w ⟨m, ⟨name, hm⟩, rfl⟩
    exact ⟨m, by simp [hm, isPart, isPrequel], rfl⟩
  · trivial

/-! ## Bodies of rules -/

theorem forms_command (hc : c.Regular) (hn : c.peek.isName) :
    Forms body (command c.peek) (fun _ => Shape.node fun kind => ∃ name, kind = .command name)
      (fun n => [n]) c := by
  unfold Forms command
  simp -zeta only [wp_bind]
  refine (Passage.start hc nil_mem_body).name hn takes_body_name fun c₁ h₁ => ?_
  rw [one_mul] at h₁
  extract_lets arguments close argued
  have hclose (u : Unit) {ns : List Node} {c₂ : Cursor}
      (h₂ : Passage body c (Shape.ofKind (.command c.peek.text)) ns c₂) :
      wp (close u ns) (fun n c' => Passage body c
        (Shape.node fun kind => ∃ name, kind = .command name) [n] c') c₂ := by
    simp only [close, wp_close]
    exact (h₂.closed (.command c.peek.text) le_rfl nofun _).weaken ⟨_, rfl⟩
  have hargued (u : Unit) {ns : List Node} {c₂ : Cursor}
      (h₂ : Passage body c (Shape.named c.peek.text *
        (Shape.sign .openParen * (Shape.identifier + Shape.literal))) ns c₂) :
      wp (argued u ns) (fun n c' => Passage body c
        (Shape.node fun kind => ∃ name, kind = .command name) [n] c') c₂ := by
    simp only [argued, wp_bind]
    refine h₂.need nofun (takes_body nofun) le_rfl fun _ c₃ h₃ => hclose () (h₃.mono le_rfl ?_)
    rw [mul_assoc]
    exact Shape.mul_le_mul_perhaps _ _
  simp only [wp_bind, wp_ite, wp_peek, wp_reportMissing]
  refine h₁.accept nofun (takes_body nofun) ?_ fun c₂ h₂ _ => ?_
  · exact hclose () (h₁.mono le_rfl (Shape.le_mul_perhaps _ _))
  rw [if_pos (by simp)]
  rw [← mul_one (Shape.named c.peek.text * _)] at h₂
  split
  · rename_i hn
    refine h₂.identifier hn takes_body_name fun c₃ h₃ => hargued () (h₃.mono le_rfl ?_)
    rw [mul_one, mul_assoc]
    exact mul_le_mul_right (mul_le_mul_right le_self_add _) _
  split
  · rename_i hk
    refine h₂.literal (.inr hk) (takes_body (by rw [hk]; nofun)) fun c₃ h₃ =>
      hargued () (h₃.mono le_rfl ?_)
    rw [mul_one, mul_assoc]
    exact mul_le_mul_right (mul_le_mul_right le_add_self _) _
  · exact hargued () (h₂.reportMissing _).failed

theorem forms_commands (hc : c.Regular) (hk : c.peek.kind = .arrow) :
    Forms body ParseM.commands (fun _ => Shape.node (· = .commands)) (fun n => [n]) c := by
  unfold Forms ParseM.commands
  simp only [wp_bind, wp_close]
  refine (Passage.start hc nil_mem_body).sign hk nofun (takes_body nofun) fun c₁ h₁ => ?_
  rw [one_mul] at h₁
  let part : Shape := Shape.node fun kind => ∃ name, kind = .command name
  refine h₁.gather (M := part * Shape.sign .comma) (E := part) body_mul_body ?turn
    fun ns c₂ h₂ => ?close
  case turn =>
    intro c hc
    simp only [wp_bind, wp_peek, wp_ite, wp_pure, wp_reportMissing]
    split
    · rename_i hn
      refine wp_mono (forms_command hc hn) fun n c₁ h₁ => ?_
      exact h₁.accept nofun (takes_body nofun) h₁ fun c₂ h₂ hlt => ⟨h₂, hlt.trans_le h₁.length_le⟩
    · exact ((Passage.start hc nil_mem_body).reportMissing _).failed
  case close => exact h₂.closed .commands le_rfl nofun _

/-- What was read since `c` is repeated as a whole. -/
theorem forms_repeated {e : Node} (h : Passage body c Shape.factor [e] c₁) (start : Mark) :
    wp (repeated start e) (fun n c' => Passage body c Shape.element [n] c') c₁ := by
  unfold ParseM.repeated
  simp only [wp_bind, wp_peek]
  split
  · exact h.mono le_rfl (le_self_add.trans le_self_add)
  · rename_i repetition hrepetition
    have hk : c₁.peek.kind = Shape.repetition repetition := by
      split at hrepetition <;> first | (cases hrepetition; assumption) | cases hrepetition
    have hsign : Shape.repetition repetition ≠ .finish ∧
        Shape.repetition repetition ≠ .semicolon := by
      cases repetition <;> exact ⟨nofun, nofun⟩
    have hclose (greedy : Bool) {c₂ : Cursor}
        (h₂ : Passage body c (Shape.ofKind (.repeated repetition greedy)) [e] c₂) (l : Location) :
        Passage body c Shape.element [⟨.repeated repetition greedy, l, [e]⟩] c₂ := by
      have hnode : Passage body c (Shape.node fun kind =>
          ∃ repetition greedy, kind = .repeated repetition greedy) _ c₂ :=
        (h₂.closed (.repeated repetition greedy) le_rfl nofun l).weaken ⟨_, _, rfl⟩
      exact hnode.mono le_rfl (le_add_self.trans le_self_add)
    simp only [wp_bind, wp_close]
    refine h.sign hk hsign.1 (takes_body hsign.2) fun c₂ h₂ => ?_
    refine h₂.accept nofun (takes_body nofun) ?_ fun c₃ h₃ _ => ?_
    · exact hclose true (h₂.mono le_rfl (mul_one _).ge) _
    · exact hclose false h₃ _

/-- The empty node that stands for what is missing at the token ahead. -/
theorem forms_missing (hc : c.Regular) (expected : String) (L : Shape) :
    wp (do reportMissing expected; close .error (← peek).start [])
      (fun n c' => Passage body c L [n] c') c := by
  simp only [wp_bind, wp_reportMissing, wp_peek, wp_close]
  exact ((Passage.start hc nil_mem_body).reportMissing expected).error ⟨_, .head _, rfl⟩

/-- Both productions make what may be labeled or negated. -/
structure Nested.Formed (nested : Nested) : Prop where
  block : ∀ c : Cursor, c.Regular → c.peek.kind = .openParen →
    Forms body nested.block (fun _ => Shape.operand) (fun n => [n]) c
  atom : ∀ c : Cursor, c.Regular → Forms body nested.atom (fun _ => Shape.operand) (fun n => [n]) c

variable {nested : Nested}

theorem Nested.Formed.labelTarget (hn : nested.Formed) (hc : c.Regular) :
    Forms body (labelTarget nested) (fun _ => Shape.operand) (fun n => [n]) c := by
  unfold Forms ParseM.labelTarget
  simp only [wp_bind, wp_seesKind, wp_sees, wp_ite, hc.kindAt_zero]
  split
  · rename_i hk
    exact hn.block c hc (beq_iff_eq.1 hk)
  split
  · exact hn.atom c hc
  · exact forms_missing hc _ _

/-- The name of a label is ahead, and the sign behind it. -/
theorem exists_of_label (hc : c.Regular) (h : c.peek.isName &&
      (kindAt c.ahead 1 == .equals || kindAt c.ahead 1 == .plusEquals)) :
    ∃ u ts, c.ahead = c.peek :: u :: ts ∧ c.peek.isName ∧
      u.kind = if u.kind == .plusEquals then .plusEquals else .equals := by
  rw [Bool.and_eq_true, Bool.or_eq_true, beq_iff_eq, beq_iff_eq] at h
  obtain ⟨hn, hk⟩ := h
  obtain ⟨ts, ha⟩ := hc.ahead_of_peek (Token.kind_ne_finish hn)
  rw [ha] at hk
  cases ts with
  | nil => rcases hk with hk | hk <;> cases hk
  | cons u ts =>
    refine ⟨u, ts, ha, hn, ?_⟩
    rcases hk with hk | hk
    · have hu : u.kind = .equals := hk
      rw [hu]
      rfl
    · have hu : u.kind = .plusEquals := hk
      rw [hu]
      rfl

theorem Nested.Formed.element (hn : nested.Formed) (hc : c.Regular) :
    Forms body (element nested) (fun _ => Shape.element) (fun n => [n]) c := by
  have hstart : Passage body c 1 [] c := .start hc nil_mem_body
  have hoperand {e : Node} {c₁ : Cursor} (h : Passage body c Shape.operand [e] c₁) :
      wp (repeated c.peek.start e) (fun n c' => Passage body c Shape.element [n] c') c₁ :=
    forms_repeated (h.mono le_rfl le_self_add) _
  have hplain {kind : Node.Kind} {n : Node} {c₁ : Cursor}
      (h : Passage body c (Shape.node (· = kind)) [n] c₁) (hk : kind = .action ∨ kind = .predicate) :
      Passage body c Shape.element [n] c₁ :=
    (h.weaken hk).mono le_rfl le_add_self
  unfold Forms ParseM.element
  simp only [wp_bind, wp_peek, wp_sees, wp_seesKind, wp_ite, wp_close, hc.kindAt_zero]
  split
  · rename_i hlabel
    obtain ⟨u, ts, ha, hn', hu⟩ := exists_of_label hc hlabel
    have hname : Passage body c (Shape.named c.peek.text) [] (c.after c.peek (u :: ts)) :=
      .next hc ha (Shape.singleton_mem_token ⟨hn', rfl⟩) (takes_body_name _ hn' [] nil_mem_body _ rfl)
    refine wp_advance_of_ahead ha ?_
    refine hname.sign (hu : u.kind = _) (by split <;> nofun) (takes_body (by split <;> nofun))
      fun c₁ h₁ => ?_
    refine h₁.go (hn.labelTarget h₁.regular) body_mul_body fun target c₂ h₂ => ?_
    have hnode : Passage body c (Shape.node fun kind =>
        ∃ label additive, kind = .labeled label additive) _ c₂ :=
      (h₂.closed (.labeled c.peek.text (u.kind == .plusEquals)) le_rfl nofun
        (c₂.since c.peek.start)).weaken ⟨_, _, rfl⟩
    exact forms_repeated (hnode.mono le_rfl le_add_self) _
  split
  · rename_i hk
    exact wp_mono (hn.block c hc (beq_iff_eq.1 hk)) fun e c₁ h => hoperand h
  refine hstart.accept nofun (takes_body nofun) ?_ fun c₁ h₁ _ => ?_
  · exact wp_mono (hn.atom c hc) fun e c₁ h => hoperand h
  rw [one_mul] at h₁
  rw [if_pos (by simp)]
  refine h₁.accept nofun (takes_body nofun) ?_ fun c₂ h₂ _ => ?_
  · exact hplain (h₁.closed .action le_self_add nofun _) (.inl rfl)
  · rw [if_pos (by simp)]
    refine h₂.perhaps nofun (takes_body nofun) fun _ c₃ h₃ => ?_
    exact hplain (h₃.closed .predicate le_rfl nofun _) (.inr rfl)

/-- A run of tokens that have no place is reported and skipped up to the next semicolon. -/
theorem forms_skipGarbage (hc : c.Regular) (hend : endsAlternative c.ahead = false) (L : Shape) :
    Forms body skipGarbage (fun _ => L) (fun n => [n]) c := by
  have hother {ahead : List Token} (h : endsAlternative ahead = false) :
      kindAt ahead 0 ≠ .semicolon ∧ kindAt ahead 0 ≠ .finish := by
    rw [endsAlternative, Bool.or_eq_false_iff] at h
    constructor
    · intro hk
      simp [hk] at h
    · intro hk
      simp [hk] at h
  obtain ⟨hsemicolon, hfinish⟩ := hother hend
  rw [hc.kindAt_zero] at hsemicolon hfinish
  have hreport := (Passage.start hc nil_mem_body).reportMissing "grammar element"
  unfold Forms skipGarbage
  simp only [wp_bind, wp_peek, wp_reportMissing, wp_modify, wp_close]
  obtain ⟨ts, ha⟩ := hc.ahead_of_peek hfinish
  refine wp_advance_of_ahead (show (c.reportMissing _).ahead = _ from ha) ?_
  have hread := hreport.token (F := Shape.sign c.peek.kind) ha (Shape.singleton_mem_token rfl)
    (takes_body hsemicolon)
  rw [zero_mul] at hread
  refine (hread.skipWhile fun t ts ht => ?_).error ?_
  · rw [Bool.and_eq_true, Bool.not_eq_true', Bool.not_eq_true'] at ht
    exact takes_body (hother ht.2).1
  · rw [Passage.faults_skipWhile]
    exact ⟨_, .head _, rfl⟩

theorem Nested.Formed.alternative (hn : nested.Formed) (hc : c.Regular) :
    Forms body (alternative nested) (fun _ => Shape.node fun kind => kind.isAlternative)
      (fun n => [n]) c := by
  unfold Forms ParseM.alternative
  simp -zeta only [wp_bind, wp_peek]
  extract_lets start children label? elements
  have helements (u : Unit) {ns : List Node} {c₁ : Cursor}
      (h₁ : Passage body c (Shape.perhaps (Shape.node (· = .elementOptions))) ns c₁) :
      wp (elements u ns) (fun n c' => Passage body c
        (Shape.node fun kind => kind.isAlternative) [n] c') c₁ := by
    simp -zeta only [elements, wp_bind]
    refine h₁.gatherWhile (M := Shape.element) ?element body_mul_body fun ms c₂ h₂ => ?label
    case element =>
      intro c hc hend
      unfold Forms
      simp only [wp_bind, wp_sees, wp_ite]
      split
      · exact hn.element hc
      · exact forms_skipGarbage hc (by simpa using hend) _
    case label =>
      extract_lets all commanded
      have hcommanded (u : Unit) (label? : Option String) {c₃ : Cursor}
          (h₃ : Passage body c (Shape.perhaps (Shape.node (· = .elementOptions)) * Shape.element∗ *
            Shape.label label?) all c₃) :
          wp (commanded u label?) (fun n c' => Passage body c
            (Shape.node fun kind => kind.isAlternative) [n] c') c₃ := by
        have hclose {ns : List Node} {c₄ : Cursor}
            (h₄ : Passage body c (Shape.ofKind (.alternative label?)) ns c₄) (l : Location) :
            Passage body c (Shape.node fun kind => kind.isAlternative) [⟨.alternative label?, l, ns⟩]
              c₄ :=
          (h₄.closed (.alternative label?) le_rfl nofun l).weaken (by rfl)
        simp only [commanded, wp_bind, wp_seesKind, wp_ite, wp_close, h₃.regular.kindAt_zero]
        split
        · rename_i hk
          refine h₃.go (forms_commands h₃.regular (beq_iff_eq.1 hk)) body_mul_body fun node c₄ h₄ => ?_
          exact hclose (h₄.mono le_rfl (Shape.mul_le_mul_perhaps _ _)) _
        · exact hclose (h₃.mono le_rfl (Shape.le_mul_perhaps _ _)) _
      simp only [wp_bind, wp_ite, wp_seesName, wp_reportMissing]
      refine h₂.accept nofun (takes_body nofun) ?_ fun c₃ h₃ _ => ?_
      · exact hcommanded () none (h₂.mono le_rfl (mul_one _).ge)
      rw [if_pos (by simp), h₃.regular.isNameAt_zero]
      split
      · rename_i hname
        refine h₃.name hname takes_body_name fun c₄ h₄ => hcommanded () (some _) (h₄.mono le_rfl ?_)
        rw [mul_assoc]
        exact le_rfl
      · exact hcommanded () none (h₃.reportMissing _).failed
  have hstart : Passage body c 1 [] c := .start hc nil_mem_body
  simp only [wp_bind]
  refine wp_accept hc (helements () (hstart.mono le_rfl le_self_add)) fun hk => ?_
  refine hstart.sign hk nofun (takes_body nofun) fun c₁ h₁ => ?_
  rw [one_mul] at h₁
  simp only [wp_bind, wp_close]
  exact helements () ((h₁.closed .elementOptions le_rfl nofun _).mono le_rfl le_add_self)

theorem Nested.Formed.alternativeList (hn : nested.Formed) (hc : c.Regular) :
    Forms body (alternativeList nested) (fun _ => Shape.alternatives) id c := by
  let part : Shape := Shape.node fun kind => kind.isAlternative
  refine (Passage.start hc nil_mem_body).gather (M := part * Shape.sign .bar) (E := part)
    body_mul_body ?_ fun ns c₁ h₁ => ?_
  · intro c hc
    simp only [wp_bind, wp_pure]
    refine wp_mono (hn.alternative hc) fun n c₁ h₁ => ?_
    exact h₁.accept nofun (takes_body nofun) h₁ fun c₂ h₂ hlt => ⟨h₂, hlt.trans_le h₁.length_le⟩
  · rwa [one_mul] at h₁

theorem Nested.Formed.forms_block (hn : nested.Formed) (hc : c.Regular)
    (hk : c.peek.kind = .openParen) :
    Forms body (ParseM.block nested) (fun _ => Shape.operand) (fun n => [n]) c := by
  unfold Forms ParseM.block
  simp -zeta only [wp_bind]
  refine (Passage.start hc nil_mem_body).sign hk nofun (takes_body nofun) fun c₁ h₁ => ?_
  rw [one_mul] at h₁
  extract_lets start close
  have hclose (u : Unit) {c₂ : Cursor} (h₂ : Passage body c (Shape.sign .openParen *
      Shape.perhaps (Shape.blockOptions * Shape.sign .colon)) [] c₂) :
      wp (close u) (fun n c' => Passage body c Shape.operand [n] c') c₂ := by
    simp only [close, wp_bind, wp_close]
    refine h₂.go (hn.alternativeList h₂.regular) body_mul_body fun ns c₃ h₃ => ?_
    refine h₃.need nofun (takes_body nofun) le_rfl fun _ c₄ h₄ => ?_
    exact (h₄.closed .block le_rfl nofun _).mono le_rfl le_self_add
  simp only [wp_bind, wp_sees, wp_ite]
  split
  · rename_i hs
    refine wp_mono (forms_options h₁.regular hs) fun n c₂ h₂ => ?_
    have hoptions : Passage body c₁ Shape.blockOptions [] c₂ := (h₂.mono (proper_le _) le_rfl).aside
    refine (h₁.trans hoptions body_mul_body).need nofun (takes_body nofun) le_rfl fun _ c₃ h₃ => ?_
    refine hclose () (h₃.mono le_rfl ?_)
    rw [mul_assoc]
    exact Shape.mul_le_mul_perhaps _ _
  · exact hclose () (h₁.mono le_rfl (Shape.le_mul_perhaps _ _))

theorem forms_deepBlock (hc : c.Regular) (hk : c.peek.kind = .openParen) (L : Shape) :
    Forms body deepBlock (fun _ => L) (fun n => [n]) c := by
  unfold Forms deepBlock
  simp only [wp_bind, wp_reportAt, wp_modify, wp_close]
  refine (Passage.start hc nil_mem_body).sign hk nofun (takes_proper (takes_body nofun))
    fun c₁ h₁ => ?_
  obtain ⟨hskipped, hfaults⟩ :=
    (h₁.report (.tooDeep nestingLimit) c.peek.location).skipParens ⟨_, .head _, rfl⟩
  refine hskipped.error ?_
  rw [hfaults]
  exact ⟨_, .head _, rfl⟩

theorem forms_negand {nested? : Option Nested} (hn : ∀ nested ∈ nested?, nested.Formed)
    (hc : c.Regular) (sign : Token) :
    Forms body (negand sign nested?) (fun _ => Shape.operand) (fun n => [n]) c := by
  unfold Forms negand
  split
  · simp only [wp_bind, wp_reportAt, wp_modify, wp_close]
    have hreport := (Passage.start hc nil_mem_body).report (.tooDeep nestingLimit) sign.location
    refine (hreport.skipWhile fun t ts ht => ?_).error ?_
    · rw [beq_iff_eq] at ht
      have ht : t.kind = .tilde := ht
      exact takes_body (by rw [ht]; nofun)
    · rw [Passage.faults_skipWhile]
      exact ⟨_, .head _, rfl⟩
  · rename_i nested
    simp only [wp_bind, wp_seesKind, wp_sees, wp_ite, hc.kindAt_zero]
    split
    · rename_i hk
      exact (hn nested rfl).block c hc (beq_iff_eq.1 hk)
    split
    · exact (hn nested rfl).atom c hc
    · exact forms_missing hc _ _

theorem forms_atom {nested? : Option Nested} (hn : ∀ nested ∈ nested?, nested.Formed)
    (hc : c.Regular) :
    Forms body (ParseM.atom nested?) (fun _ => Shape.operand) (fun n => [n]) c := by
  have hstart : Passage body c 1 [] c := .start hc nil_mem_body
  have hset {kind : Node.Kind} {n : Node} {c₁ : Cursor} (hk : Shape.isSet kind)
      (h : Passage body c (Shape.node (· = kind)) [n] c₁) : Passage body c Shape.operand [n] c₁ :=
    (h.weaken hk).mono le_rfl (le_add_self.trans le_add_self)
  have hreference {n : Node} {c₁ : Cursor} (h : Passage body c (Shape.identifier *
      Shape.perhaps (Shape.sign .bracket) * Shape.perhaps (Shape.sign .angle)) [n] c₁) :
      Passage body c Shape.operand [n] c₁ :=
    h.mono le_rfl ((le_self_add.trans le_self_add).trans le_add_self)
  unfold Forms ParseM.atom
  simp only [wp_bind, wp_peek]
  split
  · rename_i hk
    simp only [wp_bind, wp_pure]
    refine hstart.identifier (Token.isName_iff.2 (.inl hk)) takes_body_name
      fun c₁ h₁ => ?_
    rw [one_mul] at h₁
    have hplain := h₁.mono le_rfl (Shape.le_mul_perhaps _ (Shape.sign .bracket))
    exact hplain.perhaps nofun (takes_body nofun) fun _ c₂ h₂ => hreference h₂
  · rename_i hk
    simp only [wp_bind, wp_pure]
    refine hstart.identifier (Token.isName_iff.2 (.inr hk)) takes_body_name
      fun c₁ h₁ => ?_
    rw [one_mul] at h₁
    refine h₁.perhaps nofun (takes_body nofun) fun _ c₂ h₂ => ?_
    exact h₂.perhaps nofun (takes_body nofun) fun _ c₃ h₃ => hreference h₃
  · rename_i hk
    simp only [wp_bind, wp_ite, wp_pure]
    refine hstart.literal (.inl hk) (takes_body (by rw [hk]; nofun)) fun c₁ h₁ => ?_
    rw [one_mul] at h₁
    refine h₁.accept nofun (takes_body nofun) ?_ fun c₂ h₂ _ => ?_
    · rw [if_neg (by simp)]
      refine h₁.perhaps nofun (takes_body nofun) fun _ c₂ h₂ => h₂.mono le_rfl ?_
      exact (le_add_self.trans le_self_add).trans le_add_self
    rw [if_pos (by simp)]
    refine wp_accept h₂.regular ?_ fun hl => ?_
    · simp only [wp_bind, wp_close, wp_reportMissing]
      exact hset rfl ((h₂.reportMissing _).failed.closed .range le_rfl nofun _)
    · refine h₂.literal (.inl hl) (takes_body (by rw [hl]; nofun)) fun c₃ h₃ => ?_
      exact hset rfl (h₃.closed .range le_rfl nofun _)
  · rename_i hk
    simp only [wp_bind, wp_pure]
    refine hstart.leaf (.charSet c.peek.text) (by rw [hk]; nofun)
      (Shape.singleton_mem_token ⟨hk, rfl⟩) nofun (takes_body (by rw [hk]; nofun)) fun c₁ h₁ => ?_
    rw [one_mul] at h₁
    exact hset rfl h₁
  · rename_i hk
    simp only [wp_bind, wp_close]
    refine hstart.sign hk nofun (takes_body nofun) fun c₁ h₁ => ?_
    rw [one_mul] at h₁
    refine h₁.perhaps nofun (takes_body nofun) fun _ c₂ h₂ => ?_
    exact hset rfl (h₂.closed .wildcard le_rfl nofun _)
  · rename_i hk
    simp only [wp_bind, wp_close]
    refine hstart.sign hk nofun (takes_body nofun) fun c₁ h₁ => ?_
    rw [one_mul] at h₁
    refine h₁.go (forms_negand hn h₁.regular _) body_mul_body fun n c₂ h₂ => ?_
    exact hset rfl (h₂.closed .negated le_rfl nofun _)
  · simp only [wp_bind, wp_close, wp_reportMissing]
    exact (hstart.reportMissing _).error ⟨_, .head _, rfl⟩

theorem Nested.formed_within (room : Nat) : (Nested.within room).Formed := by
  induction room with
  | zero => exact ⟨fun c hc hk => forms_deepBlock hc hk _, fun c hc => forms_atom (by simp) hc⟩
  | succ room ih =>
    have hinner : Nested.Formed ⟨ParseM.block (within room), (within room).atom⟩ :=
      ⟨fun c hc hk => ih.forms_block hc hk, ih.atom⟩
    refine ⟨hinner.block, fun c hc => forms_atom ?_ hc⟩
    simpa using hinner

theorem forms_alternatives (hc : c.Regular) :
    Forms body alternatives (fun _ => Shape.node (· = .alternatives)) (fun n => [n]) c := by
  unfold Forms ParseM.alternatives
  simp only [wp_bind, wp_peek, wp_close]
  refine wp_mono ((Nested.formed_within _).alternativeList hc) fun ns c₁ h₁ => ?_
  exact h₁.closed .alternatives le_rfl nofun _

end ParseM

end GrammarAtlas
