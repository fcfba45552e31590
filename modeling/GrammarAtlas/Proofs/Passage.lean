import GrammarAtlas.Proofs.Shapes

/-! # Passages of the parser

`Passage S c L ns c'` says what came of reading from `c` to `c'`, whether or not the text is in
order. The tokens that were read are in `S`, which tells where semicolons may stand among them.
Every `error` node among the nodes `ns` and below is witnessed by a fault. And as long as no fault
was found, what was read is of the shape `L`. So `L` is `0` once something is reported.

Steps of the parser lengthen a passage by a token or a passage of their own. -/

namespace GrammarAtlas

open scoped Computability

/-- The tokens end within a block of declarations, whose brace is still open. -/
def Token.Unclosed (ts : List Token) : Prop :=
  ∃ before brace behind, ts = before ++ brace :: behind ∧ brace.kind = .openBrace ∧
    ∀ t ∈ behind, t.kind ≠ .closeBrace

theorem Token.unclosed_cons {t : Token} {ts : List Token} :
    Unclosed (t :: ts) ↔ (t.kind = .openBrace ∧ ∀ u ∈ ts, u.kind ≠ .closeBrace) ∨ Unclosed ts := by
  constructor
  · rintro ⟨before, brace, behind, heq, hbrace, hbehind⟩
    cases before with
    | nil =>
      obtain ⟨rfl, rfl⟩ := List.cons.inj heq
      exact .inl ⟨hbrace, hbehind⟩
    | cons u before => exact .inr ⟨before, brace, behind, (List.cons.inj heq).2, hbrace, hbehind⟩
  · rintro (⟨hbrace, hbehind⟩ | ⟨before, brace, behind, rfl, hbrace, hbehind⟩)
    · exact ⟨[], t, ts, rfl, hbrace, hbehind⟩
    · exact ⟨t :: before, brace, behind, rfl, hbrace, hbehind⟩

instance Token.decidableUnclosed : (ts : List Token) → Decidable (Unclosed ts)
  | [] => isFalse fun ⟨_, _, _, heq, _⟩ => by simp at heq
  | _ :: ts =>
    have := decidableUnclosed ts
    decidable_of_iff' _ unclosed_cons

theorem Token.Unclosed.prepend {ts : List Token} (h : Unclosed ts) (us : List Token) :
    Unclosed (us ++ ts) := by
  obtain ⟨before, brace, behind, rfl, hbrace, hbehind⟩ := h
  exact ⟨us ++ before, brace, behind, by simp, hbrace, hbehind⟩

abbrev Stretch := Language Token

namespace Stretch
variable {S T : Stretch} {us vs : List Token}

/-- What stands within braces. -/
def entry : Stretch := {us | ∀ t ∈ us, t.kind ≠ .closeBrace}

/-- The word before an open brace, and the brace. -/
def opening : Stretch :=
  {us | ∃ word brace, us = [word, brace] ∧ word.kind ≠ .semicolon ∧ brace.kind = .openBrace}

/-- Semicolons stand within braces only. -/
def body : Stretch :=
  {us | ∀ before s behind, us = before ++ s :: behind → s.kind = .semicolon → Token.Unclosed before}

/-- A semicolon stands within braces, or it is the last token. -/
def ended : Stretch :=
  {us | ∀ before s behind, us = before ++ s :: behind → s.kind = .semicolon →
    Token.Unclosed before ∨ behind = []}

/-- The second token is an argument or an action, as behind the word that leads in a handler. -/
def Handles (ts : List Token) : Prop :=
  ∃ word t rest, ts = word :: t :: rest ∧ (t.kind = .bracket ∨ t.kind = .action)

def handlers : Stretch := {us | us ∈ body ∧ (us = [] ∨ Handles us)}

/-- A semicolon stands within braces, or it is the last token but for those of handlers. -/
def settled : Stretch :=
  {us | ∀ before s behind, us = before ++ s :: behind → s.kind = .semicolon →
    Token.Unclosed before ∨ behind = [] ∨ Handles behind}

/-- The stretches of `S` that are not empty. -/
def proper (S : Stretch) : Stretch := {us | us ∈ S ∧ us ≠ []}

/-- A token of the kind may follow a stretch of `S`. -/
def Takes (S : Stretch) (kind : Token.Kind) (T : Stretch) : Prop :=
  ∀ us ∈ S, ∀ t : Token, t.kind = kind → us ++ [t] ∈ T

theorem nil_mem_entry : [] ∈ entry := by
  intro t ht
  cases ht

theorem nil_mem_body : [] ∈ body := by
  intro before s behind h
  simp at h

/-- A token of two stretches put together is one of the first or one of the second. -/
theorem split_append {before behind : List Token} {s : Token}
    (h : us ++ vs = before ++ s :: behind) :
    (∃ ws, us = before ++ s :: ws ∧ behind = ws ++ vs) ∨
      ∃ ws, before = us ++ ws ∧ vs = ws ++ s :: behind := by
  rcases List.append_eq_append_iff.1 h with ⟨ws, hbefore, hvs⟩ | ⟨ws, hus, hbehind⟩
  · exact .inr ⟨ws, hbefore, hvs⟩
  · cases ws with
    | nil => exact .inr ⟨[], by simpa using hus.symm, by simpa using hbehind.symm⟩
    | cons w ws =>
      obtain ⟨rfl, rfl⟩ := List.cons.inj hbehind
      exact .inl ⟨ws, hus, rfl⟩

theorem body_mul_body : body * body ≤ body := by
  rintro _ ⟨us, hus, vs, hvs, rfl⟩ before s behind heq hs
  rcases split_append heq with ⟨ws, hus', -⟩ | ⟨ws, rfl, hvs'⟩
  · exact hus before s ws hus' hs
  · exact (hvs ws s behind hvs' hs).prepend us

theorem handlers_mul_handlers : handlers * handlers ≤ handlers := by
  rintro _ ⟨us, ⟨hus, hhead⟩, vs, ⟨hvs, hhead'⟩, rfl⟩
  refine ⟨body_mul_body (Language.append_mem_mul hus hvs), ?_⟩
  rcases hhead with rfl | ⟨word, t, rest, rfl, ht⟩
  · exact hhead'
  · exact .inr ⟨word, t, rest ++ vs, rfl, ht⟩

/-- Handlers may follow what has ended. -/
theorem ended_mul_handlers : ended * handlers ≤ settled := by
  rintro _ ⟨us, hus, vs, ⟨hvs, hhead⟩, rfl⟩ before s behind heq hs
  rcases split_append heq with ⟨ws, hus', rfl⟩ | ⟨ws, rfl, hvs'⟩
  · rcases hus before s ws hus' hs with hunclosed | rfl
    · exact .inl hunclosed
    · exact .inr hhead
  · exact .inl ((hvs ws s behind hvs' hs).prepend us)

theorem body_le_ended : body ≤ ended :=
  fun _ hus before s behind heq hs => .inl (hus before s behind heq hs)

theorem ended_le_settled : ended ≤ settled :=
  fun _ hus before s behind heq hs => (hus before s behind heq hs).imp_right .inl

theorem proper_le (S : Stretch) : S.proper ≤ S := fun _ hus => hus.1

theorem proper_mono (h : S ≤ T) : S.proper ≤ T.proper := fun _ hus => ⟨h hus.1, hus.2⟩

theorem proper_mul (S T : Stretch) : S.proper * T ≤ (S * T).proper := by
  rintro _ ⟨us, ⟨hus, hne⟩, vs, hvs, rfl⟩
  refine ⟨Language.append_mem_mul hus hvs, fun h => hne ?_⟩
  exact (List.append_eq_nil_iff.1 h).1

theorem entry_mul_entry : entry * entry ≤ entry := by
  rintro _ ⟨us, hus, vs, hvs, rfl⟩
  exact List.forall_mem_append.2 ⟨hus, hvs⟩

theorem proper_mul_handlers : ended.proper * handlers ≤ settled.proper :=
  (proper_mul _ _).trans (proper_mono ended_mul_handlers)

theorem nil_mem_handlers : [] ∈ handlers := ⟨nil_mem_body, .inl rfl⟩

theorem takes_entry {kind : Token.Kind} (h : kind ≠ .closeBrace) : Takes entry kind entry := by
  rintro us hus t rfl
  exact List.forall_mem_append.2 ⟨hus, by simpa using h⟩

theorem singleton_mem_body {t : Token} (h : t.kind ≠ .semicolon) : [t] ∈ body := by
  intro before s behind heq hs
  have hmem : s ∈ [t] := heq ▸ List.mem_append_right _ (.head _)
  rw [List.mem_singleton.1 hmem] at hs
  exact absurd hs h

theorem takes_body {kind : Token.Kind} (h : kind ≠ .semicolon) : Takes body kind body := by
  rintro us hus t rfl
  exact body_mul_body (Language.append_mem_mul hus (singleton_mem_body h))

theorem takes_proper {kind : Token.Kind} (h : Takes S kind T) : Takes S kind T.proper :=
  fun us hus t ht => ⟨h us hus t ht, by simp⟩

theorem Takes.proper {kind : Token.Kind} (h : Takes S kind T) : Takes S.proper kind T.proper :=
  fun us hus => takes_proper h us hus.1

theorem proper_mul_body : body.proper * body ≤ body.proper :=
  (proper_mul _ _).trans (proper_mono body_mul_body)

/-- A semicolon may end anything that has none outside of braces. -/
theorem takes_ended : Takes body .semicolon ended := by
  intro us hus t ht before s behind heq hs
  rcases split_append heq with ⟨ws, hus', -⟩ | ⟨ws, rfl, ht'⟩
  · exact .inl (hus before s ws hus' hs)
  · cases ws with
    | nil => exact .inr (List.cons.inj ht').2.symm
    | cons w ws => simp at ht'

theorem opening_le_proper : opening ≤ body.proper := by
  rintro _ ⟨word, brace, rfl, hword, hbrace⟩
  refine ⟨takes_body ?_ [word] (singleton_mem_body hword) brace rfl, nofun⟩
  rw [hbrace]
  nofun

theorem pair_mem_handlers {word t : Token} (hword : word.kind ≠ .semicolon)
    (ht : t.kind = .bracket ∨ t.kind = .action) : [word, t] ∈ handlers.proper := by
  refine ⟨⟨takes_body ?_ [word] (singleton_mem_body hword) t rfl, .inr ⟨word, t, [], rfl, ht⟩⟩, nofun⟩
  rcases ht with ht | ht <;> simp [ht]

theorem takes_handlers {kind : Token.Kind} (h : kind ≠ .semicolon) :
    Takes handlers.proper kind handlers.proper := by
  rintro us ⟨⟨hus, hhead⟩, hne⟩ t ht
  refine ⟨⟨takes_body h us hus t ht, ?_⟩, by simp⟩
  rcases hhead with rfl | ⟨word, u, rest, rfl, hu⟩
  · exact absurd rfl hne
  · exact .inr ⟨word, u, rest ++ [t], rfl, hu⟩

/-- What stands behind an open brace is within it. -/
theorem opening_mul_entry : opening * entry ≤ body.proper := by
  rintro _ ⟨_, ⟨word, brace, rfl, hword, hbrace⟩, us, hus, rfl⟩
  refine ⟨fun before s behind heq hs => ?_, nofun⟩
  cases before with
  | nil =>
    obtain ⟨rfl, -⟩ := List.cons.inj heq
    exact absurd hs hword
  | cons w before =>
    obtain ⟨-, heq⟩ := List.cons.inj heq
    cases before with
    | nil =>
      obtain ⟨rfl, -⟩ := List.cons.inj heq
      rw [hbrace] at hs
      cases hs
    | cons b before =>
      obtain ⟨rfl, rfl⟩ := List.cons.inj heq
      exact ⟨[w], brace, before, rfl, hbrace, (List.forall_mem_append.1 hus).1⟩

end Stretch

/-! ## Passages -/

/-- Nodes of kind `error` start where a fault was found. -/
def Node.Witnessed (faults : List Fault) (n : Node) : Prop :=
  n.kind = .error → ∃ f ∈ faults, f.location.start = n.location.start

theorem Node.Everywhere.mono {P Q : Node → Prop} (hPQ : ∀ n, P n → Q n) {n : Node}
    (h : n.Everywhere P) : n.Everywhere Q := by
  induction h with
  | mk hn _ ih => exact .mk (hPQ _ hn) ih

/-- Something was nested too deep to be read. -/
def Fault.isTooDeep (f : Fault) : Bool :=
  match f.cause with
  | .tooDeep _ => true
  | _ => false

def Cursor.Overdeep (c : Cursor) : Prop := ∃ f ∈ c.faults, f.isTooDeep

theorem Cursor.Overdeep.mono {c c' : Cursor} (h : c.Overdeep) (hfaults : c.faults <:+ c'.faults) :
    c'.Overdeep := by
  obtain ⟨f, hf, hdeep⟩ := h
  exact ⟨f, hfaults.subset hf, hdeep⟩

structure Passage (S : Stretch) (c : Cursor) (L : Shape) (ns : List Node) (c' : Cursor) : Prop where
  regular : c'.Regular
  faults : c.faults <:+ c'.faults
  witnessed : ∀ n ∈ ns, n.Everywhere (Node.Witnessed c'.faults)
  course : ∃ us, c.ahead = us ++ c'.ahead ∧ (us ∈ S ∨ us ≠ [] ∧ c'.Overdeep) ∧
    (c'.faults = c.faults → ∃ items ∈ L, Item.nodes items = ns ∧ Derives items us)

namespace Passage
variable {S T U : Stretch} {c c₁ c₂ : Cursor} {L M : Shape} {ns ms : List Node} {t : Token}
  {ts : List Token}

theorem start (hc : c.Regular) (hS : [] ∈ S) : Passage S c 1 [] c :=
  ⟨hc, List.suffix_rfl, by simp, [], rfl, .inl hS, fun _ => ⟨[], Language.nil_mem_one, rfl, .nil⟩⟩

theorem mono (h : Passage S c L ns c₁) (hS : S ≤ T) (hL : L ≤ M) : Passage T c M ns c₁ := by
  obtain ⟨us, ha, hus, hshape⟩ := h.course
  refine ⟨h.regular, h.faults, h.witnessed, us, ha, hus.imp_left (@hS us), fun hclean => ?_⟩
  obtain ⟨items, hitems, hrest⟩ := hshape hclean
  exact ⟨items, hL hitems, hrest⟩

/-- Nothing more is said about the shape of what was read once a fault was found. -/
theorem failed (h : Passage S c 0 ns c₁) : Passage S c L ns c₁ :=
  h.mono le_rfl zero_le

theorem trans (h : Passage S c L ns c₁) (h' : Passage T c₁ M ms c₂) (hU : S * T ≤ U) :
    Passage U c (L * M) (ns ++ ms) c₂ := by
  obtain ⟨us, ha, hus, hshape⟩ := h.course
  obtain ⟨vs, hb, hvs, hshape'⟩ := h'.course
  refine ⟨h'.regular, h.faults.trans h'.faults, ?_, us ++ vs, ?_, ?_, fun hclean => ?_⟩
  · refine List.forall_mem_append.2 ⟨fun n hn => ?_, h'.witnessed⟩
    refine (h.witnessed n hn).mono fun m hm hk => ?_
    obtain ⟨f, hf, hstart⟩ := hm hk
    exact ⟨f, h'.faults.subset hf, hstart⟩
  · rw [ha, hb, List.append_assoc]
  · rcases hus with hus | ⟨hne, hdeep⟩
    · rcases hvs with hvs | ⟨hne, hdeep⟩
      · exact .inl (hU (Language.append_mem_mul hus hvs))
      · exact .inr ⟨List.append_ne_nil_of_right_ne_nil us hne, hdeep⟩
    · exact .inr ⟨List.append_ne_nil_of_left_ne_nil hne vs, hdeep.mono h'.faults⟩
  · -- If nothing was reported in all, nothing was on either way.
    have hfirst : c₁.faults = c.faults := by
      have hle := h'.faults.length_le
      rw [hclean] at hle
      exact (h.faults.eq_of_length_le hle).symm
    obtain ⟨items, hitems, rfl, hderives⟩ := hshape hfirst
    obtain ⟨more, hmore, rfl, hderives'⟩ := hshape' (hclean.trans hfirst.symm)
    exact ⟨items ++ more, Language.append_mem_mul hitems hmore, Item.nodes_append _ _,
      hderives.append hderives'⟩

theorem length_le (h : Passage S c L ns c₁) : c₁.ahead.length ≤ c.ahead.length := by
  obtain ⟨us, ha, -⟩ := h.course
  rw [ha, List.length_append]
  omega

/-- Something was read if fewer tokens are ahead. -/
theorem proper (h : Passage S c L ns c₁) (hlt : c₁.ahead.length < c.ahead.length) :
    Passage S.proper c L ns c₁ := by
  obtain ⟨us, ha, hus, hshape⟩ := h.course
  have hne : us ≠ [] := by
    rintro rfl
    rw [ha, List.nil_append] at hlt
    omega
  exact ⟨h.regular, h.faults, h.witnessed, us, ha, hus.imp_left (⟨·, hne⟩), hshape⟩

theorem length_lt (h : Passage S.proper c L ns c₁) : c₁.ahead.length < c.ahead.length := by
  obtain ⟨us, ha, hus, -⟩ := h.course
  have hne : us ≠ [] := by
    rcases hus with hus | hus
    · exact hus.2
    · exact hus.1
  have := List.length_pos_of_ne_nil hne
  rw [ha, List.length_append]
  omega

/-- The next token is read. -/
theorem next {F : Shape} (hc : c.Regular) (ha : c.ahead = t :: ts) (hF : [.token t] ∈ F)
    (hS : [t] ∈ S) : Passage S c F [] (c.after t ts) :=
  ⟨hc.after ha, List.suffix_rfl, by simp, [t], ha, .inl hS,
    fun _ => ⟨[.token t], hF, rfl, .token t .nil⟩⟩

theorem token {F : Shape} (h : Passage S c L ns c₁) (ha : c₁.ahead = t :: ts)
    (hF : [.token t] ∈ F) (hT : S.Takes t.kind T) : Passage T c (L * F) ns (c₁.after t ts) := by
  have hone : Passage {[t]} c₁ F [] (c₁.after t ts) := next h.regular ha hF rfl
  have htrans := h.trans hone (U := T) ?_
  · rwa [List.append_nil] at htrans
  · rintro _ ⟨us, hus, _, rfl, rfl⟩
    exact hT us hus t rfl

theorem report (h : Passage S c L ns c₁) (cause : Fault.Cause) (l : Location) :
    Passage S c 0 ns (c₁.report cause l) := by
  obtain ⟨us, ha, hus, -⟩ := h.course
  have hsuffix : c₁.faults <:+ (c₁.report cause l).faults := List.suffix_cons _ _
  refine ⟨h.regular.report cause l, h.faults.trans hsuffix, fun n hn => ?_, us, ha, ?_,
    fun hclean => ?_⟩
  · refine (h.witnessed n hn).mono fun m hm hk => ?_
    obtain ⟨f, hf, hstart⟩ := hm hk
    exact ⟨f, hsuffix.subset hf, hstart⟩
  · exact hus.imp_right fun ⟨hne, hdeep⟩ => ⟨hne, hdeep.mono hsuffix⟩
  · have hle := h.faults.length_le
    have hlength : c.faults.length = c₁.faults.length + 1 := by
      rw [← hclean]
      rfl
    omega

theorem reportMissing (h : Passage S c L ns c₁) (expected : String) :
    Passage S c 0 ns (c₁.reportMissing expected) :=
  h.report _ _

/-- All that was read goes into one node. -/
theorem closed (kind : Node.Kind) (h : Passage S c L ns c₁) (hL : L ≤ Shape.ofKind kind)
    (hk : kind ≠ .error) (l : Location) :
    Passage S c (Shape.node (· = kind)) [⟨kind, l, ns⟩] c₁ := by
  obtain ⟨us, ha, hus, hshape⟩ := h.course
  refine ⟨h.regular, h.faults, ?_, us, ha, hus, fun hclean => ?_⟩
  · exact List.forall_mem_singleton.2 (.mk (fun herror => absurd herror hk) h.witnessed)
  · obtain ⟨items, hitems, hnodes, hderives⟩ := hshape hclean
    refine ⟨[.node ⟨kind, l, ns⟩ true], ⟨_, rfl, rfl⟩, rfl, ?_⟩
    have hnode := Derives.node true (n := ⟨kind, l, ns⟩) (hL hitems) hderives hnodes .nil
    rwa [List.append_nil] at hnode

theorem weaken {P : Node.Kind → Prop} {kind : Node.Kind}
    (h : Passage S c (Shape.node (· = kind)) ns c₁) (hP : P kind) : Passage S c (Shape.node P) ns c₁ :=
  h.mono le_rfl (Shape.node_le hP)

/-- The tree may do without the node of what was read. -/
theorem aside {P : Node.Kind → Prop} {n : Node} (h : Passage S c (Shape.node P) [n] c₁) :
    Passage S c {w | ∃ m : Node, P m.kind ∧ w = [.node m false]} [] c₁ := by
  obtain ⟨us, ha, hus, hshape⟩ := h.course
  refine ⟨h.regular, h.faults, by simp, us, ha, hus, fun hclean => ?_⟩
  obtain ⟨_, ⟨m, hm, rfl⟩, -, hderives⟩ := hshape hclean
  refine ⟨[.node m false], ⟨m, hm, rfl⟩, rfl, ?_⟩
  cases hderives with
  | node _ hkind hsub hchildren hrest => exact .node false hkind hsub hchildren hrest

/-- A node that stands for what is wrong starts where a fault was found. -/
theorem error (h : Passage S c 0 ns c₁) {l : Location}
    (hf : ∃ f ∈ c₁.faults, f.location.start = l.start) :
    Passage S c L (ns ++ [⟨.error, l, []⟩]) c₁ := by
  obtain ⟨us, ha, hus, hshape⟩ := h.course
  refine ⟨h.regular, h.faults, ?_, us, ha, hus, fun hclean => ?_⟩
  · exact List.forall_mem_append.2
      ⟨h.witnessed, List.forall_mem_singleton.2 (.mk (fun _ => hf) (by simp))⟩
  · obtain ⟨items, hitems, -⟩ := hshape hclean
    exact hitems.elim

end Passage

/-! ## Steps of the parser -/

namespace Shape
variable {L M : Shape}

theorem le_mul_perhaps (L M : Shape) : L ≤ L * perhaps M := by
  rw [perhaps, mul_add, mul_one]
  exact le_self_add

theorem mul_le_mul_perhaps (L M : Shape) : L * M ≤ L * perhaps M := by
  rw [perhaps, mul_add]
  exact le_add_self

theorem le_mul_kstar (L M : Shape) : L ≤ L * M∗ :=
  le_mul_of_one_le_right' one_le_kstar

theorem mul_kstar_mul_le (L M : Shape) : L * M∗ * M ≤ L * M∗ := by
  rw [mul_assoc]
  exact mul_le_mul_right kstar_mul_le_kstar L

end Shape

namespace ParseM
variable {α : Type} {p : ParseM α} {turn : ParseM (Option Node × Bool)} {c : Cursor}

theorem wp_reportMissing {Q : Unit → Cursor → Prop} (expected : String) :
    wp (reportMissing expected) Q c ↔ Q () (c.reportMissing expected) := Iff.rfl

theorem wp_reportAt {Q : Unit → Cursor → Prop} (cause : Fault.Cause) (t : Token) :
    wp (reportAt cause t) Q c ↔ Q () (c.report cause t.location) := Iff.rfl

/-- What every turn keeps, a loop keeps. -/
theorem wp_gather_of_invariant {I : List Node → Cursor → Prop}
    (hturn : ∀ ns c, I ns c → wp turn (fun r c' => I (ns ++ r.1.toList) c') c) (h : I [] c) :
    wp (gather turn) I c := by
  have hcollect (turns : Nat) {ns : List Node} {c : Cursor} (h : I ns c) :
      wp (collect turn turns) (fun ms c' => I (ns ++ ms) c') c := by
    induction turns generalizing ns c with
    | zero => simpa [collect, wp_pure] using h
    | succ turns ih =>
      unfold collect
      simp only [wp_bind, wp_ite, wp_pure]
      refine wp_mono (hturn ns c h) fun (node?, more) c₁ h₁ => ?_
      dsimp only at h₁ ⊢
      split
      · refine wp_mono (ih h₁) fun ms c₂ h₂ => ?_
        rwa [← List.append_assoc]
      · rwa [List.append_nil]
  exact hcollect (c.ahead.length + 1) h

/-- A loop goes on until a turn says that it was the last, if every other turn reads a token. -/
theorem wp_gather_of_progress {I Q : List Node → Cursor → Prop}
    (hturn : ∀ ns c, I ns c → wp turn (fun r c' =>
      if r.2 then I (ns ++ r.1.toList) c' ∧ c'.ahead.length < c.ahead.length
      else Q (ns ++ r.1.toList) c') c)
    (h : I [] c) : wp (gather turn) Q c := by
  have hcollect (turns : Nat) {ns : List Node} {c : Cursor} (h : I ns c)
      (hturns : c.ahead.length < turns) :
      wp (collect turn turns) (fun ms c' => Q (ns ++ ms) c') c := by
    induction turns generalizing ns c with
    | zero => omega
    | succ turns ih =>
      unfold collect
      simp only [wp_bind, wp_ite, wp_pure]
      refine wp_mono (hturn ns c h) fun r c₁ h₁ => ?_
      obtain ⟨node?, more⟩ := r
      cases more with
      | true =>
        obtain ⟨h₁, hlength⟩ := h₁
        rw [if_pos rfl]
        refine wp_mono (ih h₁ (by omega)) fun ms c₂ h₂ => ?_
        rwa [← List.append_assoc]
      | false => simpa using h₁
  exact hcollect (c.ahead.length + 1) h (by omega)

/-- A loop that goes on as long as its condition holds, and each of whose turns reads a token, ends
where the condition does not hold. -/
theorem wp_gatherWhile_of_progress {condition : List Token → Bool} {p : ParseM Node}
    {I : List Node → Cursor → Prop}
    (hturn : ∀ ns c, I ns c → condition c.ahead →
      wp p (fun n c' => I (ns ++ [n]) c' ∧ c'.ahead.length < c.ahead.length) c)
    (h : I [] c) :
    wp (gatherWhile condition p) (fun ns c' => I ns c' ∧ condition c'.ahead = false) c := by
  refine wp_gather_of_progress (fun ns c hI => ?_) h
  simp only [wp_bind, wp_sees, wp_ite, wp_pure]
  split
  · exact wp_mono (hturn ns c hI ‹_›) fun n c' h' => h'
  · rename_i hstop
    rw [Option.toList_none, List.append_nil]
    exact ⟨hI, Bool.eq_false_iff.2 hstop⟩

/-- From `c` on, `p` is a passage with the nodes that `nodes` takes out of its result. -/
def Forms (S : Stretch) (p : ParseM α) (L : α → Shape) (nodes : α → List Node) (c : Cursor) : Prop :=
  wp p (fun a c' => Passage S c (L a) (nodes a) c') c

end ParseM

namespace Passage
open ParseM
variable {α : Type} {p : ParseM α} {S T U : Stretch} {c c₁ c₂ : Cursor} {L M : Shape}
  {ns ms : List Node} {kind : Token.Kind}

theorem go {Q : α → Cursor → Prop} {M : α → Shape} {nodes : α → List Node} (h : Passage S c L ns c₁)
    (hp : Forms T p M nodes c₁) (hU : S * T ≤ U)
    (hQ : ∀ a c₂, Passage U c (L * M a) (ns ++ nodes a) c₂ → Q a c₂) : wp p Q c₁ :=
  hQ _ _ (h.trans hp hU)

theorem advance {Q : Token → Cursor → Prop} {F : Shape} (h : Passage S c L ns c₁)
    (ht : c₁.peek.kind ≠ .finish) (hF : [.token c₁.peek] ∈ F) (hT : S.Takes c₁.peek.kind T)
    (hQ : ∀ c₂, Passage T c (L * F) ns c₂ → c₂.ahead.length < c₁.ahead.length → Q c₁.peek c₂) :
    wp ParseM.advance Q c₁ := by
  obtain ⟨ts, ha⟩ := h.regular.ahead_of_peek ht
  refine wp_advance_of_ahead ha (hQ _ (h.token ha hF hT) ?_)
  rw [ha]
  exact Nat.lt_succ_self _

theorem sign {Q : Token → Cursor → Prop} (h : Passage S c L ns c₁) (hk : c₁.peek.kind = kind)
    (hne : kind ≠ .finish) (hT : S.Takes kind T)
    (hQ : ∀ c₂, Passage T c (L * Shape.sign kind) ns c₂ → Q c₁.peek c₂) : wp ParseM.advance Q c₁ :=
  h.advance (hk ▸ hne) (Shape.singleton_mem_token hk) (hk ▸ hT) fun c₂ h₂ _ => hQ c₂ h₂

theorem word {Q : Token → Cursor → Prop} {t : Token} {ts : List Token} {w : String}
    (h : Passage S c L ns c₁) (ha : c₁.ahead = t :: ts) (hw : t.isWord w)
    (hT : S.Takes .lowerName T)
    (hQ : Passage T c (L * Shape.word w) ns (c₁.after t ts) → Q t (c₁.after t ts)) :
    wp ParseM.advance Q c₁ := by
  have hkind := (Token.isWord_iff.1 hw).1
  exact wp_advance_of_ahead ha (hQ (h.token ha (Shape.singleton_mem_token hw) (hkind ▸ hT)))

/-- A name is read that has no node of its own. -/
theorem name {Q : Token → Cursor → Prop} (h : Passage S c L ns c₁) (hn : c₁.peek.isName)
    (hT : ∀ kind, kind.isName → S.Takes kind T)
    (hQ : ∀ c₂, Passage T c (L * Shape.named c₁.peek.text) ns c₂ → Q c₁.peek c₂) :
    wp ParseM.advance Q c₁ :=
  h.advance (Token.kind_ne_finish hn) (Shape.singleton_mem_token ⟨hn, rfl⟩) (hT _ hn)
    fun c₂ h₂ _ => hQ c₂ h₂

/-- A token is read that makes a node. -/
theorem leaf {Q : Token → Cursor → Prop} (kind : Node.Kind) (h : Passage S c L ns c₁)
    (ht : c₁.peek.kind ≠ .finish) (hkind : [.token c₁.peek] ∈ Shape.ofKind kind)
    (hne : kind ≠ .error) (hT : S.Takes c₁.peek.kind T)
    (hQ : ∀ c₂, Passage T c (L * Shape.node (· = kind)) (ns ++ [.leaf kind c₁.peek.location]) c₂ →
      Q c₁.peek c₂) :
    wp ParseM.advance Q c₁ := by
  obtain ⟨ts, ha⟩ := h.regular.ahead_of_peek ht
  have hone : Passage {[c₁.peek]} c₁ (Shape.ofKind kind) [] (c₁.after c₁.peek ts) :=
    next h.regular ha hkind rfl
  refine wp_advance_of_ahead ha (hQ _ (h.trans (hone.closed kind le_rfl hne _) ?_))
  rintro _ ⟨us, hus, _, rfl, rfl⟩
  exact hT us hus _ rfl

theorem identifier {Q : Token → Cursor → Prop} (h : Passage S c L ns c₁) (hn : c₁.peek.isName)
    (hT : ∀ kind, kind.isName → S.Takes kind T)
    (hQ : ∀ c₂, Passage T c (L * Shape.identifier) (ns ++ [ParseM.identifier c₁.peek]) c₂ →
      Q c₁.peek c₂) :
    wp ParseM.advance Q c₁ := by
  have hkind : [.token c₁.peek] ∈ Shape.ofKind (.identifier c₁.peek.text) :=
    ⟨c₁.peek, [], rfl, hn, .nil, by simp [Token.spelled]⟩
  refine h.leaf _ (Token.kind_ne_finish hn) hkind (by simp) (hT _ hn) fun c₂ h₂ => hQ c₂ ?_
  exact h₂.mono le_rfl (mul_le_mul_right (Shape.node_le (by rfl)) L)

theorem literal {Q : Token → Cursor → Prop} (h : Passage S c L ns c₁)
    (hk : c₁.peek.kind = .quoted ∨ c₁.peek.kind = .integer) (hT : S.Takes c₁.peek.kind T)
    (hQ : ∀ c₂, Passage T c (L * Shape.literal) (ns ++ [ParseM.literal c₁.peek]) c₂ →
      Q c₁.peek c₂) :
    wp ParseM.advance Q c₁ := by
  have hne : c₁.peek.kind ≠ .finish := by rcases hk with hk | hk <;> simp [hk]
  refine h.leaf (.literal c₁.peek.text) hne (Shape.singleton_mem_token ⟨hk, rfl⟩) nofun hT
    fun c₂ h₂ => hQ c₂ ?_
  exact h₂.mono le_rfl (mul_le_mul_right (Shape.node_le ⟨_, rfl⟩) L)

theorem accept {Q : Option Token → Cursor → Prop} (h : Passage S c L ns c₁) (hne : kind ≠ .finish)
    (hT : S.Takes kind T) (hnone : Q none c₁)
    (hsome : ∀ c₂, Passage T c (L * Shape.sign kind) ns c₂ → c₂.ahead.length < c₁.ahead.length →
      Q (some c₁.peek) c₂) :
    wp (ParseM.accept kind) Q c₁ :=
  wp_accept h.regular hnone fun hk =>
    h.advance (hk ▸ hne) (Shape.singleton_mem_token hk) (hk ▸ hT) hsome

/-- A token that may stand there is read if it does. -/
theorem perhaps {Q : Option Token → Cursor → Prop} (h : Passage S c L ns c₁) (hne : kind ≠ .finish)
    (hT : S.Takes kind S)
    (hQ : ∀ t? c₂, Passage S c (L * Shape.perhaps (Shape.sign kind)) ns c₂ → Q t? c₂) :
    wp (ParseM.accept kind) Q c₁ := by
  refine h.accept hne hT (hQ none c₁ (h.mono le_rfl (Shape.le_mul_perhaps _ _))) fun c₂ h₂ _ => ?_
  exact hQ _ c₂ (h₂.mono le_rfl (Shape.mul_le_mul_perhaps _ _))

theorem expect {Q : Option Token → Cursor → Prop} (h : Passage S c L ns c₁) (hne : kind ≠ .finish)
    (hT : S.Takes kind T) (hnone : ∀ c₂, Passage S c 0 ns c₂ → Q none c₂)
    (hsome : ∀ t c₂, Passage T c (L * Shape.sign kind) ns c₂ → Q (some t) c₂) :
    wp (ParseM.expect kind) Q c₁ := by
  unfold ParseM.expect
  simp only [wp_bind, wp_ite, wp_pure, wp_reportMissing]
  refine h.accept hne hT ?_ fun c₂ h₂ _ => ?_
  · exact hnone _ (h.reportMissing _)
  · exact hsome _ c₂ h₂

/-- Whether or not a token is found that must stand there, it belongs to the shape. -/
theorem need {Q : Option Token → Cursor → Prop} (h : Passage S c L ns c₁) (hne : kind ≠ .finish)
    (hT : S.Takes kind T) (hST : S ≤ T)
    (hQ : ∀ t? c₂, Passage T c (L * Shape.sign kind) ns c₂ → Q t? c₂) :
    wp (ParseM.expect kind) Q c₁ :=
  h.expect hne hT (fun c₂ h₂ => hQ _ c₂ (h₂.failed.mono hST le_rfl))
    fun _ c₂ h₂ => hQ _ c₂ h₂

theorem faults_skipWhile (cond : List Token → Bool) : (c.skipWhile cond).faults = c.faults := by
  have go (last? : Option Token) (ts : List Token) :
      (Cursor.skipWhile.go cond c last? ts).faults = c.faults := by
    induction ts generalizing last? with
    | nil => rfl
    | cons t ts ih =>
      unfold Cursor.skipWhile.go
      split
      · exact ih _
      · rfl
  exact go c.last? c.ahead

theorem skipWhile {cond : List Token → Bool} (h : Passage S c 0 ns c₁)
    (hcond : ∀ t ts, cond (t :: ts) → S.Takes t.kind S) : Passage S c 0 ns (c₁.skipWhile cond) := by
  have go (last? : Option Token) (ts : List Token)
      (h : Passage S c 0 ns { c₁ with last?, ahead := ts }) :
      Passage S c 0 ns (Cursor.skipWhile.go cond c₁ last? ts) := by
    induction ts generalizing last? with
    | nil => exact h
    | cons t ts ih =>
      unfold Cursor.skipWhile.go
      split
      · rename_i ht
        have hmem : [.token t] ∈ Shape.token fun _ => True := Shape.singleton_mem_token trivial
        have hnext := h.token rfl hmem (hcond t ts ht)
        rw [zero_mul] at hnext
        exact ih _ hnext
      · exact h
  exact go c₁.last? c₁.ahead h

theorem faults_skipRule : c.skipRule.faults = c.faults := by
  have go (first : Bool) (last? : Option Token) (ts : List Token) :
      (Cursor.skipRule.go c first last? ts).faults = c.faults := by
    induction ts generalizing first last? with
    | nil => rfl
    | cons t ts ih =>
      unfold Cursor.skipRule.go
      split
      · rfl
      split
      · rfl
      · exact ih _ _
  exact go true c.last? c.ahead

theorem length_skipRule (hne : c.ahead ≠ []) : c.skipRule.ahead.length < c.ahead.length := by
  have go (first : Bool) (last? : Option Token) (ts : List Token) :
      (Cursor.skipRule.go c first last? ts).ahead.length ≤ ts.length := by
    induction ts generalizing first last? with
    | nil => exact le_rfl
    | cons t ts ih =>
      unfold Cursor.skipRule.go
      split
      · exact Nat.le_succ _
      split
      · exact le_rfl
      · exact (ih _ _).trans (Nat.le_succ _)
  obtain ⟨t, ts, ha⟩ := List.exists_cons_of_ne_nil hne
  rw [Cursor.skipRule, ha]
  unfold Cursor.skipRule.go
  split
  · exact Nat.lt_succ_self _
  · exact Nat.lt_succ_of_le (go _ _ _)

/-- The rest of a rule is skipped with its semicolon. -/
theorem skipRule (h : Passage S c 0 ns c₁)
    (hbody : ∀ kind : Token.Kind, kind ≠ .semicolon → S.Takes kind S)
    (hended : S.Takes .semicolon T) (hST : S ≤ T) : Passage T c 0 ns c₁.skipRule := by
  have go (first : Bool) (last? : Option Token) (ts : List Token)
      (h : Passage S c 0 ns { c₁ with last?, ahead := ts }) :
      Passage T c 0 ns (Cursor.skipRule.go c₁ first last? ts) := by
    induction ts generalizing first last? with
    | nil => exact h.mono hST le_rfl
    | cons t ts ih =>
      have hmem : [.token t] ∈ Shape.token fun _ => True := Shape.singleton_mem_token trivial
      unfold Cursor.skipRule.go
      split
      · rename_i ht
        have hnext := h.token rfl hmem (ht ▸ hended)
        rwa [zero_mul] at hnext
      · rename_i ht
        split
        · exact h.mono hST le_rfl
        · have hnext := h.token rfl hmem (hbody _ ht)
          rw [zero_mul] at hnext
          exact ih _ _ hnext
  exact go true c₁.last? c₁.ahead h

/-- What was nested too deep is skipped without regard to semicolons. -/
theorem skipParens (h : Passage S.proper c 0 ns c₁) (hdeep : c₁.Overdeep) :
    Passage T c 0 ns c₁.skipParens ∧ c₁.skipParens.faults = c₁.faults := by
  have go (depth : Nat) (last? : Option Token) (ts : List Token)
      (h : Passage (⊤ : Stretch).proper c 0 ns { c₁ with last?, ahead := ts }) :
      Passage (⊤ : Stretch).proper c 0 ns (Cursor.skipParens.go c₁ depth last? ts) ∧
        (Cursor.skipParens.go c₁ depth last? ts).faults = c₁.faults := by
    induction ts generalizing depth last? with
    | nil => exact ⟨h, rfl⟩
    | cons t ts ih =>
      have hnext : Passage (⊤ : Stretch).proper c 0 ns { c₁ with last? := some t, ahead := ts } := by
        have hread := h.token rfl (Shape.singleton_mem_token (P := fun _ => True) trivial)
          (T := (⊤ : Stretch).proper) fun _ _ _ _ => ⟨trivial, by simp⟩
        rwa [zero_mul] at hread
      unfold Cursor.skipParens.go
      split
      · exact ih _ _ hnext
      · exact ⟨hnext, rfl⟩
      · exact ih _ _ hnext
      · exact ih _ _ hnext
  obtain ⟨hskipped, hfaults⟩ := go 0 c₁.last? c₁.ahead (h.mono (Stretch.proper_mono le_top) le_rfl)
  refine ⟨?_, hfaults⟩
  obtain ⟨us, ha, hus, hshape⟩ := hskipped.course
  have hne : us ≠ [] := by
    rcases hus with hus | hus
    · exact hus.2
    · exact hus.1
  refine ⟨hskipped.regular, hskipped.faults, hskipped.witnessed, us, ha, .inr ⟨hne, ?_⟩, hshape⟩
  exact hdeep.mono (hfaults ▸ List.suffix_rfl)

theorem gatherWhile {condition : List Token → Bool} {p : ParseM Node} {Q : List Node → Cursor → Prop}
    (h : Passage S c L ns c₁)
    (hp : ∀ c : Cursor, c.Regular → condition c.ahead →
      Forms T p (fun _ => M) (fun n => [n]) c) (hS : S * T ≤ S)
    (hQ : ∀ ms c₂, Passage S c (L * M∗) (ns ++ ms) c₂ → Q ms c₂) :
    wp (ParseM.gatherWhile condition p) Q c₁ := by
  have hstart : Passage S c (L * M∗) (ns ++ []) c₁ := by
    rw [List.append_nil]
    exact h.mono le_rfl (Shape.le_mul_kstar _ _)
  refine wp_mono (wp_gather_of_invariant (I := fun ms c₂ => Passage S c (L * M∗) (ns ++ ms) c₂)
    (fun ms c₂ h₂ => ?_) hstart) hQ
  simp only [wp_bind, wp_sees, wp_ite, wp_pure]
  split
  · rename_i hcond
    refine h₂.go (hp c₂ h₂.regular hcond) hS fun n c₃ h₃ => ?_
    rw [← List.append_assoc]
    exact h₃.mono le_rfl (Shape.mul_kstar_mul_le _ _)
  · rwa [Option.toList_none, List.append_nil]

/-- A loop whose turns read `M`, but for the last, which reads `E`. -/
theorem gather {turn : ParseM (Option Node × Bool)} {Q : List Node → Cursor → Prop} {E : Shape}
    (h : Passage S c L ns c₁) (hS : S * T ≤ S)
    (hturn : ∀ c : Cursor, c.Regular → wp turn (fun r c' =>
      if r.2 then Passage T c M r.1.toList c' ∧ c'.ahead.length < c.ahead.length
      else Passage T c E r.1.toList c') c)
    (hQ : ∀ ms c₂, Passage S c (L * (M∗ * E)) (ns ++ ms) c₂ → Q ms c₂) :
    wp (ParseM.gather turn) Q c₁ := by
  have hstart : Passage S c (L * M∗) (ns ++ []) c₁ := by
    rw [List.append_nil]
    exact h.mono le_rfl (Shape.le_mul_kstar _ _)
  refine wp_gather_of_progress (I := fun ms c₂ => Passage S c (L * M∗) (ns ++ ms) c₂)
    (fun ms c₂ h₂ => ?_) hstart
  refine wp_mono (hturn c₂ h₂.regular) fun (node?, more) c₃ h₃ => ?_
  cases more with
  | true =>
    obtain ⟨h₃, hlength⟩ := h₃
    refine ⟨?_, hlength⟩
    rw [← List.append_assoc]
    exact (h₂.trans h₃ hS).mono le_rfl (Shape.mul_kstar_mul_le _ _)
  | false =>
    refine hQ _ c₃ ?_
    rw [← List.append_assoc, ← mul_assoc]
    exact h₂.trans h₃ hS

end Passage

end GrammarAtlas
