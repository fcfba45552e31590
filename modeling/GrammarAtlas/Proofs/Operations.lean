import GrammarAtlas.Proofs.Refresh
import GrammarAtlas.Proofs.Replacement

/-! # Operations from outside

Each operation of a quiet session that is at rest comes to an end, and leaves the session sound and
at rest again (`Session.Standing.completes`). Texts are as the operations filed them
(`Operation.filed`), and a query is answered from the fresh analysis of its document. -/

namespace GrammarAtlas

/-- What an operation does to the texts of the registered documents. -/
def Operation.filed (texts : String → Option String) : Operation → String → Option String
  | update id text | query id (some text) _ => Function.update texts id (some text)
  | close id => Function.update texts id none
  | reset => fun _ => none
  | query _ none _ | refresh _ | freshness _ | documents | subscribe _ | unsubscribe _ | settings
  | summary => texts

namespace Session
variable {s s' : Session} {n m : Nat} {slot a b : Slot} {id d g text : String}
  {ledger : List Publication}

/-- The document is fresh, and `an` is its analysis. -/
structure Shows (s : Session) (id : String) (an : Analysis) : Prop where
  intro ::
  exists_slot : ∃ n slot, s.IsOpen n slot ∧ slot.id = id ∧ slot.isFresh = true ∧
    slot.published? = some an

/-- A state at rest between two operations. -/
structure Standing (ledger : List Publication) (s : Session) : Prop where
  sound : s.Sound ledger
  atRest : s.AtRest

theorem Standing.start (settings : Settings) (library? : Option Library) :
    (Session.start settings (library?.map (⟨·, []⟩))).Standing [] := by
  have hnone : ∀ {n slot}, ¬ (Session.start settings (library?.map (⟨·, []⟩))).IsOpen n slot := by
    intro n slot ho
    cases ho.get
  refine ⟨⟨Coherent.start _ _, ⟨?_, ?_⟩, fun _ _ ho => absurd ho hnone,
    fun _ _ ho => absurd ho hnone, fun _ _ _ ho => absurd ho hnone,
    fun _ _ _ ho => absurd ho hnone, fun _ _ _ ho => absurd ho hnone⟩, ?_⟩
  · intro e he
    cases he
  · intro host hh
    obtain ⟨library, -, rfl⟩ := Option.map_eq_some_iff.1 hh
    rfl
  · intro slot hs
    cases hs

theorem Standing.congr (h : s.Standing ledger) (hslots : s'.slots = s.slots) (hg : s'.graph = s.graph)
    (hset : s'.settings = s.settings) (hh : s'.host? = s.host?) (hq : s'.Quiet) :
    s'.Standing ledger := by
  have hsame : SameDocuments s s' :=
    ⟨by rw [hslots], by rw [hg], by rw [hg], hset, hh, fun n slot _ hr => by rw [Recorded, hg]; exact hr⟩
  refine ⟨h.sound.congr hsame hslots hg hq, ?_⟩
  rw [AtRest, hslots]
  exact h.atRest

theorem Standing.heard (h : s.Standing ledger) (handles : List Nat) :
    (s.heard handles).Standing ledger :=
  h.congr (heard_slots _) (heard_graph _) (heard_settings _) (heard_host? _) (h.sound.quiet.heard _)

theorem text?_heard (handles : List Nat) : (s.heard handles).text? = s.text? :=
  funext (text?_congr (by rw [heard_slots]))

theorem affected_covers (hc : s.Coherent) {t? : Option String} {e : String}
    (h : s.declared id = some e ∨ t? = some e) : e ∈ s.graph.affected id t? := by
  rw [ImportGraph.mem_affected, hc.mirrors.name]
  exact h

theorem setText_of_text? (h : s.text? id = some text) : s.setText id text = (s, false) := by
  obtain ⟨n, hn, ht⟩ := Option.bind_eq_some_iff.1 h
  obtain ⟨slot, ho, -⟩ := isOpen_of_slotOf? hn
  rw [ho.get, Option.map_some, Option.some.injEq] at ht
  simp [setText, hn, ho.get, Snapshot.hasText, ht]

/-- A new text takes the place of the one that was there, or registers the document. -/
theorem setText_cases (hne : s.text? id ≠ some text) :
    (s.setText id text).2 = true ∧
      ((∃ n slot, s.IsOpen n slot ∧ slot.id = id ∧ (s.setText id text).1.rename id text =
          (s.retext n slot.id text).invalidateReached id
            (s.graph.affected id (Grammar.sniffName? text)) none) ∨
        s.slotOf? id = none ∧ (s.setText id text).1.rename id text =
          (s.register id text).invalidateReached id
            (s.graph.affected id (Grammar.sniffName? text)) none) := by
  cases hn : s.slotOf? id with
  | none =>
    simp only [setText, hn]
    exact ⟨trivial, .inr ⟨trivial, rfl⟩⟩
  | some n =>
    obtain ⟨slot, ho, rfl⟩ := isOpen_of_slotOf? hn
    have hno : slot.latest.hasText text = false := by
      rw [text?, hn, Option.bind_some, ho.get] at hne
      simpa [Snapshot.hasText] using hne
    simp only [setText, hn, ho.get, hno, Option.map_some, Option.getD_some, Bool.false_eq_true,
      if_false]
    exact ⟨trivial, .inl ⟨n, slot, ho, rfl, rfl⟩⟩

theorem Standing.exists_replaces (h : s.Standing ledger) (hne : s.text? id ≠ some text) :
    ∃ s₁, Replaces s s₁ id (some text) ∧ (s.setText id text).2 = true ∧
      (s.setText id text).1.rename id text =
        s₁.invalidateReached id (s.graph.affected id (Grammar.sniffName? text)) none := by
  obtain ⟨hnew, ⟨n, slot, ho, rfl, hren⟩ | ⟨hn, hren⟩⟩ := setText_cases hne
  · exact ⟨_, replaces_retext h.sound ho text, hnew, hren⟩
  · exact ⟨_, replaces_register h.sound hn text, hnew, hren⟩

theorem parses_filed (s : Session) (id text : String) :
    ((s.setText id text).1.rename id text).1.parses = s.parses := by
  obtain ⟨slots, h⟩ := exists_foldl_invalidate _ _
  rw [Session.rename, invalidateReached, h, setText]
  split
  · split <;> rfl
  · rfl

/-- The text has been filed for the document, and nothing has been analysed since. -/
structure Receives (ledger : List Publication) (s s₁ : Session) (id text : String) : Prop where
  standing : s₁.Standing ledger
  settings : s₁.settings = s.settings
  host : s₁.host? = s.host?
  text : s₁.text? = Function.update s.text? id (some text)
  parses : s₁.parses = s.parses
  /-- A document that is fresh is the one that it was. -/
  fresh : ∀ m b, s₁.IsOpen m b → b.isFresh = true → s.IsOpen m b

theorem Standing.rename (h : s.Standing ledger) (hne : s.text? id ≠ some text) :
    (s.setText id text).2 = true ∧
      Receives ledger s ((s.setText id text).1.rename id text).1 id text := by
  have hc := h.sound.coherent
  obtain ⟨s₁, hr, hset, hren⟩ := h.exists_replaces hne
  have hparses := s.parses_filed id text
  rw [hren, invalidateReached_eq hr.unique] at hparses ⊢
  obtain ⟨hsound, hrest⟩ := h.sound.replace h.atRest hr fun e he => affected_covers hc he
  refine ⟨hset, ⟨hsound, hrest⟩, hr.settings, hr.host, ?_, hparses,
    fun m b hb hf => (hr.isOpen_of_isFresh h.sound hb hf).1⟩
  rw [← hr.text?_eq hc.unique]
  exact funext (text?_congr (map_tag_bump _))

theorem Receives.heard {s₁ : Session} (h : Receives ledger s s₁ id text) (handles : List Nat) :
    Receives ledger s (s₁.heard handles) id text := by
  refine ⟨h.standing.heard _, (heard_settings _).trans h.settings, (heard_host? _).trans h.host,
    (text?_heard _).trans h.text, (heard_parses _).trans h.parses, fun m b hb hf => ?_⟩
  have hget := hb.get
  rw [heard_slots] at hget
  exact h.fresh m b ⟨hget, hb.opened⟩ hf

theorem Standing.close (h : s.Standing ledger) (ho : s.IsOpen n slot) :
    ((s.drop n slot.id).invalidateReached slot.id (s.graph.name? slot.id).toList none).1.Standing
        ledger ∧
      ((s.drop n slot.id).invalidateReached slot.id (s.graph.name? slot.id).toList none).1.text? =
        Function.update s.text? slot.id none := by
  have hc := h.sound.coherent
  have hr := replaces_drop hc h.sound.quiet ho
  have hg : ∀ e, s.declared slot.id = some e ∨ (none : Option String).bind Grammar.sniffName? =
      some e → e ∈ (s.graph.name? slot.id).toList := by
    intro e he
    rw [hc.mirrors.name]
    simpa using he
  rw [invalidateReached_eq hr.unique]
  obtain ⟨hsound, hrest⟩ := h.sound.replace h.atRest hr hg
  refine ⟨⟨hsound, hrest⟩, ?_⟩
  rw [← hr.text?_eq hc.unique]
  exact funext (text?_congr (map_tag_bump _))

theorem Standing.reset (h : s.Standing ledger) :
    (s.documents.foldl dropNamed s).Standing ledger ∧
      (s.documents.foldl dropNamed s).text? = fun _ => none := by
  have he := emptied_foldl h.sound.coherent h.sound.quiet s.documents
  have hnone : ∀ {n slot}, ¬ (s.documents.foldl dropNamed s).IsOpen n slot := by
    intro n slot ho
    obtain ⟨ho, hni⟩ := he.isOpen n slot ho
    exact hni (mem_documents.2 ⟨n, slot, ho, rfl⟩)
  refine ⟨⟨⟨he.coherent, he.quiet, fun _ _ ho => absurd ho hnone, fun _ _ ho => absurd ho hnone,
    fun _ _ _ ho => absurd ho hnone, fun _ _ _ ho => absurd ho hnone,
    fun _ _ _ ho => absurd ho hnone⟩, he.atRest h.atRest⟩, ?_⟩
  funext id
  rw [text?, slotOf?_eq_none fun n slot ho => absurd ho hnone]
  rfl

theorem Later.atRest (h : Later none s s') (hrest : s.AtRest) : s'.AtRest := by
  intro b hb
  obtain ⟨m, hm⟩ := List.getElem?_of_mem hb
  have htag := getElem?_tag_congr h.tags m
  rw [hm, Option.map_some, eq_comm, Option.map_eq_some_iff] at htag
  obtain ⟨a, ha, -⟩ := htag
  rw [h.inFlight (by simp) ha hm]
  exact hrest a (List.mem_of_getElem? ha)

theorem Standing.leads_refresh (h : s.Standing ledger) (ho : s.IsOpen n slot)
    (next : Continuation .analysis) :
    ∃ ps s' an, Leads s (.refresh n none next) ps s' (.analysed an next) ∧
      s'.Standing (ledger ++ ps) ∧ Subsides s ps s' ∧ s'.Shows slot.id an := by
  have hreq : s.Awaited none := by rintro id ⟨⟩
  obtain ⟨ps, s', slot', hlead, hlater, hsub, hsound, ho', hfresh⟩ :=
    Session.leads_refresh s.idle.card le_rfl h.sound ho hreq next
  have hrest := hlater.atRest h.atRest
  rcases hfresh with hf | hfresh
  · rw [hrest.isOpen ho'] at hf
    cases hf
  obtain ⟨an, han, -⟩ := Slot.isFresh_iff.1 hfresh
  have hid : slot'.id = slot.id := by
    obtain ⟨b, hb, htag⟩ := hlater.isOpen ho
    rw [ho'.eq hb]
    exact congrArg (·.1) htag
  refine ⟨ps, s', an, ?_, ⟨hsound, hrest⟩, hsub, ⟨n, slot', ho', hid, hfresh, han⟩⟩
  have hcur : slot'.current = an := by rw [Slot.current, han]; rfl
  rwa [hcur] at hlead

theorem SameDocuments.text? (h : SameDocuments s s') : s'.text? = s.text? :=
  funext (text?_congr h.tags)

theorem slotOf?_of_text? (h : s.text? id = some text) : ∃ n, s.slotOf? id = some n := by
  obtain ⟨n, hn, -⟩ := Option.bind_eq_some_iff.1 h
  exact ⟨n, hn⟩

theorem mem_documents_of_text? (h : s.text? id = some text) : id ∈ s.documents := by
  obtain ⟨n, hn⟩ := slotOf?_of_text? h
  obtain ⟨slot, ho, rfl⟩ := isOpen_of_slotOf? hn
  exact mem_documents.2 ⟨n, slot, ho, rfl⟩

/-- What it is for an operation to be performed. -/
def Completes (ledger : List Publication) (s : Session) (operation : Operation) (r : Reply)
    (s' : Session) : Prop :=
  ∃ ps, Leads s (.perform operation .stop) ps s' (.replied r .stop) ∧ s'.Standing (ledger ++ ps) ∧
    s'.settings = s.settings ∧ s'.host? = s.host? ∧ s'.text? = operation.filed s.text?

theorem Standing.leads_answer (h : s.Standing ledger) (hn : s.slotOf? id = some n) (query : Query)
    (next : Continuation .reply) :
    ∃ ps s' an, Leads s (.refresh n none (.answer query next)) ps s'
        (.replied (query.answer an) next) ∧
      s'.Standing (ledger ++ ps) ∧ Subsides s ps s' ∧ s'.Shows id an := by
  obtain ⟨slot, ho, rfl⟩ := isOpen_of_slotOf? hn
  obtain ⟨ps, s', an, hlead, hs', hsub, hshows⟩ := h.leads_refresh ho (.answer query next)
  have hreply : Leads s' (.analysed an (.answer query next)) [] s' (.replied (query.answer an) next) :=
    .one rfl rfl
  refine ⟨ps, s', an, ?_, hs', hsub, hshows⟩
  rw [← List.append_nil ps]
  exact hlead.trans hreply

theorem Standing.leads_file (h : s.Standing ledger) (id text : String) :
    ∃ s₁ reached, Receives ledger s s₁ id text ∧
      ((s.setText id text).1.rename id text = (s₁, reached) ∧ (s.setText id text).2 = true ∨
        s.setText id text = (s₁, false) ∧ reached = false) := by
  by_cases ht : s.text? id = some text
  · refine ⟨s, false, ⟨h, rfl, rfl, ?_, rfl, fun _ _ hb _ => hb⟩,
      .inr ⟨setText_of_text? ht, rfl⟩⟩
    rw [Function.update_eq_self_iff.2 ht.symm]
  · obtain ⟨hset, hr⟩ := h.rename ht
    exact ⟨_, _, hr, .inl ⟨rfl, hset⟩⟩

theorem begin_update (s : Session) (id text : String) (next : Continuation .reply) :
    s.begin next (.update id text) =
      if (s.setText id text).2 then
        (((s.setText id text).1.rename id text).1,
          .notifyIf ((s.setText id text).1.rename id text).1
            ((s.setText id text).1.rename id text).2 (.reply (.flag true) next))
      else ((s.setText id text).1, .replied (.flag false) next) := rfl

theorem begin_query (s : Session) (id text : String) (query : Query) (next : Continuation .reply) :
    s.begin next (.query id (some text) query) =
      if (s.setText id text).2 then
        (((s.setText id text).1.rename id text).1,
          .notifyIf ((s.setText id text).1.rename id text).1
            ((s.setText id text).1.rename id text).2 (.consult id text query next))
      else ((s.setText id text).1, .finished (.consult id text query next)) := rfl

/-- A text is filed without an analysis. -/
theorem Standing.leads_update (h : s.Standing ledger) (id text : String) :
    ∃ r s', Leads s (.perform (.update id text) .stop) [] s' (.replied r .stop) ∧
      Receives ledger s s' id text := by
  obtain ⟨s₁, reached, hr, ⟨hren, hnew⟩ | ⟨hold, -⟩⟩ := h.leads_file id text
  · have hstep : s.step (.perform (.update id text) .stop) =
        (s₁, .notifyIf s₁ reached (.reply (.flag true) .stop)) := by
      rw [step, begin_update, if_pos hnew, hren]
    exact ⟨.flag true, _,
      .next hstep rfl ((hr.standing.sound.quiet.leads_notifyIf reached _).trans (.one rfl rfl)),
      hr.heard (if reached then s₁.subscribers else [])⟩
  · refine ⟨.flag false, s₁, .one ?_ rfl, hr⟩
    rw [step, begin_update, hold, if_neg (by simp)]

theorem Standing.completes_update (h : s.Standing ledger) (id text : String) :
    ∃ r s', Completes ledger s (.update id text) r s' := by
  obtain ⟨r, s', hlead, hr⟩ := h.leads_update id text
  exact ⟨r, s', [], hlead, by rw [List.append_nil]; exact hr.standing, hr.settings, hr.host, hr.text⟩

/-- Once the text of a query has been filed, the document is looked up. -/
theorem Standing.leads_consult (h : s.Standing ledger) (id text : String) (query : Query)
    (next : Continuation .reply) :
    ∃ s₁ n, Leads s (.perform (.query id (some text) query) next) [] s₁
        (.refresh n none (.answer query next)) ∧
      Receives ledger s s₁ id text ∧ s₁.slotOf? id = some n := by
  obtain ⟨s₁, reached, hr, hcases⟩ := h.leads_file id text
  have hr' := hr.heard (if reached then s₁.subscribers else [])
  obtain ⟨n, hn⟩ := slotOf?_of_text? ((congrFun hr'.text id).trans (Function.update_self ..))
  have hfinished : Leads s (.perform (.query id (some text) query) next) []
      (s₁.heard (if reached then s₁.subscribers else [])) (.finished (.consult id text query next)) := by
    rcases hcases with ⟨hren, hnew⟩ | ⟨hold, rfl⟩
    · refine .next ?_ rfl (hr.standing.sound.quiet.leads_notifyIf reached _)
      rw [step, begin_query, if_pos hnew, hren]
    · refine .one ?_ rfl
      rw [step, begin_query, hold, if_neg (by simp)]
      rfl
  refine ⟨_, n, hfinished.trans (.one ?_ rfl), hr', hn⟩
  rw [step, resume, hn]

theorem Standing.completes_query (h : s.Standing ledger) (id : String) (text? : Option String)
    (query : Query) (hreg : text? = none → ∃ n, s.slotOf? id = some n) :
    ∃ an s', Completes ledger s (.query id text? query) (query.answer an) s' ∧ s'.Shows id an := by
  cases text? with
  | none =>
    obtain ⟨n, hn⟩ := hreg rfl
    obtain ⟨ps, s', an, hlead, hs', hsame, hshows⟩ := h.leads_answer hn query .stop
    refine ⟨an, s', ⟨ps, .next ?_ rfl hlead, hs', hsame.settings, hsame.host, hsame.text?⟩, hshows⟩
    rw [step, begin, hn]
  | some text =>
    obtain ⟨s₁, n, hconsult, hr, hn⟩ := h.leads_consult id text query .stop
    obtain ⟨ps, s', an, hlead, hs', hsame, hshows⟩ := hr.standing.leads_answer hn query .stop
    exact ⟨an, s', ⟨ps, hconsult.trans hlead, hs', hsame.settings.trans hr.settings,
      hsame.host.trans hr.host, hsame.text?.trans hr.text⟩, hshows⟩

/-- On the way from `s` to `s'` there was a state at rest in which the document was fresh, and `an`
was its analysis. -/
structure Sighted (ledger : List Publication) (s s' : Session) (id : String) (an : Analysis) :
    Prop where
  intro ::
  exists_moment : ∃ ps s₁ qs, Subsides s ps s₁ ∧ s₁.Standing (ledger ++ ps) ∧ s₁.Shows id an ∧
    Subsides s₁ qs s'

namespace Sighted
variable {s₁ : Session} {an : Analysis} {ps : List Publication}

theorem last (hsub : Subsides s ps s') (hs' : s'.Standing (ledger ++ ps)) (h : s'.Shows id an) :
    Sighted ledger s s' id an :=
  ⟨ps, s', [], hsub, hs', h, .refl s'⟩

theorem after (hsub : Subsides s ps s₁) (h : Sighted (ledger ++ ps) s₁ s' id an) :
    Sighted ledger s s' id an := by
  obtain ⟨qs, s₂, rs, hsub₁, hs₂, hshows, hsub₂⟩ := h
  refine ⟨ps ++ qs, s₂, rs, hsub.trans hsub₁, ?_, hshows, hsub₂⟩
  rwa [← List.append_assoc]

theorem before (h : Sighted ledger s s₁ id an) (hsub : Subsides s₁ ps s') :
    Sighted ledger s s' id an := by
  obtain ⟨qs, s₂, rs, hsub₁, hs₂, hshows, hsub₂⟩ := h
  exact ⟨qs, s₂, rs ++ ps, hsub₁, hs₂, hshows, hsub₂.trans hsub⟩

end Sighted

theorem Standing.leads_refreshEach (h : s.Standing ledger) (ready : List (Except String Analysis))
    (ids : List String) (next : Continuation .reply) :
    ∃ ps s' rest, Leads s (.refreshAll ready ids next) ps s' (.replied (.refreshed (ready ++ rest)) next) ∧
      s'.Standing (ledger ++ ps) ∧ Subsides s ps s' ∧
      List.Forall₂ (fun id result => (s.slotOf? id = none ∧ result = .error id) ∨
        (s.slotOf? id).isSome ∧ ∃ an, result = .ok an ∧ Sighted ledger s s' id an) ids rest := by
  induction ids generalizing s ledger ready with
  | nil =>
    rw [← List.append_nil ledger] at h
    exact ⟨[], s, [], .one (by rw [List.append_nil]; rfl) rfl, h, .refl s, .nil⟩
  | cons id ids ih =>
    cases hn : s.slotOf? id with
    | none =>
      have hstep : s.step (.refreshAll ready (id :: ids) next) =
          (s, .refreshAll (ready ++ [.error id]) ids next) := by
        simp only [step, hn]
      obtain ⟨ps, s', rest, hlead, hs', hsub, hrest⟩ := ih h (ready ++ [.error id])
      rw [List.append_assoc, List.singleton_append] at hlead
      exact ⟨ps, s', .error id :: rest, .next hstep rfl hlead, hs', hsub,
        .cons (.inl ⟨hn, rfl⟩) hrest⟩
    | some n =>
      obtain ⟨slot, ho, rfl⟩ := isOpen_of_slotOf? hn
      obtain ⟨ps, s₁, an, hlead₁, hs₁, hsub₁, hshows⟩ := h.leads_refresh ho (.refreshRest ready ids next)
      obtain ⟨qs, s', rest, hlead, hs', hsub, hrest⟩ := ih hs₁ (ready ++ [.ok an])
      rw [List.append_assoc, List.singleton_append] at hlead
      have hstep : s.step (.refreshAll ready (slot.id :: ids) next) =
          (s, .refresh n none (.refreshRest ready ids next)) := by
        simp only [step, hn]
      refine ⟨ps ++ qs, s', .ok an :: rest, .next hstep rfl (hlead₁.trans (.next rfl rfl hlead)), ?_,
        hsub₁.trans hsub, .cons (.inr ⟨by rw [hn]; rfl, an, rfl, ?_⟩) (hrest.imp fun id result hr => ?_)⟩
      · rwa [← List.append_assoc]
      · exact (Sighted.last hsub₁ hs₁ hshows).before hsub
      · rw [slotOf?_congr hsub₁.tags] at hr
        refine hr.imp_right ?_
        rintro ⟨hid, an, hr, hsight⟩
        exact ⟨hid, an, hr, hsight.after hsub₁⟩

theorem Standing.leads_refreshAll (Q : String → Analysis → Prop) (h : s.Standing ledger)
    (hQ : ∀ s' ledger' id an, s'.Standing ledger' → SameDocuments s s' → s'.Shows id an → Q id an)
    (ready : List (Except String Analysis)) (ids : List String) (next : Continuation .reply) :
    ∃ ps s' rest, Leads s (.refreshAll ready ids next) ps s' (.replied (.refreshed (ready ++ rest)) next) ∧
      s'.Standing (ledger ++ ps) ∧ SameDocuments s s' ∧
      List.Forall₂ (fun id result => (s.slotOf? id = none ∧ result = .error id) ∨
        (s.slotOf? id).isSome ∧ ∃ an, result = .ok an ∧ Q id an) ids rest := by
  obtain ⟨ps, s', rest, hlead, hs', hsub, hrest⟩ := h.leads_refreshEach ready ids next
  refine ⟨ps, s', rest, hlead, hs', hsub.toSameDocuments, hrest.imp fun id result hr => ?_⟩
  refine hr.imp_right fun ⟨hid, an, hr, qs, s₁, _, hsub₁, hs₁, hshows, _⟩ => ⟨hid, an, hr, ?_⟩
  exact hQ s₁ _ id an hs₁ hsub₁.toSameDocuments hshows

/-! ## All operations -/

theorem Standing.completes_close (h : s.Standing ledger) (id : String) :
    ∃ r s', Completes ledger s (.close id) r s' := by
  cases hn : s.slotOf? id with
  | none =>
    have hnone : s.text? id = none := by rw [text?, hn]; rfl
    refine ⟨.unknownDocument id, s, [], .one ?_ rfl, by rwa [List.append_nil], rfl, rfl, ?_⟩
    · rw [step, begin, hn]
    · exact (Function.update_eq_self_iff.2 hnone.symm).symm
  | some n =>
    obtain ⟨slot, ho, rfl⟩ := isOpen_of_slotOf? hn
    obtain ⟨hs₁, htext⟩ := h.close ho
    have hunique := (replaces_drop h.sound.coherent h.sound.quiet ho).unique
    have hstep : s.step (.perform (.close slot.id) .stop) =
        (((s.drop n slot.id).invalidateReached slot.id (s.graph.name? slot.id).toList none).1,
          .notifyIf ((s.drop n slot.id).invalidateReached slot.id (s.graph.name? slot.id).toList none).1
            ((s.drop n slot.id).invalidateReached slot.id (s.graph.name? slot.id).toList none).2
            (.reply .done .stop)) := by
      rw [step, begin, hn]
    refine ⟨.done, _, [], .next hstep rfl ((hs₁.sound.quiet.leads_notifyIf _ _).trans (.one rfl rfl)),
      ?_, ?_, ?_, ?_⟩
    · rw [List.append_nil]
      exact hs₁.heard _
    · rw [heard_settings, invalidateReached_eq hunique]
      rfl
    · rw [heard_host?, invalidateReached_eq hunique]
      rfl
    · rw [text?_heard, htext]
      rfl

theorem Standing.completes_reset (h : s.Standing ledger) :
    ∃ r s', Completes ledger s .reset r s' := by
  obtain ⟨hs₁, htext⟩ := h.reset
  have he := emptied_foldl h.sound.coherent h.sound.quiet s.documents
  refine ⟨.done, _, [], .next rfl rfl ((hs₁.sound.quiet.leads_notify _ _).trans (.one rfl rfl)),
    ?_, ?_, ?_, ?_⟩
  · rw [List.append_nil]
    exact hs₁.heard _
  · rw [heard_settings, he.settings]
  · rw [heard_host?, he.host]
  · rw [text?_heard, htext]
    rfl

theorem Standing.completes_at_once (h : s.Standing ledger) {operation : Operation} {r : Reply}
    (hstep : s.begin .stop operation = (s', .replied r .stop)) (hslots : s'.slots = s.slots)
    (hg : s'.graph = s.graph) (hset : s'.settings = s.settings) (hh : s'.host? = s.host?)
    (hq : s'.Quiet) (hf : operation.filed s.text? = s.text?) : Completes ledger s operation r s' := by
  refine ⟨[], .one hstep rfl, ?_, hset, hh, ?_⟩
  · rw [List.append_nil]
    exact h.congr hslots hg hset hh hq
  · rw [hf]
    exact funext (text?_congr (by rw [hslots]))

theorem Standing.completes (h : s.Standing ledger) (operation : Operation)
    (hp : operation.isPassive = true) : ∃ r s', Completes ledger s operation r s' := by
  cases operation with
  | update id text => exact h.completes_update id text
  | close id => exact h.completes_close id
  | reset => exact h.completes_reset
  | query id text? query =>
    by_cases hreg : text? = none ∧ s.slotOf? id = none
    · obtain ⟨rfl, hn⟩ := hreg
      refine ⟨.unknownDocument id, s, h.completes_at_once ?_ rfl rfl rfl rfl h.sound.quiet rfl⟩
      rw [begin, hn]
    · obtain ⟨an, s', hc, -⟩ := h.completes_query id text? query fun ht => by
        rw [← Option.ne_none_iff_exists']
        exact fun hn => hreg ⟨ht, hn⟩
      exact ⟨_, s', hc⟩
  | refresh ids =>
    obtain ⟨ps, s', rest, hlead, hs', hsame, -⟩ := h.leads_refreshAll (fun _ _ => True)
      (fun _ _ _ _ _ _ _ => trivial) [] ids .stop
    exact ⟨_, s', ps, .next rfl rfl hlead, hs', hsame.settings, hsame.host, hsame.text?⟩
  | subscribe script =>
    obtain rfl : script = [] := by simpa [Operation.isPassive] using hp
    refine ⟨_, _, h.completes_at_once rfl rfl rfl rfl rfl ⟨fun e he => ?_, h.sound.quiet.hooks⟩ rfl⟩
    rcases List.mem_append.1 he with he | he
    · exact h.sound.quiet.scripts e he
    · rw [List.mem_singleton.1 he]
  | unsubscribe handle =>
    exact ⟨_, _, h.completes_at_once rfl rfl rfl rfl rfl ⟨h.sound.quiet.scripts, h.sound.quiet.hooks⟩ rfl⟩
  | freshness id => exact ⟨_, s, h.completes_at_once rfl rfl rfl rfl rfl h.sound.quiet rfl⟩
  | documents => exact ⟨_, s, h.completes_at_once rfl rfl rfl rfl rfl h.sound.quiet rfl⟩
  | settings => exact ⟨_, s, h.completes_at_once rfl rfl rfl rfl rfl h.sound.quiet rfl⟩
  | summary => exact ⟨_, s, h.completes_at_once rfl rfl rfl rfl rfl h.sound.quiet rfl⟩

theorem Completes.perform {operation : Operation} {r : Reply}
    (h : Completes ledger s operation r s') :
    ∃ steps, s.perform steps operation = some (r, s') ∧
      s'.Standing (ledger ++ publications steps s (.perform operation .stop)) := by
  obtain ⟨ps, hlead, hs', -⟩ := h
  obtain ⟨steps, hrun, hpub⟩ := hlead.runFor
  exact ⟨steps, hrun, by rwa [hpub]⟩

end Session

end GrammarAtlas
