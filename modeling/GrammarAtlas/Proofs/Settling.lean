import GrammarAtlas.Proofs.Scratch

/-! # Asking again settles

Asking about a document may publish others against tables that are not there yet, as in a circle of
imports, and so call for another analysis later on. `Session.rounds_settle`, for every state that a
session without a host can reach, whatever imports whatever: when all documents have been asked about
in two rounds, in any order, then no question changes anything for anyone any more (`Session.Still`),
and after a third round all documents are fresh, and no question has any effect.

The first round leaves no document behind its latest text, so that the tables are what they are going
to be. The second leaves no document unsettled. From then on there is no unrest left, and each change
would have taken away from it. -/

namespace GrammarAtlas

/-- The documents that an operation asks about. -/
def Operation.asked : Operation → List String
  | query id _ _ => [id]
  | refresh ids => ids
  | update .. | close _ | reset | freshness _ | documents | subscribe _ | unsubscribe _ | settings
  | summary => []

namespace Session
variable {s s' s₁ : Session} {n : Nat} {slot : Slot} {id : String} {an : Analysis}
  {ledger ps : List Publication} {operation : Operation} {operations : List Operation} {r : Reply}

theorem performAll_mono {steps more : Nat} {x : List Publication × Session} (hle : steps ≤ more)
    (h : performAll steps ledger s operations = some x) :
    performAll more ledger s operations = some x := by
  induction operations generalizing s ledger with
  | nil => exact h
  | cons operation rest ih =>
    obtain ⟨y, hy, h⟩ := Option.bind_eq_some_iff.1 h
    obtain ⟨hrun, hpub⟩ := runFor_mono hle hy
    refine Option.bind_eq_some_iff.2 ⟨y, hrun, ?_⟩
    rw [hpub]
    exact ih h

theorem Leads.performAll {steps : Nat} {x : List Publication × Session}
    (h : Leads s (.perform operation .stop) ps s₁ (.replied r .stop))
    (hrest : Session.performAll steps (ledger ++ ps) s₁ operations = some x) :
    ∃ steps, Session.performAll steps ledger s (operation :: operations) = some x := by
  obtain ⟨first, hrun, hpub⟩ := h.runFor
  refine ⟨max first steps, Option.bind_eq_some_iff.2 ⟨(r, s₁), ?_, ?_⟩⟩
  · exact (runFor_mono (Nat.le_max_left ..) hrun).1
  · rw [(runFor_mono (Nat.le_max_left ..) hrun).2, hpub]
    exact performAll_mono (Nat.le_max_right ..) hrest

theorem performAll_append {steps steps' : Nat} {ledger' : List Publication} {first : List Operation}
    {x : List Publication × Session} (h : performAll steps ledger s first = some (ledger', s'))
    (h' : performAll steps' ledger' s' operations = some x) :
    ∃ steps, performAll steps ledger s (first ++ operations) = some x := by
  refine ⟨max steps steps', ?_⟩
  replace h := performAll_mono (Nat.le_max_left steps steps') h
  replace h' := performAll_mono (Nat.le_max_right steps steps') h'
  induction first generalizing s ledger with
  | nil =>
    obtain ⟨rfl, rfl⟩ := Prod.mk.inj (Option.some.inj h)
    exact h'
  | cons operation rest ih =>
    obtain ⟨y, hy, h⟩ := Option.bind_eq_some_iff.1 h
    exact Option.bind_eq_some_iff.2 ⟨y, hy, ih h⟩

/-- The operation asks about documents, and files no text that is new. -/
def Asks (s : Session) : Operation → Prop
  | .query id text? _ => ∀ text, text? = some text → s.text? id = some text
  | .refresh _ => True
  | .update .. | .close _ | .reset | .freshness _ | .documents | .subscribe _ | .unsubscribe _
  | .settings | .summary => False

theorem Asks.congr (h : s.Asks operation) (ht : s'.text? = s.text?) : s'.Asks operation := by
  cases operation with
  | query id text? query => rw [Asks, ht]; exact h
  | refresh ids => trivial
  | _ => exact h.elim

/-- Questions, of which each document is asked at least one. -/
structure Round (s : Session) (operations : List Operation) : Prop where
  asks : ∀ operation ∈ operations, s.Asks operation
  all : ∀ id ∈ s.documents, ∃ operation ∈ operations, id ∈ operation.asked

theorem Round.congr (h : s.Round operations) (ht : s'.text? = s.text?) : s'.Round operations :=
  ⟨fun operation ho => (h.asks operation ho).congr ht, by rw [documents_congr ht]; exact h.all⟩

theorem isSome_slotOf?_iff (hu : s.Unique) : (s.slotOf? id).isSome ↔ id ∈ s.documents := by
  rw [mem_documents, Option.isSome_iff_exists]
  exact exists_congr fun n => slotOf?_eq_some_iff hu

theorem leads_unknown (hn : s.slotOf? id = none) (query : Query) :
    Leads s (.perform (.query id none query) .stop) [] s (.replied (.unknownDocument id) .stop) := by
  refine .one ?_ rfl
  rw [step, begin, hn]

/-- A question comes to an end, and each document it is about has been fresh by then. -/
theorem Standing.leads_question (h : s.Standing ledger) (ho : s.Asks operation) :
    ∃ ps s' r, Leads s (.perform operation .stop) ps s' (.replied r .stop) ∧
      s'.Standing (ledger ++ ps) ∧ Subsides s ps s' ∧
      ∀ id ∈ operation.asked, id ∈ s.documents → ∃ an, Sighted ledger s s' id an := by
  have hu := h.sound.coherent.unique
  cases operation with
  | query id text? query =>
    cases hn : s.slotOf? id with
    | none =>
      obtain rfl : text? = none := by
        rw [Option.eq_none_iff_forall_ne_some]
        intro text ht
        obtain ⟨n, hn'⟩ := slotOf?_of_text? (ho text ht)
        rw [hn] at hn'
        cases hn'
      rw [← List.append_nil ledger] at h
      refine ⟨[], s, _, leads_unknown hn query, h, .refl s, fun e he hd => ?_⟩
      obtain rfl := List.mem_singleton.1 he
      rw [← isSome_slotOf?_iff hu, hn] at hd
      cases hd
    | some n =>
      obtain ⟨ps, s', an, hlead, hs', hsub, hshows⟩ := h.leads_answer hn query .stop
      refine ⟨ps, s', _, (leads_registered hn ho query).trans hlead, hs', hsub, fun e he _ => ?_⟩
      obtain rfl := List.mem_singleton.1 he
      exact ⟨an, .last hsub hs' hshows⟩
  | refresh ids =>
    obtain ⟨ps, s', rest, hlead, hs', hsub, hall⟩ := h.leads_refreshEach [] ids .stop
    have hsight : List.Forall₂ (fun id _ => (id ∈ s.documents → ∃ an, Sighted ledger s s' id an) ∧
        True) ids rest := by
      refine hall.imp fun id result hr => ⟨fun hd => ?_, trivial⟩
      rcases hr with ⟨hn, -⟩ | ⟨-, an, -, hsight⟩
      · rw [← isSome_slotOf?_iff hu, hn] at hd
        cases hd
      · exact ⟨an, hsight⟩
    exact ⟨ps, s', _, .next rfl rfl hlead, hs', hsub, ((List.forall₂_and_left _ _).1 hsight).1⟩
  | _ => exact ho.elim

theorem Standing.performs_questions (h : s.Standing ledger)
    (ho : ∀ operation ∈ operations, s.Asks operation) :
    ∃ steps new s', performAll steps ledger s operations = some (ledger ++ new, s') ∧
      s'.Standing (ledger ++ new) ∧ Subsides s new s' ∧
      ∀ operation ∈ operations, ∀ id ∈ operation.asked, id ∈ s.documents →
        ∃ an, Sighted ledger s s' id an := by
  induction operations generalizing s ledger with
  | nil =>
    refine ⟨0, [], s, by rw [List.append_nil]; rfl, by rwa [List.append_nil], .refl s, by simp⟩
  | cons operation rest ih =>
    obtain ⟨ps, s₁, r, hlead, hs₁, hsub₁, hsight₁⟩ := h.leads_question (ho operation (.head _))
    obtain ⟨steps, new, s', hall, hs', hsub, hsight⟩ := ih hs₁ fun o hmem =>
      (ho o (.tail _ hmem)).congr hsub₁.text?
    obtain ⟨steps', hall'⟩ := hlead.performAll hall
    rw [List.append_assoc] at hall' hs'
    refine ⟨steps', ps ++ new, s', hall', hs', hsub₁.trans hsub, fun o hmem id hid hd => ?_⟩
    rcases List.mem_cons.1 hmem with rfl | hmem
    · obtain ⟨an, hs⟩ := hsight₁ id hid hd
      exact ⟨an, hs.before hsub⟩
    · obtain ⟨an, hs⟩ := hsight o hmem id hid (by rwa [documents_congr hsub₁.text?])
      exact ⟨an, hs.after hsub₁⟩

theorem Standing.performs_round (h : s.Standing ledger) (hr : s.Round operations) :
    ∃ steps new s', performAll steps ledger s operations = some (ledger ++ new, s') ∧
      s'.Standing (ledger ++ new) ∧ Subsides s new s' ∧
      ∀ id ∈ s.documents, ∃ an, Sighted ledger s s' id an := by
  obtain ⟨steps, new, s', hall, hs', hsub, hsight⟩ := h.performs_questions hr.asks
  refine ⟨steps, new, s', hall, hs', hsub, fun id hid => ?_⟩
  obtain ⟨operation, ho, ha⟩ := hr.all id hid
  exact hsight operation ho id ha hid

/-! ## What a round achieves -/

theorem Shows.isFresh (h : s.Shows id an) (hu : s.Unique) (ho : s.IsOpen n slot) (hid : slot.id = id) :
    slot.isFresh = true := by
  obtain ⟨m, slot', ho', rfl, hf, -⟩ := h
  obtain rfl := hu ho ho' hid
  rwa [ho.eq ho']

/-- When no document is behind, each one sees the tables that it should. -/
theorem Standing.visible?_eq (h : s.Standing ledger) (hb : s.behind = ∅) (id : String) :
    s.visible? id = s.actual? id := by
  funext g
  rw [visible?, actual?]
  cases hm : s.source? id g with
  | none => rfl
  | some m =>
    obtain ⟨b, hopen, -⟩ := h.sound.coherent.isOpen_of_source? hm
    have hcur : b.IsCurrent := by
      by_contra hcur
      have := mem_behind.2 ⟨b, hopen, hcur⟩
      rw [hb] at this
      cases this
    obtain ⟨a, ha, hal⟩ := hcur
    simp only [hopen.get, Option.bind_some, ha, Option.map_some,
      (h.sound.orderly m b hopen).table a ha, hal]

/-- When no document is behind, a fresh one is settled. -/
theorem Standing.settled (h : s.Standing ledger) (hh : s.host? = none) (hb : s.behind = ∅)
    (ho : s.IsOpen n slot) (hf : slot.isFresh = true) : s.Settled slot := by
  obtain ⟨an, hp, hl, -⟩ := Slot.isFresh_iff.1 hf
  obtain ⟨p, hlast, rfl, hdoc, hgen⟩ := h.sound.published n slot an ho hp
  have hbacked := (h.sound.backed n slot p ho hf (h.atRest.isOpen ho) hlast).resolve_left
    h.atRest.not_pending
  rw [hh] at hgen
  obtain ⟨r, hr, ha⟩ := hgen.resolved
  have hasked := hgen.asked
  rw [hl] at hr ha hasked
  refine ⟨p.analysis, r, hp, hl, ?_, by rw [ha]; rfl, by rw [ha]; rfl⟩
  rw [← s.answeredBy_firstKnown slot.id]
  refine hasked.settles_of_ok (fun e he => ?_) hr
  rw [h.visible?_eq hb, ← hdoc]
  exact hbacked.answers e.1 e.2 (hgen.through (List.mem_map_of_mem he)) he

section
variable (hsight : ∀ id ∈ s'.documents, ∃ an, Sighted ledger s s' id an)
include hsight

/-- At some time in a round each document was fresh. -/
theorem exists_fresh_moment (ho : s'.IsOpen n slot) :
    ∃ ps₁ qs s₁ slot₁, Subsides s ps₁ s₁ ∧ s₁.Standing (ledger ++ ps₁) ∧ Subsides s₁ qs s' ∧
      s₁.IsOpen n slot₁ ∧ slot₁.isFresh = true := by
  obtain ⟨an, ps₁, s₁, qs, hsub₁, hs₁, hshows, hsub⟩ :=
    hsight slot.id (mem_documents.2 ⟨n, slot, ho, rfl⟩)
  obtain ⟨slot₁, ho₁, htag⟩ := ho.of_tag hsub.tags.symm
  exact ⟨ps₁, qs, s₁, slot₁, hsub₁, hs₁, hsub, ho₁,
    hshows.isFresh hs₁.sound.coherent.unique ho₁ (congrArg (·.1) htag)⟩

theorem behind_of_round : s'.behind = ∅ := by
  rw [Finset.eq_empty_iff_forall_notMem]
  intro m hm
  obtain ⟨b, hb, -⟩ := mem_behind.1 hm
  obtain ⟨ps₁, qs, s₁, slot₁, -, -, hsub, ho₁, hf⟩ := exists_fresh_moment hsight hb
  obtain ⟨c, hc, hcur⟩ := mem_behind.1 (hsub.behind hm)
  rw [hc.eq ho₁] at hcur
  exact hcur (Slot.isCurrent_of_isFresh hf)

theorem unsettled_of_round (hh : s.host? = none) (hb : s.behind = ∅) : s'.unsettled = ∅ := by
  rw [Finset.eq_empty_iff_forall_notMem]
  intro m hm
  obtain ⟨b, hopen, -⟩ := mem_unsettled.1 hm
  obtain ⟨ps₁, qs, s₁, slot₁, hsub₁, hs₁, hsub, ho₁, hf⟩ := exists_fresh_moment hsight hopen
  have hb₁ : s₁.behind = ∅ := Finset.subset_empty.1 (hb ▸ hsub₁.behind)
  obtain ⟨c, hc, hun⟩ := mem_unsettled.1 (hsub.unsettled hb₁ hm)
  rw [hc.eq ho₁] at hun
  exact hun (hs₁.settled (hsub₁.host.trans hh) hb₁ ho₁ hf)

theorem fresh_of_round (hh : s.host? = none) (hrest : s.unrest = 0) (ho : s'.IsOpen n slot) :
    slot.isFresh = true := by
  obtain ⟨ps₁, qs, s₁, slot₁, hsub₁, hs₁, hsub, ho₁, hf⟩ := exists_fresh_moment hsight ho
  have h₁ := hsub₁.unrest
  have h₂ := hsub.unrest
  have := (hsub.still (hsub₁.host.trans hh) (by omega)).fresh n slot₁ ho₁ hf
  rwa [ho.eq this]

end

theorem leads_refreshAll_fresh (hfresh : ∀ id ∈ s.documents, ∃ an, s.Shows id an) (hu : s.Unique)
    (ready : List (Except String Analysis)) (ids : List String) (next : Continuation .reply) :
    ∃ r, Leads s (.refreshAll ready ids next) [] s (.replied r next) := by
  induction ids generalizing ready with
  | nil => exact ⟨_, .one rfl rfl⟩
  | cons id ids ih =>
    cases hn : s.slotOf? id with
    | none =>
      obtain ⟨r, hlead⟩ := ih (ready ++ [.error id])
      refine ⟨r, .next ?_ rfl hlead⟩
      simp only [step, hn]
    | some n =>
      obtain ⟨slot, ho, rfl⟩ := isOpen_of_slotOf? hn
      obtain ⟨an, hshows⟩ := hfresh slot.id (mem_documents.2 ⟨n, slot, ho, rfl⟩)
      obtain ⟨r, hlead⟩ := ih (ready ++ [.ok slot.current])
      have hstep : s.step (.refreshAll ready (slot.id :: ids) next) =
          (s, .refresh n none (.refreshRest ready ids next)) := by
        simp only [step, hn]
      have hrefresh : s.step (.refresh n none (.refreshRest ready ids next)) =
          (s, .analysed slot.current (.refreshRest ready ids next)) := by
        simp only [step, refreshSlot, ho.get, hshows.isFresh hu ho rfl, Bool.true_or, if_true]
      exact ⟨r, .next hstep rfl (.next hrefresh rfl (.next rfl rfl hlead))⟩

theorem leads_question_fresh (hfresh : ∀ id ∈ s.documents, ∃ an, s.Shows id an) (hu : s.Unique)
    (ho : s.Asks operation) : ∃ r, Leads s (.perform operation .stop) [] s (.replied r .stop) := by
  cases operation with
  | query id text? query =>
    by_cases hid : id ∈ s.documents
    · obtain ⟨an, hshows⟩ := hfresh id hid
      exact ⟨_, hshows.leads_query hu ho query⟩
    · obtain rfl : text? = none := by
        rw [Option.eq_none_iff_forall_ne_some]
        exact fun text ht => hid (mem_documents_of_text? (ho text ht))
      refine ⟨_, leads_unknown ?_ query⟩
      rwa [← Option.not_isSome_iff_eq_none, isSome_slotOf?_iff hu]
  | refresh ids =>
    obtain ⟨r, hlead⟩ := leads_refreshAll_fresh hfresh hu [] ids .stop
    exact ⟨r, .next rfl rfl hlead⟩
  | _ => exact ho.elim

theorem performs_questions_fresh (hfresh : ∀ id ∈ s.documents, ∃ an, s.Shows id an) (hu : s.Unique)
    (ho : ∀ operation ∈ operations, s.Asks operation) :
    ∃ steps, performAll steps ledger s operations = some (ledger, s) := by
  induction operations with
  | nil => exact ⟨0, rfl⟩
  | cons operation rest ih =>
    obtain ⟨r, hlead⟩ := leads_question_fresh hfresh hu (ho operation (.head _))
    obtain ⟨steps, hall⟩ := ih fun o hmem => ho o (.tail _ hmem)
    rw [← List.append_nil ledger] at hall
    obtain ⟨steps', hall'⟩ := hlead.performAll hall
    exact ⟨steps', by simpa only [List.append_nil] using hall'⟩

theorem rounds_settle {settings : Settings} {first second : List Operation}
    (h : Reached settings none ledger s) (h₁ : s.Round first) (h₂ : s.Round second) :
    ∃ steps ledger₂ s₂, performAll steps ledger s (first ++ second) = some (ledger₂, s₂) ∧
      ∀ third, (∀ operation ∈ third, s.Asks operation) →
        ∃ steps new s₃, performAll steps ledger₂ s₂ third = some (ledger₂ ++ new, s₃) ∧
          s₃.text? = s.text? ∧ Still s₂ new s₃ ∧
          (s.Round third → (∀ id ∈ s₃.documents, s₃.freshness? id = some .fresh) ∧
            ∀ more, (∀ operation ∈ more, s.Asks operation) →
              ∃ steps, performAll steps (ledger₂ ++ new) s₃ more = some (ledger₂ ++ new, s₃)) := by
  obtain ⟨hs, -, hhost⟩ := h.standing
  have hhost : s.host? = none := hhost
  obtain ⟨steps₁, new₁, s₁, hall₁, hs₁, hsub₁, hsight₁⟩ := hs.performs_round h₁
  obtain ⟨steps₂, new₂, s₂, hall₂, hs₂, hsub₂, hsight₂⟩ :=
    hs₁.performs_round (h₂.congr hsub₁.text?)
  have hhost₁ := hsub₁.host.trans hhost
  have hhost₂ := hsub₂.host.trans hhost₁
  have htext₂ : s₂.text? = s.text? := hsub₂.text?.trans hsub₁.text?
  have hb₁ : s₁.behind = ∅ := by
    refine behind_of_round fun id hid => hsight₁ id ?_
    rwa [documents_congr hsub₁.text?] at hid
  have hb₂ : s₂.behind = ∅ := Finset.subset_empty.1 (hb₁ ▸ hsub₂.behind)
  have hu₂ : s₂.unsettled = ∅ := by
    refine unsettled_of_round (fun id hid => hsight₂ id ?_) hhost₁ hb₁
    rwa [documents_congr hsub₂.text?] at hid
  have hrest : s₂.unrest = 0 := by simp [unrest, hb₂, hu₂]
  obtain ⟨steps, hall⟩ := performAll_append hall₁ hall₂
  refine ⟨steps, _, s₂, hall, fun third hthird => ?_⟩
  obtain ⟨steps₃, new₃, s₃, hall₃, hs₃, hsub₃, hsight₃⟩ :=
    hs₂.performs_questions fun o ho => (hthird o ho).congr htext₂
  have htext₃ : s₃.text? = s.text? := hsub₃.text?.trans htext₂
  have hstill : Still s₂ new₃ s₃ := by
    have := hsub₃.unrest
    exact hsub₃.still hhost₂ (by omega)
  refine ⟨steps₃, new₃, s₃, hall₃, htext₃, hstill, fun hround => ?_⟩
  have hsight : ∀ id ∈ s₃.documents, ∃ an, Sighted (ledger ++ new₁ ++ new₂) s₂ s₃ id an := by
    intro id hid
    rw [documents_congr hsub₃.text?] at hid
    obtain ⟨operation, hop, hasked⟩ := (hround.congr htext₂).all id hid
    exact hsight₃ operation hop id hasked hid
  have hfresh : ∀ {n slot}, s₃.IsOpen n slot → slot.isFresh = true :=
    fun ho => fresh_of_round hsight hhost₂ hrest ho
  have hshows : ∀ id ∈ s₃.documents, ∃ an, s₃.Shows id an := by
    intro id hid
    obtain ⟨n, slot, ho, rfl⟩ := mem_documents.1 hid
    obtain ⟨an, han, -⟩ := Slot.isFresh_iff.1 (hfresh ho)
    exact ⟨an, n, slot, ho, rfl, hfresh ho, han⟩
  have hunique := hs₃.sound.coherent.unique
  refine ⟨fun id hid => ?_, fun more hmore => ?_⟩
  · obtain ⟨an, han⟩ := hshows id hid
    exact han.freshness? hunique
  · exact performs_questions_fresh hshows hunique fun o ho => (hmore o ho).congr htext₃

/-- Two grammars that import each other, of which each asks for the table of the other. -/
theorem rounds_settle_mutual :
    ∃ ledger s, Reached {} none ledger s ∧
      s.states = [("a.g4", .empty), ("b.g4", .empty)] ∧ s.subscribers = [0] ∧
      s.Round [.query "a.g4" none .diagnostics, .query "b.g4" none .diagnostics] ∧
      s.Round [.query "b.g4" none .diagnostics, .query "a.g4" none .diagnostics] ∧
      ∃ steps ledger₂ s₂, performAll steps ledger s
          [.query "a.g4" none .diagnostics, .query "b.g4" none .diagnostics,
            .query "b.g4" none .diagnostics, .query "a.g4" none .diagnostics] =
              some (ledger₂, s₂) ∧
        ∃ steps new s₃, performAll steps ledger₂ s₂
            [.query "b.g4" none .diagnostics, .query "a.g4" none .diagnostics] =
              some (ledger₂ ++ new, s₃) ∧ Still s₂ new s₃ := by
  have hend : ∃ x, x ∈ performAll 60 [] (start {} none)
      [.subscribe [], .update "a.g4" "grammar A;\nimport B;\na : b ;\n",
        .update "b.g4" "grammar B;\nimport A;\nb : a ;\n"] ∧
      x.2.states = [("a.g4", .empty), ("b.g4", .empty)] ∧ x.2.subscribers = [0] ∧
      x.2.documents = ["a.g4", "b.g4"] := by
    decide +kernel
  obtain ⟨⟨ledger, s⟩, hs, hstates, hsubs, hdocs⟩ := hend
  have hdocs : s.documents = ["a.g4", "b.g4"] := hdocs
  have hstart : Reached {} none [] (start {} none) := .start
  have hr := hstart.performAll (by simp [Operation.isPassive]) hs
  have h₁ : s.Round [.query "a.g4" none .diagnostics, .query "b.g4" none .diagnostics] :=
    ⟨by simp [Asks], by simp [hdocs, Operation.asked]⟩
  have h₂ : s.Round [.query "b.g4" none .diagnostics, .query "a.g4" none .diagnostics] :=
    ⟨by simp [Asks], by simp [hdocs, Operation.asked]⟩
  obtain ⟨steps, ledger₂, s₂, hall, hthird⟩ := rounds_settle hr h₁ h₂
  obtain ⟨steps₃, new, s₃, hall₃, -, hstill, -⟩ := hthird
    [.query "b.g4" none .diagnostics, .query "a.g4" none .diagnostics] (by simp [Asks])
  exact ⟨ledger, s, hr, hstates, hsubs, h₁, h₂, steps, ledger₂, s₂, hall, steps₃, new, s₃, hall₃,
    hstill⟩

end Session

end GrammarAtlas
