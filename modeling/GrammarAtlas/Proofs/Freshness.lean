import GrammarAtlas.Proofs.Workers

/-! # Queries end, and leave their document fresh

`Session.query_leaves_fresh`, for every state that a session can reach: a query comes to an end,
however the documents import each other; its answer is that of the analysis which is then published
for the latest text; and asked again, it is answered from there, and nothing else happens. -/

namespace GrammarAtlas

namespace Session
variable {s : Session} {n : Nat} {id : String} {an : Analysis} {ledger : List Publication}

theorem Shows.freshness? (h : s.Shows id an) (hu : s.Unique) : s.freshness? id = some .fresh := by
  obtain ⟨n, slot, ho, rfl, hf, -⟩ := h
  rw [Session.freshness?, hu.slotOf? ho]
  simp only [Option.bind_some, ho.get, Option.map_some, Slot.freshness_eq_fresh_iff.2 hf]

theorem Shows.published (h : s.Shows id an) (hu : s.Unique) :
    ∃ n slot, s.slotOf? id = some n ∧ s.slots[n]? = some slot ∧ slot.published? = some an ∧
      an.snapshot = slot.latest := by
  obtain ⟨n, slot, ho, rfl, hf, hp⟩ := h
  obtain ⟨an', hp', hl, -⟩ := Slot.isFresh_iff.1 hf
  obtain rfl := Option.some.inj (hp.symm.trans hp')
  exact ⟨n, slot, hu.slotOf? ho, ho.get, hp, hl⟩

theorem Shows.text? (h : s.Shows id an) (hu : s.Unique) : s.text? id = some an.snapshot.text := by
  obtain ⟨n, slot, hn, hs, -, hl⟩ := h.published hu
  rw [Session.text?, hn, Option.bind_some, hs, Option.map_some, hl]

theorem leads_registered (hn : s.slotOf? id = some n) {text? : Option String}
    (ht : ∀ text, text? = some text → s.text? id = some text) (query : Query) :
    Leads s (.perform (.query id text? query) .stop) [] s (.refresh n none (.answer query .stop)) := by
  cases text? with
  | none =>
    refine .one ?_ rfl
    rw [step, begin, hn]
  | some text =>
    have hfile : s.step (.perform (.query id (some text) query) .stop) =
        (s, .finished (.consult id text query .stop)) := by
      rw [step, begin_query, setText_of_text? (ht text rfl), if_neg (by simp)]
    refine .next hfile rfl (.one ?_ rfl)
    rw [step, resume, hn]

theorem Shows.leads_query (h : s.Shows id an) (hu : s.Unique) {text? : Option String}
    (htext : ∀ text, text? = some text → s.text? id = some text) (query : Query) :
    Leads s (.perform (.query id text? query) .stop) [] s (.replied (query.answer an) .stop) := by
  obtain ⟨n, slot, ho, rfl, hf, hp⟩ := h
  have hrefresh : s.step (.refresh n none (.answer query .stop)) =
      (s, .analysed an (.answer query .stop)) := by
    simp only [step, refreshSlot, ho.get, hf, Bool.true_or, if_true, Slot.current, hp,
      Option.getD_some]
  exact (leads_registered (hu.slotOf? ho) htext query).trans (.next hrefresh rfl (.one rfl rfl))

theorem query_leaves_fresh {settings : Settings} {library? : Option Library}
    (h : Reached settings library? ledger s) (id : String) (text? : Option String) (query : Query)
    (hreg : text? = none → id ∈ s.documents) :
    ∃ steps an s', s.perform steps (.query id text? query) = some (query.answer an, s') ∧
      (∀ slot ∈ s'.slots, slot.inFlight = false) ∧
      (∃ n slot, s'.slotOf? id = some n ∧ s'.slots[n]? = some slot ∧ slot.published? = some an ∧
        an.snapshot = slot.latest) ∧
      s'.text? = (Operation.query id text? query).filed s.text? ∧
      s'.freshness? id = some .fresh ∧
      ∃ again, s'.perform again (.query id text? query) = some (query.answer an, s') := by
  obtain ⟨hs, -, -⟩ := h.standing
  have hreg' : text? = none → ∃ n, s.slotOf? id = some n := by
    intro ht
    obtain ⟨n, slot, ho, rfl⟩ := mem_documents.1 (hreg ht)
    exact ⟨n, hs.sound.coherent.unique.slotOf? ho⟩
  obtain ⟨an, s', hc, hshows⟩ := hs.completes_query id text? query hreg'
  obtain ⟨steps, hrun, hs'⟩ := hc.perform
  obtain ⟨-, -, -, -, -, htext⟩ := hc
  have hu := hs'.sound.coherent.unique
  have hsame : ∀ text, text? = some text → s'.text? id = some text := by
    rintro text rfl
    rw [htext]
    exact Function.update_self ..
  obtain ⟨again, hagain, -⟩ := (hshows.leads_query hu hsame query).runFor
  exact ⟨steps, an, s', hrun, hs'.atRest, hshows.published hu, htext, hshows.freshness? hu, again,
    hagain⟩

/-- Three grammars that import each other in a circle, and one that the host supplies. -/
theorem query_leaves_fresh_circle :
    ∃ ledger s, Reached {} (some [("H", .empty)]) ledger s ∧ "a.g4" ∈ s.documents ∧
      s.freshness? "a.g4" = some .empty ∧
      ∃ steps an s', s.perform steps (.query "a.g4" none .analysis) = some (.analysis an, s') ∧
        s'.freshness? "a.g4" = some .fresh ∧
        ∃ again, s'.perform again (.query "a.g4" none .analysis) = some (.analysis an, s') := by
  have hend : ∃ x, x ∈ performAll 60 [] (start {} (some ⟨[("H", .empty)], []⟩))
      [.update "a.g4" "grammar A;\nimport B, H;\na : b ;\n",
        .update "b.g4" "grammar B;\nimport C;\nb : c ;\n",
        .update "c.g4" "grammar C;\nimport A;\nc : a ;\n"] ∧
      "a.g4" ∈ x.2.documents ∧ x.2.freshness? "a.g4" = some .empty := by
    decide +kernel
  obtain ⟨⟨ledger, s⟩, hs, ha, hempty⟩ := hend
  have hstart : Reached {} (some [("H", .empty)]) [] (start {} (some ⟨[("H", .empty)], []⟩)) := .start
  have hr := hstart.performAll (by simp [Operation.isPassive]) hs
  obtain ⟨steps, an, s', hrun, -, -, -, hfresh, hagain⟩ :=
    query_leaves_fresh hr "a.g4" none .analysis fun _ => ha
  exact ⟨ledger, s, hr, ha, hempty, steps, an, s', hrun, hfresh, hagain⟩

end Session

end GrammarAtlas
