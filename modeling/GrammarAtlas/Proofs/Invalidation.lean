import GrammarAtlas.Proofs.Freshness

/-! # Who goes stale

`Session.fresh_after_change_iff`: when a registered document gets another text or is dropped, another
document that was fresh stays so exactly if no chain of imports, recorded for registered documents,
leads from it to the old or the new name of the changed one.

The chain covers every table that an analysis got along registered documents. It does not cover those
that it got along a grammar of the host: the graph has no imports of such a grammar, while the search
for a name follows them (`Session.fresh_despite_change`). -/

namespace GrammarAtlas

namespace ImportGraph
variable {g g' : ImportGraph} {origin d : String} {grammars : List String}

theorem Draws.congr (hi : ∀ e, e ≠ origin → g'.importsOf e = g.importsOf e)
    (hn : ∀ e, e ≠ origin → g'.name? e = g.name? e) (h : g.Draws origin grammars d) :
    g'.Draws origin grammars d := by
  have himports : ∀ {e n}, e ≠ origin → g.Imports e n → g'.Imports e n := by
    intro e n hne he
    rw [imports_iff, hi e hne, ← imports_iff]
    exact he
  induction h with
  | direct hne hd hg => exact .direct hne (himports hne hd) hg
  | through hne hd hname hnext ih =>
    exact .through hne (himports hne hd) (by rw [hn _ hnext.ne]; exact hname) ih

end ImportGraph

/-- The names that count as changed when an operation replaces or drops a document: the old one, and
the new one if there is one. -/
def Operation.changedNames (graph : ImportGraph) : Operation → List String
  | update id text => graph.affected id (Grammar.sniffName? text)
  | close id => (graph.name? id).toList
  | _ => []

namespace Session
variable {s s' : Session} {n : Nat} {slot : Slot} {id d g : String} {ledger : List Publication}
  {t? : Option String} {grammars : List String} {p : Publication}

theorem isFresh_of_freshness? (hn : s.slotOf? id = some n) (h : s.freshness? id = some .fresh) :
    ∃ slot, s.IsOpen n slot ∧ slot.id = id ∧ slot.isFresh = true := by
  obtain ⟨slot, ho, hid⟩ := isOpen_of_slotOf? hn
  rw [freshness?, hn, Option.bind_some, ho.get, Option.map_some, Option.some.injEq,
    Slot.freshness_eq_fresh_iff] at h
  exact ⟨slot, ho, hid, h⟩

theorem freshness?_of_isOpen (hu : s.Unique) (ho : s.IsOpen n slot) :
    s.freshness? slot.id = some slot.freshness := by
  rw [freshness?, hu.slotOf? ho, Option.bind_some, ho.get, Option.map_some]

/-- Of the other documents, those stay fresh that do not draw on what has changed. -/
theorem Replaces.freshness?_bump_iff (hr : Replaces s s' id t?) (hs : s.Sound ledger)
    (ho : s.IsOpen n slot) (hf : slot.isFresh = true) (hne : slot.id ≠ id) :
    (s'.bump (s'.reached id grammars none)).freshness? slot.id = some .fresh ↔
      ¬ s.graph.Draws id grammars slot.id := by
  have ho' := (hr.others n slot hne).2 ho
  have hget : (s'.bump (s'.reached id grammars none)).IsOpen n
      (slot.bump (s'.reached id grammars none)) :=
    ⟨by rw [bump, List.getElem?_map, ho'.get, Option.map_some], by rw [Slot.closed_bump]; exact ho.opened⟩
  have hfresh := freshness?_of_isOpen (hr.unique.of_tag (map_tag_bump _)) hget
  rw [Slot.id_bump] at hfresh
  have hname : ∀ e, e ≠ id → s'.graph.name? e = s.graph.name? e := by
    intro e he
    rw [hr.mirrors.name, Function.update_of_ne he, hs.coherent.mirrors.name]
  have hmem : slot.id ∈ s'.reached id grammars none ↔ s.graph.Draws id grammars slot.id := by
    rw [mem_reached hr.distinct]
    constructor
    · rintro ⟨hd, -⟩
      exact hd.congr (fun e he => (hr.imports e he).symm) fun e he => (hname e he).symm
    · intro hd
      exact ⟨hd.congr hr.imports hname, by simp, n, hr.unique.slotOf? ho'⟩
  rw [hfresh, Option.some.injEq, Slot.freshness_eq_fresh_iff, ← hmem]
  by_cases hi : slot.id ∈ s'.reached id grammars none
  · rw [(hs.orderly n slot ho).not_isFresh_bump ho.opened hi]
    simp [hi]
  · rw [Slot.bump_of_not_mem hi, hf]
    simp [hi]

theorem Backed.draws (hb : s.Backed p) (hc : s.Coherent) (hsource : p.source? g = some id)
    (ht : p.Through g) (hg : ∀ e, s.declared id = some e → e ∈ grammars) :
    s.graph.Draws id grammars p.document := by
  obtain ⟨hp, hne⟩ := Option.filter_eq_some_iff.1 hsource
  rw [← hb.source g ht] at hp
  refine (hb.linked g ht).draws (fun _ _ => rfl) (fun e _ => hc.mirrors.name e) hg
    (hg g (hc.mirrors.declared_of_provider? hp)) ?_
  have hne : id ≠ p.document := by simpa using hne
  exact hne.symm

theorem freshness?_heard (handles : List Nat) (id : String) :
    (s.heard handles).freshness? id = s.freshness? id := by
  have hn : (s.heard handles).slotOf? id = s.slotOf? id := slotOf?_congr (by rw [heard_slots]) id
  rw [freshness?, freshness?, hn, heard_slots]

/-- What an operation does that changes a registered document: the document is replaced or dropped,
those who draw on it are invalidated, and the subscribers hear of it. -/
theorem Standing.exists_change (hs : s.Standing ledger) {operation : Operation}
    (hreg : id ∈ s.documents)
    (hop : (∃ text, operation = .update id text ∧ s.text? id ≠ some text) ∨ operation = .close id) :
    ∃ steps r s' t? handles, Replaces s s' id t? ∧
      s.perform steps operation = some (r, (s'.bump
        (s'.reached id (operation.changedNames s.graph) none)).heard handles) := by
  rcases hop with ⟨text, rfl, hne⟩ | rfl
  · obtain ⟨s', hr, hnew, hren⟩ := hs.exists_replaces hne
    rw [invalidateReached_eq hr.unique] at hren
    have hquiet : (s'.bump (s'.reached id (s.graph.affected id (Grammar.sniffName? text)) none)).Quiet :=
      ⟨hr.quiet.scripts, hr.quiet.hooks⟩
    have hstep := s.begin_update id text .stop
    rw [if_pos hnew, hren] at hstep
    have hlead := Leads.next (c := .perform (.update id text) .stop) hstep rfl
      ((hquiet.leads_notifyIf _ _).trans (.one rfl rfl))
    obtain ⟨steps, hrun, -⟩ := hlead.runFor
    exact ⟨steps, _, s', _, _, hr, hrun⟩
  · obtain ⟨n, slot, ho, rfl⟩ := mem_documents.1 hreg
    have hr := replaces_drop hs.sound.coherent hs.sound.quiet ho
    have hquiet : ((s.drop n slot.id).bump
        ((s.drop n slot.id).reached slot.id (s.graph.name? slot.id).toList none)).Quiet :=
      ⟨hr.quiet.scripts, hr.quiet.hooks⟩
    have hstep : s.begin .stop (.close slot.id) =
        ((s.drop n slot.id).bump
          ((s.drop n slot.id).reached slot.id (s.graph.name? slot.id).toList none),
          .notifyIf ((s.drop n slot.id).bump
            ((s.drop n slot.id).reached slot.id (s.graph.name? slot.id).toList none))
            (!((s.drop n slot.id).reached slot.id (s.graph.name? slot.id).toList none).isEmpty)
            (.reply .done .stop)) := by
      rw [begin, hs.sound.coherent.unique.slotOf? ho]
      simp only [invalidateReached_eq hr.unique]
    have hlead := Leads.next (c := .perform (.close slot.id) .stop) hstep rfl
      ((hquiet.leads_notifyIf _ _).trans (.one rfl rfl))
    obtain ⟨steps, hrun, -⟩ := hlead.runFor
    exact ⟨steps, _, s.drop n slot.id, _, _, hr, hrun⟩

theorem changedNames_covers (hc : s.Coherent) {operation : Operation} {e : String}
    (hop : (∃ text, operation = .update id text ∧ s.text? id ≠ some text) ∨ operation = .close id)
    (he : s.declared id = some e) : e ∈ operation.changedNames s.graph := by
  rcases hop with ⟨text, rfl, -⟩ | rfl
  · exact affected_covers hc (.inl he)
  · rw [Operation.changedNames, hc.mirrors.name, he]
    simp

theorem fresh_after_change_iff {settings : Settings} {library? : Option Library}
    {operation : Operation} {changed : String} (h : Reached settings library? ledger s)
    (hn : s.slotOf? d = some n) (hf : s.freshness? d = some .fresh)
    (hp : Publication.last? ledger n = some p) (hreg : changed ∈ s.documents) (hne : d ≠ changed)
    (hop : (∃ text, operation = .update changed text ∧ s.text? changed ≠ some text) ∨
      operation = .close changed) :
    ∃ steps r s', s.perform steps operation = some (r, s') ∧
      (s'.freshness? d = some .fresh ↔
        ¬ s.graph.Draws changed (operation.changedNames s.graph) d) ∧
      ∀ g t, (g, some t) ∈ p.known → p.source? g = some changed → p.Through g →
        s'.freshness? d ≠ some .fresh := by
  obtain ⟨hs, -, -⟩ := h.standing
  obtain ⟨slot, ho, rfl, hfresh⟩ := isFresh_of_freshness? hn hf
  obtain ⟨steps, r, s', t?, handles, hr, hrun⟩ := hs.exists_change hreg hop
  have hiff : (s'.bump (s'.reached changed (operation.changedNames s.graph) none)).freshness? slot.id =
      some .fresh ↔ ¬ s.graph.Draws changed (operation.changedNames s.graph) slot.id :=
    hr.freshness?_bump_iff hs.sound ho hfresh hne
  rw [← freshness?_heard handles] at hiff
  refine ⟨steps, r, _, hrun, hiff, fun g t hk hsource ht hstill => hiff.1 hstill ?_⟩
  obtain ⟨an, han, -⟩ := Slot.isFresh_iff.1 hfresh
  obtain ⟨q, hq, -, hdoc, -⟩ := hs.sound.published n slot an ho han
  obtain rfl := Option.some.inj (hp.symm.trans hq)
  rw [← hdoc]
  rcases hs.sound.backed n slot p ho hfresh (hs.atRest.isOpen ho) hp with hpend | hb
  · exact absurd hpend hs.atRest.not_pending
  · exact hb.draws hs.sound.coherent hsource ht fun e => changedNames_covers hs.sound.coherent hop

/-- A grammar that imports another one, which is edited once the importing one is fresh. -/
theorem fresh_after_change_iff_direct :
    ∃ ledger s p steps r s', Reached {} none ledger s ∧ s.slotOf? "d.g4" = some 1 ∧
      s.freshness? "d.g4" = some .fresh ∧ Publication.last? ledger 1 = some p ∧
      (∃ t, ("B", some t) ∈ p.known) ∧ p.source? "B" = some "b.g4" ∧
      s.perform steps (.update "b.g4" "grammar B;\nc : 'c' ;\n") = some (r, s') ∧
      s'.freshness? "d.g4" ≠ some .fresh := by
  have hend : ∃ x, x ∈ performAll 60 [] (start {} none) [.update "b.g4" "grammar B;\nb : 'b' ;\n",
      .update "d.g4" "grammar D;\nimport B;\nd : b ;\n", .query "d.g4" none .diagnostics] ∧
      ∃ p, p ∈ Publication.last? x.1 1 ∧ x.2.slotOf? "d.g4" = some 1 ∧
        x.2.freshness? "d.g4" = some .fresh ∧ x.2.text? "b.g4" = some "grammar B;\nb : 'b' ;\n" ∧
        p.source? "B" = some "b.g4" ∧ "B" ∈ p.analysis.table.importNames ∧
        ∃ e ∈ p.known, e.1 = "B" ∧ e.2.isSome := by
    decide +kernel
  obtain ⟨⟨ledger, s⟩, hs, p, hp, hn, hf, htext, hsource, hown, ⟨e, t?⟩, hk, rfl, ht⟩ := hend
  obtain ⟨t, rfl⟩ := Option.isSome_iff_exists.1 ht
  have hstart : Reached {} none [] (start {} none) := .start
  have hr := hstart.performAll (by simp [Operation.isPassive]) hs
  obtain ⟨steps, r, s', hrun, -, hstale⟩ := fresh_after_change_iff hr hn hf hp
    (mem_documents_of_text? htext) (by decide)
    (.inl ⟨"grammar B;\nc : 'c' ;\n", rfl, by rw [htext]; decide⟩)
  exact ⟨ledger, s, p, steps, r, s', hr, hn, hf, hp, ⟨t, hk⟩, hsource, hrun,
    hstale "B" t hk hsource (.own hown)⟩

/-- A grammar of the host imports a registered one. The table of the latter was got through it, and
when that table changes, the document that got it stays fresh. -/
theorem fresh_despite_change :
    ∃ library ledger s p t steps r s', Reached {} (some library) ledger s ∧
      s.slotOf? "d.g4" = some 1 ∧ s.freshness? "d.g4" = some .fresh ∧
      Publication.last? ledger 1 = some p ∧ ("B", some t) ∈ p.known ∧
      p.source? "B" = some "b.g4" ∧ "b.g4" ∈ s.documents ∧
      (SymbolTable.ofTree (Grammar.parse "parser grammar B;\nc: 'c';\n").tree).symbols ≠ t.symbols ∧
      s.perform steps (.update "b.g4" "parser grammar B;\nc: 'c';\n") = some (r, s') ∧
      s'.freshness? "d.g4" = some .fresh := by
  have hend : ∃ x, x ∈ performAll 60 [] (start {} (some ⟨[("H", SymbolTable.ofTree
      (Grammar.parse "parser grammar H;\nimport B;\nh: 'h';\n").tree)], []⟩))
      [.update "b.g4" "parser grammar B;\nb: 'b';\n",
        .update "d.g4" "parser grammar D;\nimport H;\nd: b;\n", .query "d.g4" none .diagnostics] ∧
      (∃ p, p ∈ Publication.last? x.1 1 ∧ p.source? "B" = some "b.g4" ∧
        ∃ e ∈ p.known, e.1 = "B" ∧ ∃ t, t ∈ e.2 ∧
          (SymbolTable.ofTree (Grammar.parse "parser grammar B;\nc: 'c';\n").tree).symbols ≠
            t.symbols) ∧
      x.2.slotOf? "d.g4" = some 1 ∧ x.2.freshness? "d.g4" = some .fresh ∧ "b.g4" ∈ x.2.documents ∧
      ∃ y, y ∈ x.2.perform 20 (.update "b.g4" "parser grammar B;\nc: 'c';\n") ∧
        y.2.freshness? "d.g4" = some .fresh := by
    decide +kernel
  obtain ⟨⟨ledger, s⟩, hs, ⟨p, hp, hsource, ⟨e, t?⟩, hk, rfl, t, rfl, ht⟩, hn, hf, hdocs, ⟨r, s'⟩, hrun,
    hfresh⟩ := hend
  have hstart : ∀ library, Reached {} (some library) [] (start {} (some ⟨library, []⟩)) := fun _ => .start
  have hr := (hstart _).performAll (by simp [Operation.isPassive]) hs
  exact ⟨_, ledger, s, p, t, 20, r, s', hr, hn, hf, hp, hk, hsource, hdocs, ht, hrun, hfresh⟩

end Session

end GrammarAtlas
