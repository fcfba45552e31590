import GrammarAtlas.Proofs.Answers
import GrammarAtlas.Proofs.Freshness
import GrammarAtlas.Proofs.InTurn
import Mathlib.Data.List.Sort

/-! # Incremental is from scratch

`Session.scratch?` analyses a document from nothing but the latest texts of the registered documents.
`Session.answers_from_scratch`, for every state that a session without a host can reach: what a query
is answered from, and what a fresh document shows, is that analysis, whatever happened before.

The same is true after a refresh by workers, whatever turns they took. What they return themselves is
analysed from scratch if they came one after the other, as in the operation `refresh`. If they did
not, a worker may have made do with an older table while another one was about to replace it, or with
none (`Session.Answered`, `Session.refreshBy_without_table`). -/

namespace GrammarAtlas

namespace Library

theorem table?_eq_some_iff {library : Library} {g : String} {t : SymbolTable}
    (h : ∀ g t t', (g, t) ∈ library → (g, t') ∈ library → t = t') :
    library.table? g = some t ↔ (g, t) ∈ library := by
  have hmem : ∀ {t}, library.table? g = some t → (g, t) ∈ library := by
    intro t ht
    obtain ⟨l, r, hlr, -⟩ := List.lookup_eq_some_iff.1 ht
    rw [← List.mem_reverse, hlr]
    simp
  refine ⟨hmem, fun ht => ?_⟩
  cases hl : library.table? g with
  | none =>
    have := List.lookup_eq_none_iff.1 hl (g, t) (List.mem_reverse.2 ht)
    simp at this
  | some t' => rw [h g t t' ht (hmem hl)]

end Library

namespace Session
variable {s s' : Session} {id d g : String} {an : Analysis} {ledger : List Publication}

/-- The least document that declares a grammar. -/
def declaring? (s : Session) (g : String) : Option String :=
  s.documents.find? fun d => s.declared d == some g

/-- The tables that a document should get to see: of each grammar, that of the least document that
declares it, if that is another one. -/
def library (s : Session) (id : String) : Library :=
  if s.settings.resolveImports then
    s.documents.filterMap fun d => do
      let text ← s.text? d
      let g ← Grammar.sniffName? text
      if s.declaring? g = some d ∧ d ≠ id then some (g, .ofTree (Grammar.parse text).tree) else none
  else []

/-- The analysis of a document from scratch, under a version and an epoch. -/
def scratch? (s : Session) (id : String) (version epoch : Nat) : Option Analysis := do
  let text ← s.text? id
  let grammar := Grammar.parse text
  let table := SymbolTable.ofTree grammar.tree
  let (resolution, _) ← Resolution.inquire (s.library id) grammar.tree table s.settings.warnUnresolved
  return .assemble ⟨text, version⟩ epoch grammar table resolution

theorem mem_documents_of_declared (h : s.declared d = some g) : d ∈ s.documents := by
  obtain ⟨text, ht, -⟩ := Option.bind_eq_some_iff.1 h
  exact mem_documents_of_text? ht

theorem mem_documents_iff : id ∈ s.documents ↔ (s.text? id).isSome := by
  constructor
  · intro h
    obtain ⟨n, slot, ho, rfl⟩ := mem_documents.1 h
    obtain ⟨m, hm⟩ := exists_slotOf? ho
    obtain ⟨slot', ho', -⟩ := isOpen_of_slotOf? hm
    rw [text?, hm, Option.bind_some, ho'.get]
    rfl
  · intro h
    obtain ⟨text, ht⟩ := Option.isSome_iff_exists.1 h
    exact mem_documents_of_text? ht

theorem documents_congr (ht : s'.text? = s.text?) : s'.documents = s.documents := by
  refine List.Pairwise.eq_of_mem_iff (pairwise_ascending _) (pairwise_ascending _) fun id => ?_
  show id ∈ s'.documents ↔ id ∈ s.documents
  rw [mem_documents_iff, mem_documents_iff, ht]

theorem scratch?_congr (ht : s'.text? = s.text?) (hset : s'.settings = s.settings) :
    s'.scratch? = s.scratch? := by
  have hdeclared : s'.declared = s.declared := by
    funext d
    rw [declared, ht, declared]
  have hdeclaring : s'.declaring? = s.declaring? := by
    funext g
    rw [declaring?, documents_congr ht, hdeclared, declaring?]
  have hlibrary : s'.library = s.library := by
    funext id
    rw [library, hset, documents_congr ht, ht, hdeclaring, library]
  funext id version epoch
  rw [scratch?, ht, hlibrary, hset, scratch?]

/-- The graph knows the least document that declares a grammar. -/
theorem Coherent.declaring?_eq (h : s.Coherent) (g : String) :
    s.declaring? g = s.graph.provider? g := by
  have hsorted : (s.documents.filter fun d => s.declared d == some g).Pairwise (· < ·) :=
    (pairwise_ascending _).filter _
  ext d
  rw [declaring?, ← List.head?_filter, head?_eq_some_iff_least hsorted,
    h.mirrors.provider?_eq_some_iff]
  have hmem : ∀ e, (e ∈ s.documents.filter fun d => s.declared d == some g) ↔ s.declared e = some g := by
    intro e
    rw [List.mem_filter, beq_iff_eq, and_iff_right_iff_imp]
    exact mem_documents_of_declared
  simp only [hmem]

theorem mem_library (h : s.Coherent) {t : SymbolTable} :
    (g, t) ∈ s.library id ↔ s.settings.resolveImports = true ∧ ∃ d text, s.text? d = some text ∧
      s.graph.provider? g = some d ∧ d ≠ id ∧ t = .ofText text := by
  rw [library]
  split
  · rename_i hres
    simp only [hres, true_and, List.mem_filterMap, Option.bind_eq_bind, Option.bind_eq_some_iff,
      h.declaring?_eq, Option.ite_none_right_eq_some, Option.some.injEq, Prod.mk.injEq]
    constructor
    · rintro ⟨d, -, text, ht, g, -, ⟨hp, hne⟩, rfl, rfl⟩
      exact ⟨d, text, ht, hp, hne, (SymbolTable.ofText_eq text).symm⟩
    · rintro ⟨d, text, ht, hp, hne, rfl⟩
      have hg : Grammar.sniffName? text = some g := by
        have := h.mirrors.declared_of_provider? hp
        rwa [declared, ht] at this
      exact ⟨d, mem_documents_of_text? ht, text, ht, g, hg, ⟨hp, hne⟩, rfl,
        (SymbolTable.ofText_eq text).symm⟩
  · rename_i hres
    simp [hres]

theorem library_table? (h : s.Coherent) (hh : s.host? = none) (id g : String) :
    (s.library id).table? g = s.actual? id g := by
  ext t
  rw [Library.table?_eq_some_iff, mem_library h, actual?]
  · split
    · rename_i hres
      rw [and_iff_right hres]
      constructor
      · rintro ⟨d, text, ht, hp, hne, rfl⟩
        obtain ⟨m, hm, htext⟩ := Option.bind_eq_some_iff.1 ht
        have hs : s.source? id g = some m := by
          rw [source?, hp, Option.filter_some, if_pos (by simpa using hne)]
          exact hm
        obtain ⟨slot, ho, -⟩ := isOpen_of_slotOf? hm
        rw [ho.get, Option.map_some, Option.some.injEq] at htext
        simp only [hs, ho.get, Option.map_some, htext]
      · intro ht
        cases hs : s.source? id g with
        | none => simp [hs, hostTable?, hh] at ht
        | some m =>
          obtain ⟨slot, ho, hne, hp, -⟩ := h.isOpen_of_source? hs
          simp only [hs, ho.get, Option.map_some, Option.some.injEq] at ht
          exact ⟨slot.id, slot.latest.text, h.unique.text? ho, hp, hne, ht.symm⟩
    · rename_i hres
      simp [hres]
  · intro g t t' ht ht'
    obtain ⟨-, d, text, htext, hp, -, rfl⟩ := (mem_library h).1 ht
    obtain ⟨-, d', text', htext', hp', -, rfl⟩ := (mem_library h).1 ht'
    obtain rfl := Option.some.inj (hp.symm.trans hp')
    rw [Option.some.inj (htext.symm.trans htext')]

end Session

/-! ## Without a host -/

namespace Publication
variable {p : Publication} {settings : Settings}

theorem Genuine.through (h : p.Genuine settings none) {g : String} (hg : g ∈ p.known.map Prod.fst) :
    p.Through g := by
  have htable : p.analysis.table = .ofText p.analysis.snapshot.text := by
    obtain ⟨r, -, ha⟩ := h.resolved
    exact congrArg Analysis.table ha
  have hasked := h.asked
  -- In the order of asking, each grammar is imported by the document or by a table got before.
  suffices H : ∀ known, Resolution.Asked (Grammar.parse p.analysis.snapshot.text).tree
      (.ofText p.analysis.snapshot.text) settings.warnUnresolved
      (Session.firstKnown settings (.ofText p.analysis.snapshot.text)) known →
      (∀ e ∈ known, e ∈ p.known) → ∀ g ∈ known.map Prod.fst, p.Through g from
    H p.known hasked (fun _ he => he) g hg
  intro known hk
  induction hk with
  | start =>
    intro _ g hg
    rw [Session.firstKnown] at hg
    split at hg
    · cases hg
    · rw [Resolution.map_fst_closedBook] at hg
      exact .own (by rw [htable]; exact hg)
  | @ask known g t? _ hask ih =>
    intro hsub e he
    have hsub' : ∀ e ∈ known, e ∈ p.known := fun e he => hsub e (List.mem_append_left _ he)
    rw [List.map_append, List.mem_append] at he
    rcases he with he | he
    · exact ih hsub' e he
    · obtain rfl : e = g := by simpa using he
      rcases (Resolution.attempt_error hask).2 with hown | ⟨e', t, he', ht⟩
      · exact .own (by rw [htable]; exact hown)
      · have hmem := hsub' _ he'
        refine .step (ih hsub' e' (List.mem_map_of_mem he')) ?_ hmem ht
        rcases h.supplied e' t hmem with hs | ⟨host, hh, -⟩
        · exact hs
        · cases hh

end Publication

namespace Session
variable {s : Session} {id d g : String} {an : Analysis} {ledger : List Publication}

theorem Backed.settles {p : Publication} {settings : Settings} {r : Resolution} (h : s.Backed p)
    (hg : p.Genuine settings none) (hset : s.settings = settings)
    (hr : Resolution.attempt p.known (Grammar.parse p.analysis.snapshot.text).tree
      (.ofText p.analysis.snapshot.text) settings.warnUnresolved = .ok r) :
    Resolution.Settles (s.actual? p.document) (Grammar.parse p.analysis.snapshot.text).tree
      (.ofText p.analysis.snapshot.text) settings.warnUnresolved [] r := by
  have hasked := hg.asked
  rw [firstKnown] at hasked
  split at hasked
  · refine hasked.settles_of_ok (fun e he => ?_) hr
    exact h.answers e.1 e.2 (hg.through (List.mem_map_of_mem he)) he
  · rename_i hres
    have hnone : s.actual? p.document = fun _ => none := by
      funext g
      rw [actual?, hset, if_neg hres]
    rw [hasked.eq_closedBook] at hr
    rw [hnone]
    exact Resolution.settles_nil_of_closedBook hr

/-- What a fresh document shows is what it would show if it were analysed from scratch. -/
theorem Standing.scratch?_eq (h : s.Standing ledger) (hh : s.host? = none) (hs : s.Shows id an) :
    s.scratch? id an.version an.epoch = some an := by
  have hc := h.sound.coherent
  have htext := hs.text? hc.unique
  obtain ⟨n, slot, ho, rfl, hf, hp⟩ := hs
  obtain ⟨p, hlast, rfl, hdoc, hgen⟩ := h.sound.published n slot an ho hp
  have hbacked : s.Backed p := by
    rcases h.sound.backed n slot p ho hf (h.atRest.isOpen ho) hlast with hpend | hb
    · exact absurd hpend h.atRest.not_pending
    · exact hb
  rw [hh] at hgen
  obtain ⟨r, hr, ha⟩ := hgen.resolved
  have hsettles := hbacked.settles hgen rfl hr
  have hlib : s.actual? p.document = (s.library slot.id).table? := by
    rw [hdoc]
    exact (funext (library_table? hc hh slot.id)).symm
  rw [hlib, SymbolTable.ofText_eq] at hsettles
  obtain ⟨asked, hinq⟩ := Resolution.inquire_of_settles hsettles
  rw [SymbolTable.ofText_eq] at ha
  rw [scratch?, htext]
  simp only [Option.bind_eq_bind, Option.bind_some, hinq]
  exact congrArg some ha.symm

theorem SameDocuments.scratch? {s s' : Session} (h : SameDocuments s s') : s'.scratch? = s.scratch? :=
  scratch?_congr h.text? h.settings

/-- While the first worker analyses `b.g4` for the sake of its own document, the second one comes to
an end. -/
def ahead : List Pool.Turn :=
  List.replicate 6 (.go 0) ++ List.replicate 16 (.go 1) ++ List.replicate 20 (.go 0)

/-- The second worker makes do without the table of `b.g4`, and leaves its document stale. -/
theorem refreshBy_without_table :
    ∃ ledger s, Reached {} none ledger s ∧ ∃ results s',
      s.refreshBy ahead ["a.g4", "c.g4"] = some (results, s') ∧ s'.freshness? "c.g4" = some .stale ∧
      ∃ an, results[1]? = some (.ok an) ∧ s.scratch? "c.g4" an.version an.epoch ≠ some an := by
  have hend : ∃ x, x ∈ performAll 60 [] (start {} none)
      [.update "a.g4" "grammar A;\nimport B;\na : b ;\n", .update "b.g4" "grammar B;\nb : 'b' ;\n",
        .update "c.g4" "grammar C;\nimport B;\nc : b ;\n"] ∧
      ((Pool.start x.2 ["a.g4", "c.g4"]).play ahead).goOn.isNone = true ∧
      ((Pool.start x.2 ["a.g4", "c.g4"]).play ahead).session.freshness? "c.g4" = some .stale ∧
      ∃ results, results ∈ ((Pool.start x.2 ["a.g4", "c.g4"]).play ahead).answers ∧
        ∃ result, result ∈ results[1]? ∧ ∃ an, an ∈ result.toOption ∧
          (x.2.scratch? "c.g4" an.version an.epoch).map Analysis.diagnostics ≠ some an.diagnostics := by
    decide +kernel
  obtain ⟨⟨ledger, s⟩, hs, hstop, hstale, results, hresults, result, hresult, an, han, hne⟩ := hend
  have hstart : Reached {} none [] (start {} none) := .start
  have hr := hstart.performAll (by simp [Operation.isPassive]) hs
  cases result with
  | error => cases han
  | ok an' =>
    obtain rfl := Option.some.inj han
    refine ⟨ledger, s, hr, results, _, refreshBy_eq (Option.isNone_iff_eq_none.1 hstop) hresults, hstale,
      an', hresult, fun heq => hne ?_⟩
    rw [heq]
    rfl

end Session

end GrammarAtlas
