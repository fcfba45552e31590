import GrammarAtlas.Proofs.Alignment
import GrammarAtlas.Proofs.Notice

/-! # What a change touches

`Session.change_touches_importers`, for every moment of a session whose subscribers do nothing: a new
text is filed under the next version or in a new slot, and of the other documents just those that
need the old name or the new one (`ImportGraph.Needs`), by their own imports or those of others, count
one more change. A document that imports both, or one of them along several paths, counts one as well.
It is the same when a document is dropped. Everything else stays, whatever is under way at the moment.

The search for dependents leaves out the document that changes (`ImportGraph.Draws`). That makes no
difference to the others: a path of imports that runs through the document runs through its name first
(`ImportGraph.Needs.draws`). -/

namespace GrammarAtlas

namespace ImportGraph
variable {g g' : ImportGraph} {origin d : String} {grammars names : List String}

/-- `d` imports one of `grammars`, directly or through other documents. -/
inductive Needs (g : ImportGraph) (grammars : List String) : String → Prop
  | direct {d grammar : String} (hi : g.Imports d grammar) (hg : grammar ∈ grammars) :
      Needs g grammars d
  | through {d next grammar : String} (hi : g.Imports d grammar)
      (hn : g.name? next = some grammar) (h : Needs g grammars next) : Needs g grammars d

theorem needs_iff : g.Needs grammars d ↔
    ∃ grammar ∈ g.importsOf d, grammar ∈ grammars ∨
      ∃ next, g.name? next = some grammar ∧ g.Needs grammars next := by
  constructor
  · rintro (⟨hi, hg⟩ | ⟨hi, hn, h⟩)
    · exact ⟨_, imports_iff.1 hi, .inl hg⟩
    · exact ⟨_, imports_iff.1 hi, .inr ⟨_, hn, h⟩⟩
  · rintro ⟨grammar, hi, hg | ⟨next, hn, h⟩⟩
    · exact .direct (imports_iff.2 hi) hg
    · exact .through (imports_iff.2 hi) hn h

theorem Draws.needs (h : g.Draws origin grammars d) (hg : ∀ e ∈ grammars, e ∈ names) :
    g.Needs names d := by
  induction h with
  | direct _ hi he => exact .direct hi (hg _ he)
  | through _ hi hn _ ih => exact .through hi hn ih

theorem Needs.draws (h : g.Needs names d) (hne : d ≠ origin) (hg : ∀ e ∈ names, e ∈ grammars)
    (hold : ∀ e, g.name? origin = some e → e ∈ grammars) : g.Draws origin grammars d := by
  induction h with
  | direct hi he => exact .direct hne hi (hg _ he)
  | @through d next grammar hi hn _ ih =>
    by_cases hnext : next = origin
    · exact .direct hne hi (hold grammar (hnext ▸ hn))
    · exact .through hne hi hn (ih hnext)

end ImportGraph

namespace Session
variable {s s₁ s' : Session} {n : Nat} {slot : Slot} {id text : String} {t? : Option String}
  {grammars names : List String} {c : Control} {settings : Settings} {host? : Option Host}

/-- `s'` is `s` after a change of the document `id` under the names `names`. Whoever imports one of
them counts one more change; nothing else is new about the other documents. -/
structure Touches (s s' : Session) (id : String) (names : List String) : Prop where
  importers : ∀ n slot, s.IsOpen n slot → slot.id ≠ id → s.graph.Needs names slot.id →
    s'.slots[n]? = some { slot with epoch := slot.epoch + 1 }
  others : ∀ n slot, s.IsOpen n slot → slot.id ≠ id → ¬ s.graph.Needs names slot.id →
    s'.slots[n]? = some slot
  closed : ∀ (n : Nat) slot, s.slots[n]? = some slot → slot.closed = true → s'.slots[n]? = some slot
  name : ∀ d, d ≠ id → s'.graph.name? d = s.graph.name? d
  providers : ∀ d g, d ≠ id →
    (d ∈ (s'.graph.providers.get? g).getD [] ↔ d ∈ (s.graph.providers.get? g).getD [])
  imports : ∀ d, d ≠ id → s'.graph.importsOf d = s.graph.importsOf d
  parses : s'.parses = s.parses
  settings : s'.settings = s.settings
  host : s'.host? = s.host?
  subscribers : s'.subscribers = s.subscribers
  passive : s'.Passive
  /-- Subscribers may be notified. -/
  events : ∃ told : List Nat, s'.events = told.map Event.notified ++ s.events

/-- The text is filed for the document, under the next version or in a new slot, and the name that it
declares. What the document imports is not looked at yet. -/
structure Files (s s' : Session) (id text : String) : Prop where
  registered : ∀ n slot, s.IsOpen n slot → slot.id = id →
    s'.slots[n]? = some { slot with latest := ⟨text, slot.latest.version + 1⟩ } ∧
      s'.slots.length = s.slots.length
  new : id ∉ s.documents →
    s'.slots[s.slots.length]? = some (.new id text) ∧ s'.slots.length = s.slots.length + 1
  name : s'.graph.name? id = Grammar.sniffName? text
  imports : s'.graph.imports = s.graph.imports

/-- The document is no longer registered, and the graph knows nothing of it. -/
structure Drops (s s' : Session) (id : String) : Prop where
  slot : ∀ n slot, s.IsOpen n slot → slot.id = id → s'.slots[n]? = some { slot with closed := true }
  length : s'.slots.length = s.slots.length
  gone : id ∉ s'.documents
  name : s'.graph.name? id = none
  providers : ∀ g, id ∉ (s'.graph.providers.get? g).getD []
  imports : s'.graph.importsOf id = []

theorem getElem?_bump (ids : List String) : (s.bump ids).slots[n]? = s.slots[n]?.map (·.bump ids) := by
  rw [bump, List.getElem?_map]

theorem length_bump (ids : List String) : (s.bump ids).slots.length = s.slots.length := by
  rw [bump, List.length_map]

theorem IsOpen.ne_of_closed {m : Nat} {b : Slot} (ho : s.IsOpen n slot) (hb : s.slots[m]? = some b)
    (hc : b.closed = true) : m ≠ n := by
  rintro rfl
  rw [Option.some.inj (hb.symm.trans ho.get), ho.opened] at hc
  cases hc

theorem Exchanges.mem_reached_iff (hx : Exchanges s s₁ id t?) (hc : s.Coherent)
    (hnames : ∀ e, e ∈ grammars ↔ e ∈ names) (hold : ∀ e, s.graph.name? id = some e → e ∈ names)
    (ho : s.IsOpen n slot) (hne : slot.id ≠ id) :
    slot.id ∈ s₁.reached id grammars none ↔ s.graph.Needs names slot.id := by
  have hname : ∀ e, e ≠ id → s₁.graph.name? e = s.graph.name? e := by
    intro e he
    rw [hx.mirrors.name, Function.update_of_ne he, hc.mirrors.name]
  rw [mem_reached hx.distinct]
  constructor
  · rintro ⟨hd, -⟩
    have hd' := hd.congr (fun e he => (hx.imports e he).symm) fun e he => (hname e he).symm
    exact hd'.needs fun e => (hnames e).1
  · intro hneeds
    have hd := hneeds.draws hne (fun e => (hnames e).2) fun e he => (hnames e).2 (hold e he)
    exact ⟨hd.congr hx.imports hname, nofun, n, hx.unique.slotOf? ((hx.others n slot hne).2 ho)⟩

/-- A document exchanges its text, is registered or dropped, and whoever draws on its names is
invalidated: that touches the importers. -/
theorem Exchanges.touches (hx : Exchanges s s₁ id t?) (hc : s.Coherent) (hp : s.Passive)
    (hframe : s₁ = { s with slots := s₁.slots, graph := s₁.graph })
    (hclosed : ∀ (n : Nat) slot, s.slots[n]? = some slot → slot.closed = true →
      s₁.slots[n]? = some slot)
    (hnames : ∀ e, e ∈ grammars ↔ e ∈ names) (hold : ∀ e, s.graph.name? id = some e → e ∈ names)
    (handles : List Nat) :
    Touches s ((s₁.bump (s₁.reached id grammars none)).heard handles) id names := by
  have hpassive : (s₁.bump (s₁.reached id grammars none)).Passive := by
    rw [hframe]
    exact hp
  refine ⟨fun n slot ho hne hneeds => ?_, fun n slot ho hne hneeds => ?_, fun n slot hn hc => ?_,
    fun d hd => ?_, fun d g hd => ?_, fun d hd => ?_, ?_, ?_, ?_, ?_, hpassive.heard _, ?_⟩
  · have hmem := (hx.mem_reached_iff hc hnames hold ho hne).2 hneeds
    rw [heard_slots, getElem?_bump, ((hx.others n slot hne).2 ho).get, Option.map_some, Slot.bump,
      if_pos ⟨ho.opened, hmem⟩, Slot.invalidate]
  · have hmem := mt (hx.mem_reached_iff hc hnames hold ho hne).1 hneeds
    rw [heard_slots, getElem?_bump, ((hx.others n slot hne).2 ho).get, Option.map_some,
      Slot.bump_of_not_mem hmem]
  · rw [heard_slots, getElem?_bump, hclosed n slot hn hc, Option.map_some, Slot.bump, if_neg]
    rintro ⟨hopen, -⟩
    rw [hc] at hopen
    cases hopen
  · rw [heard_graph, bump, hx.mirrors.name, Function.update_of_ne hd, hc.mirrors.name]
  · rw [heard_graph, bump, hx.mirrors.mem, Function.update_of_ne hd, hc.mirrors.mem]
  · rw [heard_graph, bump, hx.imports d hd]
  · rw [heard_parses, bump, hframe]
  · rw [heard_settings, bump, hframe]
  · rw [heard_host?, bump, hframe]
  · rw [heard_subscribers, bump, hframe]
  · exact ⟨handles.reverse, by rw [events_heard, bump, hframe, List.map_reverse]⟩

/-- The document itself is not invalidated. -/
theorem getElem?_reached_self (hd : s₁.graph.imports.Distinct) (hn : s₁.slots[n]? = some slot)
    (hid : slot.id = id) (handles : List Nat) :
    ((s₁.bump (s₁.reached id grammars none)).heard handles).slots[n]? = some slot := by
  have hmem : slot.id ∉ s₁.reached id grammars none := by
    rw [hid, mem_reached hd]
    exact fun h => h.1.ne rfl
  rw [heard_slots, getElem?_bump, hn, Option.map_some, Slot.bump_of_not_mem hmem]

theorem Passive.leads_exchange {operation : Operation} {r : Reply} (hp : s₁.Passive) (hu : s₁.Unique)
    (next : Continuation .reply)
    (hbegin : s.begin next operation = ((s₁.invalidateReached id grammars none).1,
      .notifyIf (s₁.invalidateReached id grammars none).1
        (s₁.invalidateReached id grammars none).2 (.reply r next))) :
    ∃ handles, Leads s (.perform operation next) []
      ((s₁.bump (s₁.reached id grammars none)).heard handles) (.replied r next) := by
  rw [invalidateReached_eq hu] at hbegin
  have hp' : (s₁.bump (s₁.reached id grammars none)).Passive := hp
  exact ⟨_, .next hbegin rfl ((hp'.leads_notifyIf _ _).trans (.one rfl rfl))⟩

theorem Aligned.leads_update (ha : s.Aligned) (hp : s.Passive) (hne : s.text? id ≠ some text)
    (next : Continuation .reply) :
    ∃ s', Leads s (.perform (.update id text) next) [] s' (.replied (.flag true) next) ∧
      Touches s s' id ((s.graph.name? id).toList ++ (Grammar.sniffName? text).toList) ∧
      Files s s' id text := by
  have hc := ha.toCoherent
  have hnames : ∀ e, e ∈ s.graph.affected id (Grammar.sniffName? text) ↔
      e ∈ (s.graph.name? id).toList ++ (Grammar.sniffName? text).toList := by
    intro e
    rw [ImportGraph.mem_affected, List.mem_append, Option.mem_toList, Option.mem_toList]
  have hold : ∀ e, s.graph.name? id = some e →
      e ∈ (s.graph.name? id).toList ++ (Grammar.sniffName? text).toList := by
    intro e he
    simp [he]
  obtain ⟨hnew, ⟨n, slot, ho, rfl, hren⟩ | ⟨hn, hren⟩⟩ := setText_cases hne
  · have hx := exchanges_retext hc ho text
    have hbegin := s.begin_update slot.id text next
    rw [if_pos hnew, hren] at hbegin
    have hp₁ : (s.retext n slot.id text).Passive := hp
    obtain ⟨handles, hlead⟩ := hp₁.leads_exchange hx.unique next hbegin
    refine ⟨_, hlead, hx.touches hc hp rfl (fun m b hm hclosed => ?_) hnames hold _,
      ⟨fun m b hb hid => ?_, fun hnone => ?_, ?_, ?_⟩⟩
    · exact (getElem?_modifySlot_eq_some ho.get _).2 (.inr ⟨ho.ne_of_closed hm hclosed, hm⟩)
    · obtain rfl := hc.unique hb ho hid
      obtain rfl := hb.eq ho
      refine ⟨getElem?_reached_self hx.distinct (isOpen_retext_self ho text).get rfl _, ?_⟩
      rw [heard_slots, length_bump, Session.retext, Session.modifySlot, List.length_modify]
    · exact absurd (mem_documents.2 ⟨n, slot, ho, rfl⟩) hnone
    · rw [heard_graph, bump, hx.mirrors.name, Function.update_self]
      rfl
    · rw [heard_graph, bump, Session.retext, ImportGraph.setName_imports]
  · have hx := exchanges_register hc hn text
    have hbegin := s.begin_update id text next
    rw [if_pos hnew, hren] at hbegin
    have hp₁ : (s.register id text).Passive := hp
    obtain ⟨handles, hlead⟩ := hp₁.leads_exchange hx.unique next hbegin
    refine ⟨_, hlead, hx.touches hc hp rfl (fun m b hm _ => ?_) hnames hold _,
      ⟨fun m b hb hid => ?_, fun _ => ?_, ?_, ?_⟩⟩
    · exact (getElem?_register_eq_some s id text).2
        (.inr ⟨(List.getElem?_eq_some_iff.1 hm).1.ne, hm⟩)
    · rw [← hid, hc.unique.slotOf? hb] at hn
      cases hn
    · refine ⟨getElem?_reached_self hx.distinct (isOpen_register_self s id text).get rfl _, ?_⟩
      rw [heard_slots, length_bump, Session.register, List.length_append, List.length_singleton]
    · rw [heard_graph, bump, hx.mirrors.name, Function.update_self]
      rfl
    · rw [heard_graph, bump, Session.register, ImportGraph.setName_imports]

theorem Aligned.leads_close (ha : s.Aligned) (hp : s.Passive) (hreg : id ∈ s.documents)
    (next : Continuation .reply) :
    ∃ s', Leads s (.perform (.close id) next) [] s' (.replied .done next) ∧
      Touches s s' id (s.graph.name? id).toList ∧ Drops s s' id := by
  have hc := ha.toCoherent
  obtain ⟨n, slot, ho, rfl⟩ := mem_documents.1 hreg
  have hx := exchanges_drop hc ho
  have hbegin : s.begin next (.close slot.id) =
      (((s.drop n slot.id).invalidateReached slot.id (s.graph.name? slot.id).toList none).1,
        .notifyIf ((s.drop n slot.id).invalidateReached slot.id (s.graph.name? slot.id).toList none).1
          ((s.drop n slot.id).invalidateReached slot.id (s.graph.name? slot.id).toList none).2
          (.reply .done next)) := by
    rw [begin, hc.unique.slotOf? ho]
  have hp₁ : (s.drop n slot.id).Passive := hp
  obtain ⟨handles, hlead⟩ := hp₁.leads_exchange hx.unique next hbegin
  have hget : (s.drop n slot.id).slots[n]? = some slot.close :=
    (getElem?_modifySlot_eq_some ho.get _).2 (.inl ⟨rfl, rfl⟩)
  refine ⟨_, hlead, hx.touches hc hp rfl (fun m b hm hclosed => ?_) (fun e => Iff.rfl)
    (fun e he => ?_) _, ⟨fun m b hb hid => ?_, ?_, ?_, ?_, fun g => ?_, ?_⟩⟩
  · exact (getElem?_modifySlot_eq_some ho.get _).2 (.inr ⟨ho.ne_of_closed hm hclosed, hm⟩)
  · rw [he]
    simp
  · obtain rfl := hc.unique hb ho hid
    obtain rfl := hb.eq ho
    exact getElem?_reached_self hx.distinct hget rfl _
  · rw [heard_slots, length_bump, drop, Session.modifySlot, List.length_modify]
  · rw [mem_documents_iff, text?_heard, text?_congr (map_tag_bump _), hx.text]
    rintro ⟨-, ⟨⟩⟩
  · rw [heard_graph, bump, hx.mirrors.name, Function.update_self]
    rfl
  · rw [heard_graph, bump, hx.mirrors.mem, Function.update_self]
    intro hg
    cases hg
  · rw [heard_graph, bump, drop, ImportGraph.importsOf_erase_self]

/-! ## At any moment -/

theorem change_touches_importers (h : Live settings host? (s, c)) (hp : s.Passive) (id : String)
    (next : Continuation .reply) :
    (∀ text, s.text? id ≠ some text →
      ∃ s', Leads s (.perform (.update id text) next) [] s' (.replied (.flag true) next) ∧
        Touches s s' id ((s.graph.name? id).toList ++ (Grammar.sniffName? text).toList) ∧
        Files s s' id text) ∧
    (∀ text, s.text? id = some text →
      Leads s (.perform (.update id text) next) [] s (.replied (.flag false) next)) ∧
    (id ∈ s.documents →
      ∃ s', Leads s (.perform (.close id) next) [] s' (.replied .done next) ∧
        Touches s s' id (s.graph.name? id).toList ∧ Drops s s' id) ∧
    (id ∉ s.documents →
      Leads s (.perform (.close id) next) [] s (.replied (.unknownDocument id) next)) := by
  refine ⟨fun text hne => h.aligned.leads_update hp hne next, fun text heq => .one ?_ rfl,
    fun hreg => h.aligned.leads_close hp hreg next, fun hreg => .one ?_ rfl⟩
  · rw [step, begin_update, setText_of_text? heq, if_neg (by simp)]
  · have hn : s.slotOf? id = none := slotOf?_eq_none fun n slot ho hid =>
      hreg (mem_documents.2 ⟨n, slot, ho, hid⟩)
    rw [step, begin, hn]

/-- While a fourth document is being analysed, the host gives the first one another name. The third
one imports both names, and the new one through the second too; it counts one more change. If the
first were dropped instead, the second would not count any. -/
theorem change_touches_importers_renamed_midway :
    ∃ host s next s' s'', Live {} (some host) (s, .perform (.update "a.g4" "grammar X;\n") next) ∧
      next.tasks.map Task.slot = [3] ∧ s.Passive ∧
      s.slots.map (fun slot => (slot.id, slot.epoch)) =
        [("a.g4", 0), ("e.g4", 0), ("d.g4", 0), ("h.g4", 0)] ∧
      Leads s (.perform (.update "a.g4" "grammar X;\n") next) [] s' (.replied (.flag true) next) ∧
      s'.slots[1]?.map Slot.epoch = some 1 ∧ s'.slots[2]?.map Slot.epoch = some 1 ∧
      Leads s (.perform (.close "a.g4") next) [] s'' (.replied .done next) ∧
      s''.slots[1]?.map Slot.epoch = some 0 ∧ s''.slots[2]?.map Slot.epoch = some 1 := by
  have hend : ∃ u, u ∈ performAll 80 [] (start {} (some ⟨[],
        [⟨"H", [.update "a.g4" "grammar X;\n"]⟩]⟩))
        [.update "a.g4" "grammar A;\n", .update "e.g4" "grammar E;\nimport X;\n",
          .update "d.g4" "grammar D;\nimport A, X, E;\n", .update "h.g4" "grammar F;\nimport H;\n",
          .query "d.g4" none .analysis] ∧
      ∃ x, x ∈ some (onward^[5] (u.2, .perform (.query "h.g4" none .analysis) .stop)) ∧
        (match x.2 with
          | .perform (.update id text) _ => id == "a.g4" && text == "grammar X;\n"
          | _ => false) = true ∧ x.2.tasks.map Task.slot = [3] ∧ x.1.scripts.isEmpty ∧
        x.1.text? "a.g4" = some "grammar A;\n" ∧ x.1.graph.name? "a.g4" = some "A" ∧
        x.1.graph.importsOf "e.g4" = ["X"] ∧ x.1.graph.importsOf "d.g4" = ["A", "X", "E"] ∧
        x.1.graph.providers.get? "X" = none ∧
        x.1.slots.map (fun slot => (slot.id, slot.epoch)) =
          [("a.g4", 0), ("e.g4", 0), ("d.g4", 0), ("h.g4", 0)] ∧
        (∃ e, e ∈ x.1.slots[1]? ∧ e.closed = false ∧ e.id = "e.g4" ∧ e.epoch = 0) ∧
        ∃ d, d ∈ x.1.slots[2]? ∧ d.closed = false ∧ d.id = "d.g4" ∧ d.epoch = 0 := by
    decide +kernel
  obtain ⟨⟨ledger, s₀⟩, hs, ⟨s, c⟩, hx, hperform, htasks, hscripts, htext, hname, hie, hid, hunknown,
    hslots, ⟨e, he, heo, heid, hee⟩, d, hd, hdo, hdid, hde⟩ := hend
  have heo : s.IsOpen 1 e := ⟨he, heo⟩
  have hdo : s.IsOpen 2 d := ⟨hd, hdo⟩
  obtain ⟨next, rfl⟩ : ∃ next, c = .perform (.update "a.g4" "grammar X;\n") next := by
    dsimp only at hperform
    split at hperform
    · rename_i id text next
      obtain ⟨hid, htext⟩ := Bool.and_eq_true_iff.1 hperform
      rw [beq_iff_eq.1 hid, beq_iff_eq.1 htext]
      exact ⟨next, rfl⟩
    · cases hperform
  obtain ⟨r, hlive⟩ := (live_start _ _).performAll hs
  have hx : Live _ _ (s, _) := Option.some.inj hx ▸ (hlive.tail (.ask s₀ r _)).trans (goes_onward _ 5)
  have hp : s.Passive := by
    intro e he
    rw [List.isEmpty_iff.1 hscripts] at he
    cases he
  have hdirect : ∀ {names g d}, g ∈ s.graph.importsOf d → g ∈ names → s.graph.Needs names d :=
    fun hi hg => .direct (ImportGraph.imports_iff.2 hi) hg
  have hd : ∀ names, "A" ∈ names → s.graph.Needs names d.id := fun names =>
    hdirect (by rw [hdid, hid]; decide)
  have he' : s.graph.Needs (["A"] ++ (Grammar.sniffName? "grammar X;\n").toList) e.id := by
    refine hdirect (g := "X") ?_ (by decide +kernel)
    rw [heid, hie]
    exact .head _
  have he'' : ¬ s.graph.Needs ["A"] e.id := by
    rw [ImportGraph.needs_iff, heid, hie]
    rintro ⟨g, hg, hcase⟩
    rw [List.mem_singleton.1 hg] at hcase
    rcases hcase with hmem | ⟨f, hf, -⟩
    · exact absurd hmem (by decide)
    · rw [hx.aligned.mirrors.name, ← hx.aligned.mirrors.mem, hunknown] at hf
      cases hf
  obtain ⟨hupdate, -, hclose, -⟩ := change_touches_importers hx hp "a.g4" next
  obtain ⟨s', hlead', htouch', -⟩ := hupdate "grammar X;\n" (by rw [htext]; decide)
  obtain ⟨s'', hlead'', htouch'', -⟩ := hclose (mem_documents_of_text? htext)
  rw [hname] at htouch' htouch''
  refine ⟨_, s, next, s', s'', hx, htasks, hp, hslots, hlead', ?_, ?_, hlead'', ?_, ?_⟩
  · rw [htouch'.importers 1 e heo (by rw [heid]; decide) he', Option.map_some, hee]
  · rw [htouch'.importers 2 d hdo (by rw [hdid]; decide) (hd _ (.head _)), Option.map_some, hde]
  · rw [htouch''.others 1 e heo (by rw [heid]; decide) he'', Option.map_some, hee]
  · rw [htouch''.importers 2 d hdo (by rw [hdid]; decide) (hd _ (.head _)), Option.map_some, hde]

end Session

end GrammarAtlas
