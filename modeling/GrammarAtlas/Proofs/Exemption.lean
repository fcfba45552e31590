import GrammarAtlas.Proofs.Invalidation
import GrammarAtlas.Proofs.UnderWay

/-! # Whoever asked is not invalidated

When a document has been analysed because another one imports it, those that import its grammar are
invalidated, all but the one that asked. That is right as long as the document registered under that
name is the one whose analysis is waiting. `Session.requester_sees_result`, for every moment of a
session: what that document shows later rests on the new table or a later one, unless it had been
dropped, registered anew and made fresh while the imported one was under way. Then it keeps the table
that it got before: `Session.requester_misses_result`. -/

namespace GrammarAtlas

/-- Whether the slot is analysed for the document and has something new to show. -/
def Control.isRelease (n : Nat) (d : String) : Control → Bool
  | .cycle m (some e) true _ => m == n && e == d
  | _ => false

theorem Control.eq_cycle_of_isRelease {n : Nat} {d : String} {c : Control}
    (h : c.isRelease n d = true) : ∃ next, c = .cycle n (some d) true next := by
  unfold isRelease at h
  split at h
  · simp only [Bool.and_eq_true, beq_iff_eq] at h
    exact ⟨_, by rw [h.1, h.2]⟩
  · cases h

namespace Session
variable {s s' : Session} {n m : Nat} {slot a b : Slot} {x y z : Moment} {an a₀ : Analysis} {d : String}
  {settings : Settings} {host? : Option Host} {tasks tasks' : List Task} {waits : List Wait}

/-- The document `d` waits for the table of slot `n`. -/
def Requested (s : Session) (n : Nat) (d : String) (waits : List Wait) : Prop :=
  ∃ run g rest slot, waits = ⟨run, some (g, some n)⟩ :: rest ∧ s.slots[run.slot]? = some slot ∧
    slot.id = d

/-- Each analysis that is made for a document is made for the one that waits next to it. -/
def Commissioned (s : Session) : List Wait → Prop
  | [] => True
  | q :: rest => (∀ d, q.run.requester? = some d → s.Requested q.run.slot d rest) ∧
      s.Commissioned rest

theorem Requested.mono (h : s.Requested n d waits) (hs : Succeeds s s') : s'.Requested n d waits := by
  obtain ⟨run, g, rest, slot, hwaits, hn, hid⟩ := h
  obtain ⟨b, hb, hab⟩ := hs _ slot hn
  exact ⟨run, g, rest, b, hwaits, hb, hab.id.trans hid⟩

theorem Commissioned.mono (h : s.Commissioned waits) (hs : Succeeds s s') : s'.Commissioned waits := by
  induction waits with
  | nil => trivial
  | cons q rest ih => exact ⟨fun d hd => (h.1 d hd).mono hs, ih h.2⟩

theorem Live.commissioned (h : Live settings host? x) : x.1.Commissioned x.2.waits ∧
    ∀ n d, x.2.charge? = some (n, some d) → x.1.Requested n d x.2.waits := by
  induction h with
  | refl => exact ⟨trivial, nofun⟩
  | @tail y z hy hmove ih =>
    have hs := Goes.succeeds (.single hmove)
    obtain ⟨hcomm, hcharged⟩ := ih
    replace hcomm := hcomm.mono hs
    replace hcharged := fun n d hc => (hcharged n d hc).mono hs
    cases hmove.progress with
    | aside _ hwaits hcharge =>
      rw [hwaits]
      exact ⟨hcomm, fun n d hc => hcharged n d (hcharge n d hc)⟩
    | read _ _ _ _ _ hwaits hcharge hcharge' =>
      rw [hwaits, hcharge']
      exact ⟨⟨fun d hd => hcharged _ d (hcharge.trans (by rw [hd])), hcomm⟩, nofun⟩
    | @ask s s' c c' slot run rest grammar source? _ hn _ hwaits hwaits' hcharge =>
      rw [hwaits] at hcomm
      rw [hwaits']
      refine ⟨⟨hcomm.1, hcomm.2⟩, fun n d hc => ?_⟩
      obtain ⟨m, rfl, hm⟩ := Option.map_eq_some_iff.1 (hcharge.symm.trans hc)
      obtain ⟨rfl, hid⟩ := Prod.mk.inj hm
      obtain ⟨b, hb, hab⟩ := hs _ slot hn
      exact ⟨run, grammar, rest, b, rfl, hb, hab.id.trans (Option.some.inj hid)⟩
    | learn _ _ hwaits hwaits' hcharge =>
      rw [hwaits', hcharge]
      rcases hwaits with hwaits | ⟨-, hwaits⟩ <;> rw [hwaits] at hcomm <;>
        exact ⟨⟨hcomm.1, hcomm.2⟩, nofun⟩
    | @leave s s' c c' run _ _ hwaits hcharge =>
      rw [hwaits] at hcomm
      refine ⟨hcomm.2, fun n d hc => ?_⟩
      obtain ⟨rfl, hd⟩ := hcharge n d hc
      exact hcomm.1 d hd

/-- Of two analyses under way for documents of one name, the outer one is of a document that has been
dropped. -/
def Layered (s : Session) (tasks : List Task) : Prop :=
  (tasks.map Task.slot).Pairwise fun inner outer => ∀ a b, s.slots[inner]? = some a →
    s.slots[outer]? = some b → a.id = b.id → b.closed = true

theorem Layered.mono (h : s.Layered tasks) (ht : s.Tended tasks) (hs : Succeeds s s') :
    s'.Layered tasks := by
  refine h.imp_of_mem fun {i o} hi ho hio a' b' ha' hb' hid => ?_
  obtain ⟨a, ha, -⟩ := (ht.inFlight i).1 hi
  obtain ⟨b, hb, -⟩ := (ht.inFlight o).1 ho
  obtain ⟨c, hc, hac⟩ := hs i a ha
  obtain rfl : c = a' := Option.some.inj (hc.symm.trans ha')
  obtain ⟨c', hc', hbc⟩ := hs o b hb
  obtain rfl : c' = b' := Option.some.inj (hc'.symm.trans hb')
  exact (hbc.closed (hio a b ha hb (by rw [← hac.id, hid, hbc.id]))).1

theorem Layered.turn (h : s.Layered tasks) (ha : s.Aligned) (ht : s.Tended tasks)
    (hturn : Turn s tasks s' tasks') : s'.Layered tasks' := by
  have hold := h.mono ht hturn.succeeds
  cases hturn with
  | pass | retext | register | read | discard | publish => exact hold
  | @takeUp n slot _ ho hrest =>
    refine List.pairwise_cons.2 ⟨fun o hmem a b hn hb hid => ?_, hold⟩
    -- The slot is open, so another one of that name is not.
    have hne : o ≠ n := by
      rintro rfl
      obtain ⟨c, hc, hflight⟩ := (ht.inFlight o).1 hmem
      rw [← Option.some.inj (ho.get.symm.trans hc), hrest] at hflight
      cases hflight
    rw [get?_modifySlot_of_ne _ hne.symm] at hb
    rw [get?_modifySlot, ho.get, Option.map_some] at hn
    rw [← Bool.not_eq_false]
    intro hopen
    refine hne (ha.unique ⟨hb, hopen⟩ ho ?_)
    rw [← hid, ← Option.some.inj hn]
  | release | lose => exact (List.pairwise_cons.1 hold).2

theorem Live.layered (h : Live settings host? x) : x.1.Layered x.2.tasks := by
  have hall := Goes.keeps (P := fun s tasks => s.Aligned ∧ s.Tended tasks ∧ s.Layered tasks)
    (fun ⟨ha, ht, hl⟩ hturn => ⟨ha.turn hturn, ht.turn hturn, hl.turn ha ht hturn⟩)
    (fun ⟨ha, ht, hl⟩ hecho => ⟨ha.echo hecho, ht.echo hecho, hl.mono ht hecho.succeeds⟩) h
    ⟨aligned_start settings host?, tended_start settings host?, .nil⟩
  exact hall.2.2

/-! ## What whoever asked gets to see -/

/-- The exempted document stays as it is. -/
theorem isOpen_invalidateReached (hu : s.Unique) (origin : String) (grammars : List String)
    (ho : s.IsOpen n slot) :
    (s.invalidateReached origin grammars (some slot.id)).1.IsOpen n slot := by
  have hno : slot.id ∉ s.reached origin grammars (some slot.id) := by
    simp [reached]
  rw [invalidateReached_eq hu]
  refine ⟨?_, ho.opened⟩
  rw [bump, List.getElem?_map, ho.get, Option.map_some, Slot.bump_of_not_mem hno]

theorem Aligned.requester_exempt (h : s.Aligned) (m : Nat) (changed : Bool)
    (next : Continuation .analysis) (ho : s.IsOpen n slot) :
    ∃ b, (s.step (.cycle m (some slot.id) changed next)).1.IsOpen n b ∧ b.epoch = slot.epoch := by
  rw [step, cycleSlot]
  split
  · exact ⟨slot, ho, rfl⟩
  · rename_i source hm
    split
    · rw [releaseSlot]
      have hrelease : ∃ b, (s.modifySlot m ({ · with inFlight := false })).IsOpen n b ∧
          b.id = slot.id ∧ b.epoch = slot.epoch := by
        by_cases hn : m = n
        · subst hn
          refine ⟨{ slot with inFlight := false }, ⟨?_, ho.opened⟩, rfl, rfl⟩
          rw [get?_modifySlot, ho.get, Option.map_some]
        · exact ⟨slot, ⟨by rw [get?_modifySlot_of_ne _ hn, ho.get], ho.opened⟩, rfl, rfl⟩
      obtain ⟨b, hb, hid, hepoch⟩ := hrelease
      split
      · have hu := (h.modifySlot (f := ({ · with inFlight := false })) (fun _ => rfl) m).unique
        exact ⟨b, hid ▸ isOpen_invalidateReached hu _ _ hb, hepoch⟩
      · exact ⟨b, hb, hepoch⟩
    · refine ⟨slot, ⟨?_, ho.opened⟩, rfl⟩
      rw [slots_readSlot]
      exact ho.get

/-- What was published for slot `m` at the moment `x`, or something newer, is what is taken from it
later. -/
theorem Takes.newer {w : Moment} {g : String} {t? : Option SymbolTable}
    (h : Takes w n g (some m) t?) (hxw : Goes x w) (hm : x.1.slots[m]? = some b)
    (hp : b.published? = some a₀) :
    ∃ a, t? = some a.table ∧
      (a = a₀ ∨ toLex (a₀.version, a₀.epoch) < toLex (a.version, a.epoch)) := by
  cases h with
  | table s an run grammar source next =>
    obtain ⟨c, hc, hbc⟩ := hxw.succeeds m b hm
    obtain ⟨a, ha, hnewer⟩ := hbc.published a₀ hp
    refine ⟨a, ?_, hnewer⟩
    rw [show s.slots[m]? = some c from hc, Option.bind_some, ha, Option.map_some]

/-- The analysis that waits for the table of slot `m` is the only one of its document under way, if
that is still registered later. -/
theorem Live.eq_of_slot (hx : Live settings host? x) (hxy : Goes x y) {q q₀ : Wait}
    {rest : List Wait} (hwaits : x.2.waits = q :: rest) (ha : x.1.slots[q.run.slot]? = some a)
    (hslot : y.1.IsOpen n slot) (hid : slot.id = a.id) (hq₀ : q₀ ∈ x.2.waits)
    (hn : q₀.run.slot = n) : q₀ = q := by
  rw [hwaits] at hq₀
  refine (List.mem_cons.1 hq₀).resolve_right fun hrest => ?_
  have hlayered := List.Pairwise.sublist (x.2.sublist_tasks.map Task.slot) hx.layered
  rw [hwaits, List.map_map, List.map_cons, List.pairwise_cons] at hlayered
  have htask : q₀.run.task ∈ x.2.tasks :=
    x.2.sublist_tasks.subset (List.mem_map.2 ⟨q₀, hwaits ▸ hq₀, rfl⟩)
  obtain ⟨b, hb, -⟩ := (hx.tended.inFlight q₀.run.slot).1 (List.mem_map.2 ⟨_, htask, rfl⟩)
  subst hn
  obtain ⟨c, hc, hbc⟩ := hxy.succeeds _ b hb
  obtain rfl : c = slot := Option.some.inj (hc.symm.trans hslot.get)
  have hclosed := hlayered.1 _ (List.mem_map.2 ⟨q₀, hrest, rfl⟩) a b ha hb
    (by rw [← hid, hbc.id])
  have := (hbc.closed hclosed).1
  rw [hslot.opened] at this
  cases this

/-- A document that is fresh with an analysis that was published before was so then. -/
theorem Live.fresh_before (hx : Live settings host? x) (hxy : Goes x y) (ho : y.1.IsOpen n slot)
    (hf : slot.isFresh = true) (ha : x.1.slots[n]? = some a) (hp : a.published? = slot.published?) :
    x.1.IsOpen n a ∧ a.id = slot.id ∧ a.isFresh = true := by
  obtain ⟨b, hb, hab⟩ := hxy.succeeds n a ha
  obtain rfl : b = slot := Option.some.inj (hb.symm.trans ho.get)
  refine ⟨⟨ha, ?_⟩, hab.id.symm, ?_⟩
  · by_contra hclosed
    have := (hab.closed (by simpa using hclosed)).1
    rw [ho.opened] at this
    cases this
  · by_contra hno
    have hstale := hx.tended.isFresh_eq_false hxy.succeeds (n := n)
      (fun c an hc hpc => ⟨a, ha, ?_⟩) (fun c hc => ?_) b hb
    · rw [hstale] at hf
      cases hf
    · rw [hp, ← Option.some.inj (hc.symm.trans hb), hpc]
    · rwa [← Option.some.inj (ha.symm.trans hc), ← Bool.not_eq_true]

theorem requester_sees_result (hx : Live settings host? x) {changed : Bool}
    {next : Continuation .analysis} (hc : x.2 = .cycle m (some d) changed next)
    (hm : x.1.slots[m]? = some b) (hp : b.published? = some a₀) :
    (∀ n a, x.1.IsOpen n a → a.id = d →
      ∃ a', (x.1.step x.2).1.IsOpen n a' ∧ a'.epoch = a.epoch) ∧
    ∃ run g rest, x.2.waits = ⟨run, some (g, some m)⟩ :: rest ∧
      (∃ a, x.1.slots[run.slot]? = some a ∧ a.id = d) ∧
      ∀ y an, Goes x y → y.1.Shows d an →
        (∃ n a, n ≠ run.slot ∧ x.1.IsOpen n a ∧ a.id = d ∧ a.isFresh = true ∧
          a.published? = some an) ∨
        ∃ z p, Goes x z ∧ Goes z y ∧ z.1.publication? z.2 = some p ∧
          y.1.slotOf? d = some p.slot ∧ p.analysis = an ∧ ∀ e t?, (e, t?) ∈ p.known →
            (p.slot = run.slot ∧ (e, t?) ∈ run.known ∧ e ≠ g) ∨
            ∃ w source?, Goes x w ∧ Goes w z ∧ Takes w p.slot e source? t? ∧
              (e = g ∧ source? = some m ∨ ∃ w₀, Goes x w₀ ∧ Goes w₀ w ∧ Seeks w₀ p.slot e source?) ∧
              (source? = some m → ∃ a, t? = some a.table ∧
                (a = a₀ ∨ toLex (a₀.version, a₀.epoch) < toLex (a.version, a.epoch))) := by
  refine ⟨fun n a ho hid => ?_, ?_⟩
  · rw [hc, ← hid]
    exact hx.aligned.requester_exempt m changed next ho
  obtain ⟨run, g, rest, a, hwaits, ha, hd⟩ := hx.commissioned.2 m d (by rw [hc]; rfl)
  have hrun := hx.occupied ⟨run, some (g, some m)⟩ (by rw [hwaits]; exact .head _)
  have hasked := hrun.asked g (some m) rfl
  refine ⟨run, g, rest, hwaits, ⟨a, ha, hd⟩, fun y an hxy hshows => ?_⟩
  obtain ⟨n, slot, ho, hid, hfresh, han⟩ := hshows.exists_slot
  have honly : ∀ q₀ ∈ x.2.waits, q₀.run.slot = n → q₀ = ⟨run, some (g, some m)⟩ := fun q₀ hq₀ hn =>
    hx.eq_of_slot hxy hwaits ha ho (hid.trans hd.symm) hq₀ hn
  rcases hxy.published ho.get han with ⟨a', ha', hpa'⟩ | ⟨z, p, hxz, hzy, hpub, rfl, hpan⟩
  · -- It was shown at that moment already, but not by the slot whose analysis was waiting.
    obtain ⟨ho', hid', hfresh'⟩ := hx.fresh_before hxy ho hfresh ha' (hpa'.trans han.symm)
    refine .inl ⟨n, a', ?_, ho', hid'.trans hid, hfresh', hpa'⟩
    rintro rfl
    rw [hrun.isFresh a' ha'] at hfresh'
    cases hfresh'
  · refine .inr ⟨z, p, hxz, hzy, hpub, ?_, hpan, fun e t? he => ?_⟩
    · rw [← hid]
      exact (Live.aligned (hx.trans hxy)).unique.slotOf? ho
    obtain ⟨run', rest', r, hwaits', -, hslot, hknown, -⟩ := exists_run_of_publication? hpub
    obtain ⟨base, extra, happ, hbase, hextra⟩ :=
      (hxz.gathered ⟨run', none⟩ (by rw [hwaits']; exact .head _)).known
    rw [hknown, show run'.known = base ++ extra from happ, List.mem_append] at he
    rcases he with he | he
    · rcases hbase with rfl | ⟨q₀, hq₀, hq₀slot, rfl⟩
      · -- An analysis begun since then knew nothing at first.
        rw [hxz.settings_eq, firstKnown, if_pos (hrun.resolveImports hasked)] at he
        cases he
      · obtain rfl := honly q₀ hq₀ (hq₀slot.trans hslot.symm)
        refine .inl ⟨hslot.trans hq₀slot.symm, he, ?_⟩
        rintro rfl
        exact Known.lookup_eq_none.1 (Resolution.attempt_error hasked).1 (List.mem_map_of_mem he)
    · obtain ⟨source?, w, hxw, hwz, htakes, hsought⟩ := hextra _ he
      rw [show run'.slot = p.slot from hslot.symm] at htakes hsought
      refine .inr ⟨w, source?, hxw, hwz, htakes, hsought.imp_left ?_, ?_⟩
      · rintro ⟨q₀, hq₀, hq₀slot, hask⟩
        rw [honly q₀ hq₀ hq₀slot] at hask
        obtain ⟨rfl, rfl⟩ := Prod.mk.inj (Option.some.inj hask)
        exact ⟨rfl, rfl⟩
      · rintro rfl
        exact htakes.newer hxw hm hp

/-- The imported document is being analysed when the host, asked for a grammar, gives the importing one
another text. -/
theorem requester_sees_result_retexted :
    ∃ host x y next b a₀ an, Live {} (some host) x ∧ x.2 = .cycle 0 (some "d.g4") true next ∧
      x.1.IsOpen 0 b ∧ b.isFresh = true ∧ b.published? = some a₀ ∧ Goes x y ∧
      (∃ r, y.2 = .replied r .stop) ∧ y.1.Shows "d.g4" an ∧
      ∃ z p, Goes x z ∧ Goes z y ∧ z.1.publication? z.2 = some p ∧
        y.1.slotOf? "d.g4" = some p.slot ∧ p.analysis = an ∧ ∀ t?, ("M", t?) ∈ p.known →
          ∃ w source?, Goes x w ∧ Goes w z ∧ Takes w p.slot "M" source? t? ∧
            (source? = some 0 → ∃ a, t? = some a.table ∧
              (a = a₀ ∨ toLex (a₀.version, a₀.epoch) < toLex (a.version, a.epoch))) := by
  have hend : ∃ u, u ∈ performAll 60 [] (start {} (some ⟨[],
        [⟨"H", [.update "d.g4" "grammar D;\nimport M;\ne: m;\n"]⟩]⟩))
        [.update "m.g4" "grammar M;\nimport H;\nm: 'm';\n",
          .update "d.g4" "grammar D;\nimport M;\nd: m;\n"] ∧
      ∃ x, x ∈ some (onward^[14] (u.2, .perform (.query "d.g4" none .diagnostics) .stop)) ∧
        x.2.isRelease 0 "d.g4" = true ∧ x.2.waits.all (·.ask? == some ("M", some 0)) = true ∧
        x.1.slotOf? "m.g4" = some 0 ∧ x.1.freshness? "m.g4" = some .fresh ∧
        x.1.freshness? "d.g4" = some .empty ∧
        ∃ v, v ∈ runFor 60 x.1 x.2 ∧ v.2.slotOf? "d.g4" = some 1 ∧
          v.2.freshness? "d.g4" = some .fresh := by
    decide +kernel
  obtain ⟨⟨ledger, s⟩, hs, x, hx, hrelease, hasks, hm, hmfresh, hempty, ⟨r, s'⟩, hrun, hd, hdfresh⟩ := hend
  obtain ⟨next, hc⟩ := Control.eq_cycle_of_isRelease hrelease
  obtain ⟨r', hlive⟩ := (live_start _ _).performAll hs
  have hx : Live _ _ x := Option.some.inj hx ▸ (hlive.tail (.ask s r' _)).trans (goes_onward _ 14)
  have hxy := goes_runFor hrun
  obtain ⟨b, hb, -, hbfresh⟩ := isFresh_of_freshness? hm hmfresh
  obtain ⟨a₀, ha₀, -⟩ := Slot.isFresh_iff.1 hbfresh
  obtain ⟨slot, hslot, hid, hfresh⟩ := isFresh_of_freshness? hd hdfresh
  obtain ⟨an, han, -⟩ := Slot.isFresh_iff.1 hfresh
  have hshows : s'.Shows "d.g4" an := ⟨1, slot, hslot, hid, hfresh, han⟩
  obtain ⟨-, run, g, rest, hwaits, -, hlater⟩ := requester_sees_result hx hc hb.get ha₀
  rw [hwaits, List.all_cons, Bool.and_eq_true, beq_iff_eq] at hasks
  obtain ⟨rfl, -⟩ := Prod.mk.inj (Option.some.inj hasks.1)
  refine ⟨_, x, _, next, b, a₀, an, hx, hc, hb, hbfresh, ha₀, hxy, ⟨r, rfl⟩, hshows, ?_⟩
  rcases hlater _ an hxy hshows with ⟨m, a, -, hoa, haid, hafresh, -⟩ | ⟨z, p, hxz, hzy, hp, hpn, hpan, hk⟩
  · rw [← haid, freshness?_of_isOpen hx.aligned.unique hoa,
      Slot.freshness_eq_fresh_iff.2 hafresh] at hempty
    cases hempty
  · refine ⟨z, p, hxz, hzy, hp, hpn, hpan, fun t? ht => ?_⟩
    rcases hk "M" t? ht with ⟨-, -, hne⟩ | ⟨w, source?, hxw, hwz, htakes, -, hnewer⟩
    · exact absurd rfl hne
    · exact ⟨w, source?, hxw, hwz, htakes, hnewer⟩

set_option synthInstance.maxSize 1000 in
/-- The imported document is being analysed when the host, asked for a grammar, drops the importing one,
registers it anew and has it analysed. The imported grammar has no table yet, and that is what the new
document goes on showing. -/
theorem requester_misses_result :
    ∃ host x y next b p, Live {} (some host) x ∧ x.2 = .cycle 0 (some "d.g4") true next ∧
      x.1.IsOpen 0 b ∧ b.id = "m.g4" ∧ b.isFresh = true ∧
      (∃ w, Goes w x ∧ w.1.publication? w.2 = some p) ∧ ("M", none) ∈ p.known ∧
      Goes x y ∧ (∃ r, y.2 = .replied r .stop) ∧ y.1.Shows "d.g4" p.analysis ∧
      y.1.freshness? "m.g4" = some .fresh ∧ y.1.graph.provider? "M" = some "m.g4" := by
  have hend : ∃ u, u ∈ performAll 60 [] (start {} (some ⟨[],
        [⟨"H", [.close "d.g4", .update "d.g4" "grammar D;\nimport M;\nd: m;\n",
          .query "d.g4" none .diagnostics]⟩]⟩))
        [.update "m.g4" "grammar M;\nimport H;\nm: 'm';\n",
          .update "d.g4" "grammar D;\nimport M;\nd: m;\n"] ∧
      ∃ w, w ∈ some (onward^[22] (u.2, .perform (.query "d.g4" none .diagnostics) .stop)) ∧
        ∃ p, p ∈ w.1.publication? w.2 ∧ p.slot = 2 ∧ (∃ e ∈ p.known, e.1 = "M" ∧ e.2.isNone) ∧
        ∃ x, x ∈ some (onward^[8] (onward w)) ∧ x.2.isRelease 0 "d.g4" = true ∧
        x.1.slotOf? "m.g4" = some 0 ∧ x.1.freshness? "m.g4" = some .fresh ∧
        ∃ v, v ∈ runFor 60 x.1 x.2 ∧ v.2.slotOf? "d.g4" = some 2 ∧
          v.2.freshness? "d.g4" = some .fresh ∧ v.2.freshness? "m.g4" = some .fresh ∧
          v.2.graph.provider? "M" = some "m.g4" ∧
          v.2.slots[2]?.map (fun slot => (slot.latest.version, slot.epoch)) =
            some (p.analysis.version, p.analysis.epoch) := by
    decide +kernel
  obtain ⟨⟨ledger, s⟩, hs, w, hw, p, hp, hslot, ⟨⟨e, t?⟩, he, rfl, ht⟩, x, hx, hrelease, hm, hmfresh,
    ⟨r, s'⟩, hrun, hd, hdfresh, hmfresh', hprovider, hstamp⟩ := hend
  obtain rfl := Option.isNone_iff_eq_none.1 ht
  obtain ⟨next, hc⟩ := Control.eq_cycle_of_isRelease hrelease
  obtain ⟨r', hlive⟩ := (live_start _ _).performAll hs
  have hw : Live _ _ w := Option.some.inj hw ▸ (hlive.tail (.ask s r' _)).trans (goes_onward _ 22)
  have hwx : Goes (onward w) x := Option.some.inj hx ▸ goes_onward _ 8
  have hwx' : Goes w x := .head (.step _ _) hwx
  have hxy := goes_runFor hrun
  obtain ⟨b, hb, hbid, hbfresh⟩ := isFresh_of_freshness? hm hmfresh
  obtain ⟨slot, ho, hid, hfresh⟩ := isFresh_of_freshness? hd hdfresh
  obtain ⟨an, han, hlatest, hepoch⟩ := Slot.isFresh_iff.1 hfresh
  refine ⟨_, x, _, next, b, p, hw.trans hwx', hc, hb, hbid, hbfresh, ⟨w, hwx', hp⟩, he, hxy, ⟨r, rfl⟩,
    ⟨2, slot, ho, hid, hfresh, ?_⟩, hmfresh', hprovider⟩
  -- What is shown has the version and the epoch of that publication, so nothing has replaced it.
  obtain ⟨c, hcget, hcp⟩ := published_of_publication? hp
  rw [hslot] at hcget
  obtain ⟨slot', hslot', hcslot⟩ := Goes.succeeds (hwx.trans hxy) 2 c hcget
  obtain rfl : slot' = slot := Option.some.inj (hslot'.symm.trans ho.get)
  obtain ⟨q, hq, hnewer⟩ := hcslot.published _ hcp
  obtain rfl : an = q := Option.some.inj (han.symm.trans hq)
  rw [ho.get, Option.map_some, Option.some.injEq, Prod.mk.injEq, ← hlatest, ← hepoch] at hstamp
  rcases hnewer with rfl | hnewer
  · exact hq
  · rw [show an.version = p.analysis.version from hstamp.1, hstamp.2] at hnewer
    exact absurd hnewer (lt_irrefl _)

end Session

end GrammarAtlas
