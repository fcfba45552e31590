import GrammarAtlas.Proofs.EditorPositions
import GrammarAtlas.Proofs.Freshness
import GrammarAtlas.Proofs.Questions
import GrammarAtlas.Proofs.References
import GrammarAtlas.Proofs.Schema
import GrammarAtlas.Proofs.UnderWay

/-! # The name under the cursor

A name that occurs in a text is a single word of it (`Resolution.occurrence_spans`), so it has no line
end in it, and the words stand one behind the other. An editor position is therefore that of a
character of at most one of them, and looking it up by its offset finds that one
(`Analysis.Traced.pinpoints`).

Every analysis that a session hands over is of that sort, whatever its scripts and its host do. Main
statement: `Session.occurrenceAt_exact`. -/

namespace GrammarAtlas

theorem not_mem_of_isPlain {name : String} (h : isPlain name) :
    '\n' ∉ name.toList ∧ '\r' ∉ name.toList := by
  have hall := List.all_eq_true.1 h
  exact ⟨fun hmem => absurd (hall _ hmem) (by decide +kernel),
    fun hmem => absurd (hall _ hmem) (by decide +kernel)⟩

namespace Node
variable {parent n : Node} {name : String}

/-- Only options have values that are more than a word. -/
theorem Kind.isPlain_of_admits {kind : Kind} (h : kind.admits (.identifier name)) :
    isPlain name ∨ ∃ key, kind = .option key := by
  cases kind with
  | option key => exact .inr ⟨key, rfl⟩
  | header | tokenList | channelList | command | labeled | repeated | negated => exact .inl h
  | alternative => exact .inl (by simpa [admits, isElement] using h)
  | _ => cases h

theorem Conforms.isPlain (h : parent.Conforms) (hn : n ∈ parent.children)
    (hi : n.kind = .identifier name) (hkept : parent.kind.ignoresNames = false) :
    GrammarAtlas.isPlain name := by
  rcases h.admits_or hn with ha | ⟨-, hname⟩
  · rw [hi] at ha
    refine (Kind.isPlain_of_admits ha).resolve_right fun ⟨key, hk⟩ => ?_
    rw [hk] at hkept
    cases hkept
  · rwa [hi] at hname

end Node

/-- What occurs in a text is a single word of it. -/
theorem Resolution.occurrence_spans {known : Known} {own : SymbolTable} {warn : Bool} {text : String}
    {r : Resolution} {o : Occurrence}
    (h : attempt known (Grammar.parse text).tree own warn = .ok r) (ho : o ∈ r.occurrences) :
    o.location.Spans text.toList o.name.toList ∧ isPlain o.name := by
  have htree := Grammar.parse_assembled text
  have hmention : (o.name, o.location) ∈ r.occurrences.map fun o => (o.name, o.location) :=
    List.mem_map_of_mem ho
  rw [occurrences_mention htree h] at hmention
  obtain ⟨⟨parent?, depth, n⟩, hv, hm⟩ := List.mem_filterMap.1 hmention
  rw [Occurrence.mention?, Option.ite_none_left_eq_some, Option.map_eq_some_iff] at hm
  obtain ⟨hkept, name, hi, heq⟩ := hm
  obtain ⟨rfl, hl⟩ := Prod.mk.inj heq
  have hkind : n.kind = .identifier o.name := by
    unfold Node.identifier? at hi
    split at hi
    · rename_i hk
      rw [hk, Option.some.inj hi]
    · cases hi
  obtain ⟨parent, rfl, hn, hparent⟩ := htree.above_identifier hv (by rw [hkind]; rfl)
  have hstands := ((Grammar.parse_standsIn text).1.visits none 0 _ hv).spelling o.name
    (by rw [hkind]; rfl)
  refine ⟨hl ▸ hstands.2, hparent.isPlain hn hkind ?_⟩
  simpa using hkept

namespace Analysis
variable {a : Analysis} {p : EditorPosition} {o : Occurrence}

/-- The occurrences are words of the text, one behind the other. -/
structure Traced (a : Analysis) : Prop where
  spans : ∀ o ∈ a.occurrences,
    o.location.Spans a.snapshot.text.toList o.name.toList ∧ isPlain o.name
  ordered : a.occurrences.Pairwise fun o o' => o.location.stop.offset ≤ o'.location.start.offset

theorem traced_empty (snapshot : Snapshot) (epoch : Nat) : (empty snapshot epoch).Traced :=
  ⟨nofun, .nil⟩

theorem traced_assemble {known : Known} {table : SymbolTable} {warn : Bool} {r : Resolution}
    {snapshot : Snapshot} (epoch : Nat)
    (h : Resolution.attempt known (Grammar.parse snapshot.text).tree table warn = .ok r) :
    (assemble snapshot epoch (Grammar.parse snapshot.text) table r).Traced := by
  obtain ⟨c, c', hspread⟩ := Resolution.occurrences_spread h
  exact ⟨fun o ho => Resolution.occurrence_spans h ho, List.pairwise_map.1 hspread.ordered⟩

/-- What is found at an editor position: the one occurrence that covers it. -/
structure Pinpoints (a : Analysis) (p : EditorPosition) (found? : Option Occurrence) : Prop where
  found : ∀ o, found? = some o ↔ o ∈ a.occurrences ∧ o.location.Covers p
  single : (a.occurrences.filter fun o => o.location.Covers p).length ≤ 1
  past : p.IsPast a.snapshot.text.toList → found? = none

namespace Traced

theorem exists_offset?_iff (h : a.Traced) (ho : o ∈ a.occurrences) :
    (∃ offset, p.offset? a.snapshot.text.toList = some offset ∧ o.location.contains offset) ↔
      o.location.Covers p := by
  obtain ⟨hspans, hplain⟩ := h.spans o ho
  obtain ⟨hn, hr⟩ := not_mem_of_isPlain hplain
  exact hspans.exists_offset?_iff hn hr

theorem occurrenceAt?_eq (h : a.Traced) (p : EditorPosition) :
    a.occurrenceAt? p = (a.occurrences.filter fun o => o.location.Covers p).head? := by
  cases ho : p.offset? a.snapshot.text.toList with
  | none =>
    have hnone : a.occurrences.filter (fun o => o.location.Covers p) = [] := by
      refine List.filter_eq_nil_iff.2 fun o hmem hp => ?_
      obtain ⟨offset, hsome, -⟩ := (h.exists_offset?_iff hmem).2 (of_decide_eq_true hp)
      rw [ho] at hsome
      cases hsome
    simp [occurrenceAt?, ho, hnone]
  | some offset =>
    have hfilter : a.occurrences.filter (fun o => o.location.Covers p) =
        a.occurrences.filter fun o => o.location.contains offset := by
      refine List.filter_congr fun o hmem => ?_
      rw [Bool.eq_iff_iff, decide_eq_true_iff, ← h.exists_offset?_iff hmem]
      simp [ho]
    rw [hfilter, List.head?_filter]
    simp [occurrenceAt?, ho]

theorem single (h : a.Traced) (p : EditorPosition) :
    (a.occurrences.filter fun o => o.location.Covers p).length ≤ 1 := by
  have hmem : ∀ o ∈ a.occurrences.filter fun o => o.location.Covers p,
      ∃ offset, p.offset? a.snapshot.text.toList = some offset ∧ o.location.contains offset := by
    intro o ho
    obtain ⟨ho, hp⟩ := List.mem_filter.1 ho
    exact (h.exists_offset?_iff ho).2 (of_decide_eq_true hp)
  have hordered := h.ordered.sublist (List.filter_sublist (p := fun o => o.location.Covers p))
  generalize (a.occurrences.filter fun o => o.location.Covers p) = found at hmem hordered
  match found with
  | [] | [_] => simp
  | o :: o' :: _ =>
    obtain ⟨offset, ho, hc⟩ := hmem o (by simp)
    obtain ⟨offset', ho', hc'⟩ := hmem o' (by simp)
    obtain rfl : offset = offset' := Option.some.inj (ho.symm.trans ho')
    have hle := (List.pairwise_cons.1 hordered).1 o' (.head _)
    simp only [Location.contains, Bool.and_eq_true, decide_eq_true_eq] at hc hc'
    omega

theorem pinpoints (h : a.Traced) (p : EditorPosition) : a.Pinpoints p (a.occurrenceAt? p) := by
  have hsingle := h.single p
  have hfound : ∀ o, a.occurrenceAt? p = some o ↔ o ∈ a.occurrences ∧ o.location.Covers p := by
    intro o
    have hmem : o ∈ a.occurrences ∧ o.location.Covers p ↔
        o ∈ a.occurrences.filter fun o => o.location.Covers p := by simp
    rw [h.occurrenceAt?_eq, hmem]
    generalize (a.occurrences.filter fun o => o.location.Covers p) = found at hsingle
    match found with
    | [] => simp
    | [_] => simp [eq_comm]
    | _ :: _ :: _ => simp at hsingle
  refine ⟨hfound, hsingle, fun hpast => Option.eq_none_iff_forall_ne_some.2 fun o ho => ?_⟩
  obtain ⟨ho, hp⟩ := (hfound o).1 ho
  obtain ⟨hspans, hplain⟩ := h.spans o ho
  obtain ⟨hn, hr⟩ := not_mem_of_isPlain hplain
  exact hspans.not_isPast hn hr hp hpast

end Traced

end Analysis

namespace Session
variable {s s' : Session} {x : Moment} {n : Nat} {slot : Slot} {an : Analysis} {settings : Settings}
  {host? : Option Host} {r : Reply} {steps : Nat} {id : String} {text? : Option String}

theorem Live.traced (h : Live settings host? x) (hn : x.1.slots[n]? = some slot)
    (hp : slot.published? = some an) : an.Traced := by
  rcases Goes.published h hn hp with ⟨a, ha, -⟩ | ⟨y, p, hy, -, hpub, -, rfl⟩
  · cases ha
  · obtain ⟨run, rest, resolution, hwaits, hok, -, -, han⟩ := exists_run_of_publication? hpub
    have hrun := (Live.occupied hy ⟨run, none⟩ (hwaits ▸ .head _)).faithful
    rw [hrun.grammar] at hok
    rw [han, Run.analysis, hrun.grammar]
    exact Analysis.traced_assemble run.epoch hok

theorem Live.traced_current (h : Live settings host? x) : ∀ slot ∈ x.1.slots, slot.current.Traced := by
  intro slot hmem
  obtain ⟨n, hn⟩ := List.mem_iff_getElem?.1 hmem
  rw [Slot.current]
  cases hp : slot.published? with
  | none => exact Analysis.traced_empty _ _
  | some an => exact h.traced hn hp

/-- Where a document has been analysed, an editor position is looked up exactly: asked for in the place
of the analysis, and asked for again as long as the analysis holds. -/
theorem occurrenceAt_exact (h : Live settings host? (s, .replied r .stop))
    (ha : s.perform steps (.query id text? .analysis) = some (.analysis an, s'))
    (p : EditorPosition) :
    ∃ found?, an.Pinpoints p found? ∧
      s.perform steps (.query id text? (.occurrenceAt p)) = some (.occurrence found?, s') ∧
      (s'.Shows id an →
        ∃ again, s'.perform again (.query id none (.occurrenceAt p)) = some (.occurrence found?, s')) := by
  obtain ⟨hgoes, hall⟩ := perform_query ha
  have hlive := (h.tail (.ask s r _)).trans hgoes
  have htraced : an.Traced :=
    Live.analyses (P := Analysis.Traced) hlive (fun _ hy => Live.traced_current hy)
      Analysis.traced_empty an (.head _)
  refine ⟨an.occurrenceAt? p, htraced.pinpoints p, hall (.occurrenceAt p), fun hs => ?_⟩
  have hu := (Live.aligned hlive).unique
  have htext : ∀ text, none = some text → s'.text? id = some text := nofun
  obtain ⟨again, hrun, -⟩ := (hs.leads_query hu htext (.occurrenceAt p)).runFor
  exact ⟨again, hrun⟩

/-- With characters of two bytes and a carriage return within a line: the second name of the rule is
found, and at the end of its line there is nothing. -/
theorem occurrenceAt_exact_returns :
    let text := "grammar é;\r\nr : ü\rß ;\r\n"
    ∃ an s' o, (start {} none).perform 20 (.query "e.g4" (some text) .analysis) =
        some (.analysis an, s') ∧
      o ∈ an.occurrences ∧ o.name = "ß" ∧ o.location.start.position = ⟨2, 6⟩ ∧
      (start {} none).perform 20 (.query "e.g4" (some text) (.occurrenceAt ⟨1, 6⟩)) =
        some (.occurrence (some o), s') ∧
      EditorPosition.IsPast ⟨1, 9⟩ text.toList ∧
      (start {} none).perform 20 (.query "e.g4" (some text) (.occurrenceAt ⟨1, 9⟩)) =
        some (.occurrence none, s') := by
  intro text
  have hend : ∃ x, x ∈ (start {} none).perform 20 (.query "e.g4" (some text) .analysis) ∧
      (match x.1 with
        | .analysis a => a.snapshot.text == text && a.occurrences.any fun o => o.name == "ß" &&
            o.location.start.position == ⟨2, 6⟩ && decide (o.location.Covers ⟨1, 6⟩)
        | _ => false) = true := by
    decide +kernel
  obtain ⟨⟨r, s'⟩, hrun, hr⟩ := hend
  cases r with
  | analysis an =>
    simp only [Bool.and_eq_true, beq_iff_eq, List.any_eq_true, decide_eq_true_eq] at hr
    obtain ⟨htext, o, ho, ⟨hname, hplace⟩, hcovers⟩ := hr
    have hpast : EditorPosition.IsPast ⟨1, 9⟩ text.toList := by decide +kernel
    obtain ⟨found?, hfound, hat, -⟩ := occurrenceAt_exact (live_start {} none) hrun ⟨1, 6⟩
    obtain ⟨none?, hnone, hatEnd, -⟩ := occurrenceAt_exact (live_start {} none) hrun ⟨1, 9⟩
    obtain rfl := (hfound.found o).2 ⟨ho, hcovers⟩
    obtain rfl := hnone.past (htext ▸ hpast)
    exact ⟨an, s', o, hrun, ho, hname, hplace, hat, hpast, hatEnd⟩
  | _ => cases hr

end Session

end GrammarAtlas
