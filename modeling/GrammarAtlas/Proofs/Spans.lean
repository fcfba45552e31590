import GrammarAtlas.Proofs.Locations
import GrammarAtlas.Proofs.References

/-! # Spans are ordered and nested

A node is closed over what was read since it began, and it may begin at a token that is not read: an
empty node then stands at that token, beyond the end of the node above it. What holds of all nodes
is read off the cursor. The token ahead never lies before the end of what was read
(`Cursor.Orderly`), and it moves to the right only. A reading lays its nodes between the token ahead
at its start and the one ahead at its end (`Reading.lays`): `Laid lo ns hi` says so of nodes and of all below them.

Main statement: `Grammar.parse_spans_nested`. -/

namespace GrammarAtlas

/-- Stretches that are not empty and stand one behind the other. -/
structure Location.Successive (ls : List Location) : Prop where
  nonempty : ∀ l ∈ ls, l.start.offset < l.stop.offset
  ascending : ls.Pairwise fun l m => l.start.offset < m.start.offset
  disjoint : ls.Pairwise fun l m => l.stop.offset ≤ m.start.offset

theorem Reading.Spread.successive {c c' : Cursor} {ls : List Location}
    (h : Reading.Spread c ls c') : Location.Successive ls :=
  ⟨h.nonempty, h.ascending, h.ordered⟩

namespace Node

/-- The children of a node begin no earlier than the node, each no earlier than those before it end,
and they end within the node unless they are empty. -/
structure Embraces (n : Node) : Prop where
  begins : ∀ m ∈ n.children, n.location.start.offset ≤ m.location.start.offset
  ordered : n.children.Pairwise fun m k => m.location.stop.offset ≤ k.location.start.offset
  within : ∀ m ∈ n.children, m.location.start.offset < m.location.stop.offset →
    m.location.stop.offset ≤ n.location.stop.offset

/-- The nodes of a list, with what is below them, stand one behind the other between two offsets. -/
inductive Laid : Nat → List Node → Nat → Prop
  | nil {lo hi : Nat} (h : lo ≤ hi) : Laid lo [] hi
  /-- The node is passed at `mid`, and so is all that is below it. -/
  | cons {lo mid hi : Nat} {n : Node} {ns : List Node} (hlo : lo ≤ n.location.start.offset)
    (hspan : n.location.start.offset ≤ n.location.stop.offset) (hmid : n.location.stop.offset ≤ mid)
    (hc : Laid n.location.start.offset n.children mid)
    (hw : ∀ m ∈ n.children, m.location.start.offset < m.location.stop.offset →
      m.location.stop.offset ≤ n.location.stop.offset)
    (h : Laid mid ns hi) : Laid lo (n :: ns) hi

namespace Laid
variable {lo mid hi : Nat} {n : Node} {ns ms : List Node}

theorem le (h : Laid lo ns hi) : lo ≤ hi := by
  induction h with
  | nil h => exact h
  | cons => omega

theorem mono {hi' : Nat} (h : Laid lo ns hi) (hle : hi ≤ hi') : Laid lo ns hi' := by
  induction h with
  | nil h => exact .nil (by omega)
  | cons hlo hspan hmid hc hw _ _ ih => exact .cons hlo hspan hmid hc hw (ih hle)

theorem append (h : Laid lo ns mid) (h' : Laid mid ms hi) : Laid lo (ns ++ ms) hi := by
  induction h with
  | nil hle =>
    rw [List.nil_append]
    cases h' with
    | nil hle' => exact .nil (by omega)
    | cons hlo hspan hmid hc hw h => exact .cons (by omega) hspan hmid hc hw h
  | cons hlo hspan hmid hc hw _ _ ih => exact .cons hlo hspan hmid hc hw (ih h')

/-- The nodes lie between the two offsets. -/
theorem bounds (h : Laid lo ns hi) :
    ∀ m ∈ ns, lo ≤ m.location.start.offset ∧ m.location.stop.offset ≤ hi := by
  induction h with
  | nil => simp
  | cons hlo hspan hmid _ _ h _ ih =>
    have hle := h.le
    refine List.forall_mem_cons.2 ⟨⟨hlo, by omega⟩, fun m hm => ?_⟩
    obtain ⟨hstart, hstop⟩ := ih m hm
    exact ⟨by omega, hstop⟩

theorem ordered (h : Laid lo ns hi) :
    ns.Pairwise fun m k => m.location.stop.offset ≤ k.location.start.offset := by
  induction h with
  | nil => exact .nil
  | cons _ _ hmid _ _ h _ ih =>
    refine .cons (fun k hk => ?_) ih
    have hstart := (h.bounds k hk).1
    omega

theorem single_of_mem (h : Laid lo ns hi) : ∀ m ∈ ns, ∃ hi, Laid m.location.start.offset [m] hi := by
  induction h with
  | nil => simp
  | cons _ hspan hmid hc hw _ _ ih =>
    exact List.forall_mem_cons.2 ⟨⟨_, .cons le_rfl hspan hmid hc hw (.nil le_rfl)⟩, ih⟩

theorem embraces (h : Laid lo [n] hi) : n.Embraces := by
  cases h with
  | cons _ _ _ hc hw _ => exact ⟨fun m hm => (hc.bounds m hm).1, hc.ordered, hw⟩

theorem children (h : Laid lo [n] hi) :
    ∀ m ∈ n.children, ∃ hi, Laid m.location.start.offset [m] hi := by
  cases h with
  | cons _ _ _ hc _ _ => exact hc.single_of_mem

/-- Offsets at which a walk comes upon nodes never decrease, and lie between the two offsets. -/
theorem starts (h : Laid lo ns hi) (parent? : Option Node) (depth : Nat) :
    ((visitsAll parent? depth ns).Pairwise fun v w =>
        v.2.2.location.start.offset ≤ w.2.2.location.start.offset) ∧
      ∀ v ∈ visitsAll parent? depth ns,
        lo ≤ v.2.2.location.start.offset ∧ v.2.2.location.start.offset ≤ hi := by
  induction h generalizing parent? depth with
  | nil => simp [visitsAll]
  | @cons lo mid hi n ns hlo hspan hmid hc _ h ihc ih =>
    obtain ⟨kind, l, children⟩ := n
    obtain ⟨hbelow, hbelowIn⟩ := ihc (some ⟨kind, l, children⟩) (depth + 1)
    obtain ⟨hrest, hrestIn⟩ := ih parent? depth
    have hmidhi := h.le
    simp only at hlo hspan hmid hbelow hbelowIn
    rw [visitsAll, visits]
    constructor
    · rw [List.pairwise_append, List.pairwise_cons]
      refine ⟨⟨fun v hv => (hbelowIn v hv).1, hbelow⟩, hrest, fun v hv w hw => ?_⟩
      have hw := (hrestIn w hw).1
      rcases List.mem_cons.1 hv with rfl | hv
      · show l.start.offset ≤ _
        omega
      · have hv := (hbelowIn v hv).2
        omega
    · rw [List.forall_mem_append, List.forall_mem_cons]
      refine ⟨⟨⟨hlo, ?_⟩, fun v hv => ?_⟩, fun v hv => ?_⟩
      · show l.start.offset ≤ hi
        omega
      · have hv := hbelowIn v hv
        omega
      · have hv := hrestIn v hv
        omega

end Laid

end Node

theorem Token.Follow.finish_start {cs before : List Char} {finish : Token} {ts : List Token}
    (h : Follow cs finish before ts) : finish.start = .behind cs := by
  induction h with
  | nil _ hs _ => exact hs
  | cons _ _ _ _ ih => exact ih

/-- No token reaches beyond the end of the text. -/
theorem Token.Follow.stop_le {cs before : List Char} {finish : Token} {ts : List Token}
    (h : Follow cs finish before ts) : ∀ t ∈ ts, t.stop.offset ≤ finish.start.offset := by
  induction h with
  | nil => simp
  | @cons before t ts _ _ he h ih =>
    refine List.forall_mem_cons.2 ⟨?_, ih⟩
    obtain ⟨after, rfl⟩ := h.isPrefix
    rw [he, h.finish_start]
    simp only [Mark.behind, byteLength_append]
    omega

namespace Cursor
variable {c : Cursor} {t : Token} {ts : List Token}

/-- The token ahead lies behind what was read last, and the end of the text behind all tokens. -/
structure Orderly (c : Cursor) : Prop where
  passed : c.lastStop.offset ≤ c.peek.start.offset
  last : ∀ t ∈ c.ahead, t.stop.offset ≤ c.finish.start.offset

theorem orderly_ofStream (cs : List Char) : (ofStream (TokenStream.ofChars cs).1).Orderly :=
  ⟨Nat.zero_le _, (Token.follow_ofChars cs).stop_le⟩

theorem Orderly.after (h : c.Orderly) (hr : c.Regular) (ht : c.ahead = t :: ts) :
    (c.after t ts).Orderly := by
  have hlast := h.last
  have hordered := hr.ordered
  rw [ht] at hlast hordered
  refine ⟨?_, fun u hu => hlast u (.tail _ hu)⟩
  show t.stop.offset ≤ (ts.headD c.finish).start.offset
  cases ts with
  | nil => exact hlast t (.head _)
  | cons u ts => exact (List.pairwise_cons.1 hordered).1 u (.head _)

theorem Orderly.ahead (h : c.Orderly) (hr : c.Regular) :
    ∀ t ∈ c.ahead, c.lastStop.offset ≤ t.start.offset := by
  have hpassed := h.passed
  have hordered := hr.ordered
  have hnonempty := hr.nonempty
  rw [peek] at hpassed
  cases ha : c.ahead with
  | nil => simp
  | cons t ts =>
    rw [ha] at hpassed hordered hnonempty
    simp only [List.headD_cons] at hpassed
    refine List.forall_mem_cons.2 ⟨hpassed, fun u hu => ?_⟩
    have hu := (List.pairwise_cons.1 hordered).1 u hu
    have ht := hnonempty t (.head _)
    omega

theorem since_stop (c : Cursor) (start : Mark) :
    (c.since start).stop.offset = max start.offset c.lastStop.offset := by
  rw [since]
  split
  · show start.offset = _
    omega
  · show c.lastStop.offset = _
    omega

end Cursor

namespace Reading
variable {c c' : Cursor} {ns : List Node}

/-- Nodes between two cursors. Those that are not empty end with what was read last, or before. -/
structure Lays (c : Cursor) (ns : List Node) (c' : Cursor) : Prop where
  orderly : c'.Orderly
  laid : Node.Laid c.peek.start.offset ns c'.peek.start.offset
  read : ∀ n ∈ ns, n.location.start.offset < n.location.stop.offset →
    n.location.stop.offset ≤ c'.lastStop.offset

namespace Lays
variable {c₁ c₂ : Cursor} {ms children : List Node}

theorem append (h : Lays c ns c₁) (h' : Lays c₁ ms c₂)
    (hle : c₁.lastStop.offset ≤ c₂.lastStop.offset) : Lays c (ns ++ ms) c₂ := by
  refine ⟨h'.orderly, h.laid.append h'.laid, List.forall_mem_append.2 ⟨fun n hn hlt => ?_, h'.read⟩⟩
  have hread := h.read n hn hlt
  omega

theorem start (h : c.Orderly) : Lays c [] c := ⟨h, .nil le_rfl, by simp⟩

theorem token {t : Token} {ts : List Token} (h : Lays c ns c') (hr : c'.Regular)
    (ht : c'.ahead = t :: ts) : Lays c ns (c'.after t ts) := by
  have hafter := h.orderly.after hr ht
  have hpassed := h.orderly.passed
  have hlt := hr.nonempty t (ht ▸ .head _)
  have hnext : t.stop.offset ≤ (c'.after t ts).peek.start.offset := hafter.passed
  rw [Cursor.peek_of_ahead ht] at hpassed
  refine ⟨hafter, h.laid.mono ?_, fun n hn hspan => ?_⟩
  · rw [Cursor.peek_of_ahead ht]
    omega
  · have hread := h.read n hn hspan
    show n.location.stop.offset ≤ t.stop.offset
    omega

/-- A node over all that was read since `c`. It is empty if that is nothing. -/
theorem close (h : Lays c children c') (kind : Node.Kind) :
    Lays c [⟨kind, c'.since c.peek.start, children⟩] c' := by
  have hstop := c'.since_stop c.peek.start
  have hpassed := h.orderly.passed
  have hle := h.laid.le
  refine ⟨h.orderly, .cons le_rfl ?_ ?_ h.laid (fun m hm hlt => ?_) (.nil le_rfl), ?_⟩
  · show c.peek.start.offset ≤ (c'.since c.peek.start).stop.offset
    omega
  · show (c'.since c.peek.start).stop.offset ≤ _
    omega
  · have hread := h.read m hm hlt
    show m.location.stop.offset ≤ (c'.since c.peek.start).stop.offset
    omega
  · refine List.forall_mem_singleton.2 fun hlt => ?_
    have hlt : c.peek.start.offset < (c'.since c.peek.start).stop.offset := hlt
    show (c'.since c.peek.start).stop.offset ≤ _
    omega

end Lays

theorem lays (h : Reading c ns c') (hc : c.Orderly) : Lays c ns c' := by
  induction h with
  | start => exact .start hc
  | token h ht ih => exact (ih hc).token h.regular ht
  | report cause _ _ ih =>
    obtain ⟨⟨hpassed, hlast⟩, hlaid, hread⟩ := ih hc
    exact ⟨⟨hpassed, hlast⟩, hlaid, hread⟩
  | @word c c₁ c₂ ns t ts kind h ht hw _ _ ih ihw =>
    have hlays := ih hc
    have hahead := hlays.orderly.ahead h.regular
    have hafter : Lays c₁ [] (c₁.after t ts) := (Lays.start hlays.orderly).token h.regular ht
    have hbelow : Lays c₁ [] c₂ := by
      have hle := (hw.lastStop_le (h.regular.lastStop_after_le ht)).2
      simpa using hafter.append (ihw hafter.orderly) hle
    have hword := hbelow.close kind
    rw [Cursor.peek_of_ahead ht] at hword
    exact hlays.append hword ((((Reading.start h.regular).token ht).skip hw).lastStop_le hahead).2
  | @node c c₁ c₂ ns children kind h hread _ ih ihc =>
    have hlays := ih hc
    exact hlays.append ((ihc hlays.orderly).close kind)
      (hread.lastStop_le (hlays.orderly.ahead h.regular)).2

end Reading

namespace Grammar

theorem parse_laid (text : String) : ∃ hi, Node.Laid 0 [(parse text).tree] hi := by
  obtain ⟨c', h, -⟩ := parse_reading text
  obtain ⟨hstands, hroot, -⟩ := parse_standsIn text
  have hlays := h.lays (Cursor.orderly_ofStream text.toList)
  have hstart : (parse text).tree.location.start.offset = 0 := by rw [hroot]; rfl
  have hstop : (parse text).tree.location.stop.offset = byteLength text.toList := by
    rw [hroot]; rfl
  have hlaid : Node.Laid 0 (parse text).tree.children c'.peek.start.offset :=
    (Node.Laid.nil (Nat.zero_le _)).append hlays.laid
  refine ⟨max (byteLength text.toList) c'.peek.start.offset,
    .cons (Nat.zero_le _) ?_ ?_ ?_ (fun m hm _ => ?_) (.nil le_rfl)⟩
  · omega
  · omega
  · rw [hstart]
    exact hlaid.mono (by omega)
  · rw [hstop]
    exact (hstands.children m hm).liesIn.exact.within

/-- In the tree of every text, spans are nested and come in the order of the text. So do the
identifiers in it, and what occurs by any resolution of it, without overlap. -/
theorem parse_spans_nested (text : String) :
    let tree := (parse text).tree
    (∀ visit ∈ tree.walk, visit.2.2.Embraces) ∧
      (tree.walk.Pairwise fun v w => v.2.2.location.start.offset ≤ w.2.2.location.start.offset) ∧
      Location.Successive (tree.walk.filterMap Node.identifierPlace?) ∧
      ∀ (own : SymbolTable) (warn : Bool),
        (∀ library, ∃ r asked, Resolution.inquire library tree own warn = some (r, asked) ∧
          Location.Successive (r.occurrences.map Occurrence.location)) ∧
        ∀ known r, Resolution.attempt known tree own warn = .ok r →
          Location.Successive (r.occurrences.map Occurrence.location) := by
  intro tree
  obtain ⟨hi, hlaid⟩ := parse_laid text
  obtain ⟨_, _, hplaces⟩ := identifierPlaces_spread text
  have hoccurrences : ∀ own warn known r, Resolution.attempt known tree own warn = .ok r →
      Location.Successive (r.occurrences.map Occurrence.location) := by
    intro own warn known r h
    obtain ⟨_, _, hspread⟩ := Resolution.occurrences_spread h
    exact hspread.successive
  refine ⟨fun visit hv => ?_, ?_, hplaces.successive,
    fun own warn => ⟨fun library => ?_, hoccurrences own warn⟩⟩
  · have hbelow : ∀ n : Node, (∃ lo hi, Node.Laid lo [n] hi) →
        ∀ m ∈ n.children, ∃ lo hi, Node.Laid lo [m] hi := by
      rintro n ⟨lo, hi, h⟩ m hm
      exact ⟨_, h.children m hm⟩
    obtain ⟨⟨lo, hi, h⟩, -⟩ := Node.forall_visits hbelow none 0 ⟨0, hi, hlaid⟩ visit hv
    exact h.embraces
  · have hstarts := (hlaid.starts none 0).1
    rwa [Node.visitsAll, Node.visitsAll, List.append_nil] at hstarts
  · obtain ⟨r, asked, ha, hok⟩ := Resolution.exists_inquire library tree own warn
    exact ⟨r, asked, ha, hoccurrences own warn asked r hok⟩

/-- With a label that has no element behind it: what is missing is noted at the semicolon, beyond
the labeled element. The block that follows is never closed. -/
theorem parse_spans_nested_broken :
    let text := "grammar é; r : a= ; s : ( r '+' X | s"
    let tree := (parse text).tree
    ∃ r, Resolution.attempt [] tree (.ofTree tree) true = .ok r ∧
      (∃ v ∈ tree.walk, ∃ parent ∈ v.1,
        parent.location.stop.offset < v.2.2.location.start.offset) ∧
      (∀ visit ∈ tree.walk, visit.2.2.Embraces) ∧
      r.occurrences.map (fun o => (o.name, o.location.start.offset)) =
        [("r", 12), ("s", 21), ("r", 27), ("X", 33), ("s", 37)] ∧
      Location.Successive (r.occurrences.map Occurrence.location) := by
  intro text tree
  have hok : ∃ r, r ∈ (Resolution.attempt [] tree (.ofTree tree) true).toOption ∧
      (∃ v ∈ tree.walk, ∃ parent ∈ v.1,
        parent.location.stop.offset < v.2.2.location.start.offset) ∧
      r.occurrences.map (fun o => (o.name, o.location.start.offset)) =
        [("r", 12), ("s", 21), ("r", 27), ("X", 33), ("s", 37)] := by
    decide +kernel
  obtain ⟨r, hr, hbeyond, hplaces⟩ := hok
  have hr := Resolution.eq_ok_of_mem_toOption hr
  obtain ⟨hembraces, -, -, hresolved⟩ := parse_spans_nested text
  exact ⟨r, hr, hbeyond, hembraces, hplaces, (hresolved _ true).2 _ r hr⟩

end Grammar

end GrammarAtlas
