import GrammarAtlas.Proofs.Positions
import GrammarAtlas.Proofs.TreeShape

/-! # Locations are exact

A text is its pieces put together (`Piece.Tiles`), and so is what stands between two of its tokens.
Whatever the parser reads therefore spans a stretch of the text (`Location.Spans`): a token does, a
fault is reported at a token or a piece, and a node reaches from a token to the token read last, also
where the text is malformed. `Grammar.parse_locations` says what that means for offsets, boundaries,
positions and slices. -/

namespace GrammarAtlas

theorem splitAtByte_append (before after : List Char) :
    splitAtByte (byteLength before) (before ++ after) = some (before, after) := by
  induction before with
  | nil => simp [byteLength, splitAtByte]
  | cons c before ih =>
    have hpos := c.utf8Size_pos
    obtain ⟨n, hn⟩ : ∃ n, byteLength (c :: before) = n + 1 :=
      Nat.exists_eq_add_one.2 (byteLength_cons_pos c before)
    have hrest : n + 1 - c.utf8Size = byteLength before := by
      rw [← hn, byteLength]
      omega
    rw [byteLength] at hn
    rw [byteLength, hn, List.cons_append, splitAtByte, if_pos (by omega), hrest, ih]
    rfl

theorem sliceBytes_append (before middle after : List Char) :
    sliceBytes (before ++ middle ++ after) (byteLength before) (byteLength (before ++ middle)) =
      some middle := by
  have hle : byteLength before ≤ byteLength (before ++ middle) := by
    rw [byteLength_append]
    omega
  have hrest : byteLength (before ++ middle) - byteLength before = byteLength middle := by
    rw [byteLength_append]
    omega
  rw [sliceBytes, if_pos hle, hrest, List.append_assoc]
  simp [splitAtByte_append]

theorem prefix_of_byteLength_le {cs ps qs : List Char} (hp : ps <+: cs) (hq : qs <+: cs)
    (h : byteLength ps ≤ byteLength qs) : ps <+: qs := by
  rcases List.prefix_or_prefix_of_prefix hp hq with hpq | ⟨rest, rfl⟩
  · exact hpq
  · cases rest with
    | nil => simp
    | cons c rest =>
      have := byteLength_cons_pos c rest
      rw [byteLength_append] at h
      omega

/-- Reading on never leads back. -/
theorem Position.behind_precedes (before middle : List Char) :
    (behind before).precedes (behind (before ++ middle)) := by
  by_cases hm : '\n' ∈ middle
  · have := List.count_pos_iff.2 hm
    simp only [precedes, behind, List.count_append, Bool.or_eq_true, decide_eq_true_eq]
    omega
  · have hline : ∀ c ∈ middle.reverse, (c != '\n') := by
      intro c hc
      rw [bne_iff_ne]
      rintro rfl
      exact hm (List.mem_reverse.1 hc)
    have hcount := List.count_eq_zero_of_not_mem hm
    simp only [precedes, behind, List.count_append, hcount, List.reverse_append,
      List.takeWhile_append_of_pos hline, List.length_append]
    simp

/-- The place lies between two characters of `cs`, and its position is counted on what stands
before it. -/
def Mark.PlacedIn (cs : List Char) (m : Mark) : Prop :=
  ∃ before after, splitAtByte m.offset cs = some (before, after) ∧ m.position = .behind before

namespace Location

structure Exact (cs : List Char) (l : Location) : Prop where
  ordered : l.start.offset ≤ l.stop.offset
  within : l.stop.offset ≤ byteLength cs
  sound : l.defect? cs = none
  start : l.start.PlacedIn cs
  stop : l.stop.PlacedIn cs
  forward : l.start.position.precedes l.stop.position

/-- The location is where `middle` stands in `cs`. -/
def Spans (cs middle : List Char) (l : Location) : Prop :=
  ∃ before after, cs = before ++ middle ++ after ∧ l = ⟨.behind before, .behind (before ++ middle)⟩

/-- The location is some stretch of `cs`. -/
def LiesIn (cs : List Char) (l : Location) : Prop := ∃ middle, l.Spans cs middle

variable {cs middle : List Char} {l : Location}

theorem Spans.slice? (h : l.Spans cs middle) : l.slice? cs = some (String.ofList middle) := by
  obtain ⟨before, after, rfl, rfl⟩ := h
  simp only [Location.slice?, Mark.behind, sliceBytes_append, Option.map_some]

theorem LiesIn.exact (h : l.LiesIn cs) : l.Exact cs := by
  obtain ⟨middle, before, after, rfl, rfl⟩ := h
  have hstart : splitAtByte (byteLength before) (before ++ middle ++ after) =
      some (before, middle ++ after) := by
    rw [List.append_assoc, splitAtByte_append]
  have hstop := splitAtByte_append (before ++ middle) after
  have hordered : byteLength before ≤ byteLength (before ++ middle) := by
    rw [byteLength_append]
    omega
  have hwithin : byteLength (before ++ middle) ≤ byteLength (before ++ middle ++ after) := by
    rw [byteLength_append _ after]
    omega
  constructor
  case ordered => exact hordered
  case within => exact hwithin
  case sound =>
    simp only [defect?, Mark.behind, isBoundary, hstart, hstop]
    rw [if_neg (by omega), if_neg (by omega)]
    rfl
  case start => exact ⟨_, _, hstart, rfl⟩
  case stop => exact ⟨_, _, hstop, rfl⟩
  case forward => exact Position.behind_precedes before middle

theorem liesIn_of_le {ps qs : List Char} (hp : ps <+: cs) (hq : qs <+: cs)
    (h : byteLength ps ≤ byteLength qs) : LiesIn cs ⟨.behind ps, .behind qs⟩ := by
  obtain ⟨middle, rfl⟩ := prefix_of_byteLength_le hp hq h
  obtain ⟨after, rfl⟩ := hq
  exact ⟨middle, ps, after, rfl, rfl⟩

end Location

namespace Piece

/-- The pieces put together are the text `cs`, which stands at byte `start`; none is empty. -/
inductive Tiles : Nat → List Char → List Piece → Prop
  | nil {start : Nat} : Tiles start [] []
  | cons {p : Piece} {pieces : List Piece} {rest : List Char} (hp : p.text ≠ [])
    (h : Tiles p.stop rest pieces) : Tiles p.start (p.text ++ rest) (p :: pieces)

theorem tiles_cutFrom {turns : Nat} {cs : List Char} (h : cs.length ≤ turns) (context : Context)
    (start : Nat) : Tiles start cs (cutFrom turns context start cs) := by
  induction turns generalizing cs context start with
  | zero =>
    obtain rfl := List.length_eq_zero_iff.1 (Nat.le_zero.1 h)
    exact .nil
  | succ turns ih =>
    cases cs with
    | nil => exact .nil
    | cons c cs =>
      simp only [cutFrom]
      generalize read context c cs = form
      have hrest : (cs.drop form.2).length ≤ turns := by
        rw [List.length_cons] at h
        rw [List.length_drop]
        omega
      have htail := ih hrest (context.after (c :: cs.take form.2) form.1)
        (start + byteLength (c :: cs.take form.2))
      have hsplit : c :: cs = (c :: cs.take form.2) ++ cs.drop form.2 := by simp
      rw [hsplit]
      exact Tiles.cons (p := ⟨form.1, start, c :: cs.take form.2⟩) (List.cons_ne_nil _ _) htail

theorem Tiles.spans {cs before rest : List Char} {start : Nat} {pieces : List Piece}
    (h : Tiles start rest pieces) (hs : start = byteLength before) (hcs : cs = before ++ rest) :
    ∀ p ∈ pieces, ((LineTable.ofChars cs).locate p.start p.stop).Spans cs p.text := by
  induction h generalizing before with
  | nil => simp
  | @cons p pieces rest hp _ ih =>
    have hstop : p.stop = byteLength (before ++ p.text) := by
      rw [stop, hs, byteLength_append]
    rw [← List.append_assoc] at hcs
    intro q hq
    rcases List.mem_cons.1 hq with rfl | hq
    · refine ⟨before, rest, hcs, ?_⟩
      rw [LineTable.locate, hstop, hs, hcs, LineTable.mark_ofChars, List.append_assoc,
        LineTable.mark_ofChars]
    · exact ih hstop hcs q hq

theorem fault?_liesIn (cs : List Char) {f : Fault}
    (h : f ∈ (cut cs).filterMap (fault? (.ofChars cs))) : f.location.LiesIn cs := by
  obtain ⟨p, hp, hf⟩ := List.mem_filterMap.1 h
  rw [fault?, Option.map_eq_some_iff] at hf
  obtain ⟨cause, -, rfl⟩ := hf
  exact ⟨p.text, (tiles_cutFrom le_rfl {} 0).spans rfl (List.nil_append cs).symm p hp⟩

end Piece

namespace Token

/-- The tokens stand in `cs` one behind the other, from the end of `before` to that of `cs`. -/
inductive Follow (cs : List Char) (finish : Token) : List Char → List Token → Prop
  | nil {before : List Char} (h : cs = before ++ finish.lead.toList) (hs : finish.start = .behind cs)
    (he : finish.stop = .behind cs) : Follow cs finish before []
  | cons {before : List Char} {t : Token} {ts : List Token} (hn : t.text ≠ "")
    (hs : t.start = .behind (before ++ t.lead.toList))
    (he : t.stop = .behind (before ++ t.lead.toList ++ t.text.toList))
    (h : Follow cs finish (before ++ t.lead.toList ++ t.text.toList) ts) :
    Follow cs finish before (t :: ts)

variable {cs before : List Char} {finish t : Token} {ts us : List Token}

theorem Follow.isPrefix (h : Follow cs finish before ts) : before <+: cs := by
  induction h with
  | nil h => exact ⟨_, h.symm⟩
  | cons _ _ _ _ ih =>
    rw [List.append_assoc] at ih
    exact (List.prefix_append _ _).trans ih

theorem Follow.finish_stop (h : Follow cs finish before ts) : finish.stop = .behind cs := by
  induction h with
  | nil _ _ he => exact he
  | cons _ _ _ _ ih => exact ih

theorem Follow.location (h : Follow cs finish before (t :: ts)) :
    t.location.Spans cs t.text.toList := by
  cases h with
  | cons _ hs he h =>
    obtain ⟨after, hafter⟩ := h.isPrefix
    refine ⟨before ++ t.lead.toList, after, hafter.symm, ?_⟩
    rw [Token.location, hs, he]

theorem spelled_append (ts us : List Token) : spelled (ts ++ us) = spelled ts ++ spelled us := by
  induction ts with
  | nil => simp [spelled]
  | cons t ts ih => simp [spelled, ih, String.append_assoc]

theorem Follow.append (h : Follow cs finish before (us ++ ts)) :
    Follow cs finish (before ++ (spelled us).toList) ts := by
  induction us generalizing before with
  | nil => simpa [spelled] using h
  | cons u us ih =>
    cases h with
    | cons _ _ _ h => simpa [spelled] using ih h

theorem follow_gather {start : Nat} {lead rest : List Char} {pieces : List Piece}
    (h : Piece.Tiles start rest pieces) (hs : start = byteLength (before ++ lead))
    (hcs : cs = before ++ lead ++ rest) :
    Follow cs (TokenStream.gather (.ofChars cs) lead pieces).finish before
      (TokenStream.gather (.ofChars cs) lead pieces).tokens := by
  induction h generalizing before lead with
  | nil =>
    have hend : (LineTable.ofChars cs).mark (LineTable.ofChars cs).size = .behind cs := by
      have := LineTable.mark_ofChars cs []
      rwa [List.append_nil, ← LineTable.size_ofChars] at this
    rw [List.append_nil] at hcs
    exact .nil (by simpa [TokenStream.gather] using hcs) hend hend
  | @cons p pieces rest hp htail ih =>
    have hstop : p.stop = byteLength (before ++ lead ++ p.text) := by
      rw [Piece.stop, hs, ← byteLength_append]
    rw [← List.append_assoc] at hcs
    have hskip : Follow cs (TokenStream.gather (.ofChars cs) (lead ++ p.text) pieces).finish before
        (TokenStream.gather (.ofChars cs) (lead ++ p.text) pieces).tokens :=
      ih (by rw [hstop, List.append_assoc]) (by rw [hcs]; simp)
    simp only [TokenStream.gather]
    cases p.form with
    | lexeme kind closed =>
      refine .cons ?_ ?_ ?_ ?_
      · simpa using hp
      · show (LineTable.ofChars cs).mark p.start = _
        rw [hs, hcs, List.append_assoc, LineTable.mark_ofChars]
        simp
      · show (LineTable.ofChars cs).mark p.stop = _
        rw [hstop, hcs, LineTable.mark_ofChars]
        simp
      · have hnext : p.stop = byteLength (before ++ lead ++ p.text ++ []) := by simpa using hstop
        have := ih hnext (by simpa using hcs)
        simpa using this
    | blank => exact hskip
    | comment closed => exact hskip
    | stray => exact hskip

theorem follow_ofChars (cs : List Char) :
    Follow cs (TokenStream.ofChars cs).1.finish [] (TokenStream.ofChars cs).1.tokens :=
  follow_gather (Piece.tiles_cutFrom le_rfl {} 0) rfl rfl

end Token

/-! ## Readings -/

/-- What the cursor shows is the text `cs`, read up to the end of `before`. -/
structure Cursor.StandsIn (cs before : List Char) (c : Cursor) : Prop where
  ahead : Token.Follow cs c.finish before c.ahead
  lastStop : c.lastStop = .behind before
  last : ∀ t ∈ c.last?, t.location.LiesIn cs
  faults : ∀ f ∈ c.faults, f.location.LiesIn cs

namespace Cursor.StandsIn
variable {cs before : List Char} {c : Cursor} {t : Token} {ts : List Token}

theorem ofChars (cs : List Char) : (ofStream (TokenStream.ofChars cs).1).StandsIn cs [] :=
  ⟨Token.follow_ofChars cs, rfl, by simp [ofStream], by simp [ofStream]⟩

theorem after (h : c.StandsIn cs before) (ht : c.ahead = t :: ts) :
    (c.after t ts).StandsIn cs (before ++ (Token.spelled [t]).toList) := by
  have hahead := h.ahead
  rw [ht] at hahead
  have hafter : Token.Follow cs c.finish (before ++ (Token.spelled [t]).toList) ts :=
    Token.Follow.append hahead
  refine ⟨hafter, ?_, ?_, h.faults⟩
  · cases hahead with
    | cons _ _ he _ =>
      show t.stop = _
      simpa [Token.spelled] using he
  · intro u hu
    obtain rfl := Option.some.inj hu
    exact ⟨_, hahead.location⟩

theorem peek_start (h : c.StandsIn cs before) : ∃ ps, ps <+: cs ∧ c.peek.start = .behind ps := by
  unfold peek
  have hahead := h.ahead
  cases ha : c.ahead with
  | nil =>
    rw [ha] at hahead
    cases hahead with
    | nil _ hs _ => exact ⟨cs, List.prefix_rfl, hs⟩
  | cons t ts =>
    rw [ha] at hahead
    cases hahead with
    | cons _ hs _ h => exact ⟨_, (List.prefix_append _ _).trans h.isPrefix, hs⟩

theorem peek_location (h : c.StandsIn cs before) : c.peek.location.LiesIn cs := by
  unfold peek
  have hahead := h.ahead
  cases ha : c.ahead with
  | nil =>
    rw [ha] at hahead
    cases hahead with
    | nil _ hs he =>
      rw [List.headD_nil, Token.location, hs, he]
      exact Location.liesIn_of_le List.prefix_rfl List.prefix_rfl le_rfl
  | cons t ts =>
    rw [ha] at hahead
    exact ⟨_, hahead.location⟩

theorem report (h : c.StandsIn cs before) (cause : Fault.Cause) {l : Location} (hl : l.LiesIn cs) :
    (c.report cause l).StandsIn cs before := by
  refine ⟨h.ahead, h.lastStop, h.last, ?_⟩
  intro f hf
  rcases List.mem_cons.1 hf with rfl | hf
  · exact hl
  · exact h.faults f hf

/-- A node that begins at a place of the text and ends with the token read last. -/
theorem since (h : c.StandsIn cs before) {ps : List Char} (hp : ps <+: cs) :
    (c.since (.behind ps)).LiesIn cs := by
  have hb := h.ahead.isPrefix
  unfold Cursor.since
  rw [h.lastStop]
  split
  · exact Location.liesIn_of_le hp hp le_rfl
  · rename_i hge
    exact Location.liesIn_of_le hp hb (Nat.le_of_not_lt hge)

end Cursor.StandsIn

/-- The node and all below it are stretches of `cs`, and keep what stands there. -/
inductive Node.StandsIn (cs : List Char) : Node → Prop
  | intro {kind : Kind} {l : Location} {children : List Node} (hl : l.LiesIn cs)
    (hs : ∀ s ∈ kind.spelling?, s ≠ "" ∧ l.Spans cs s.toList) (hc : ∀ n ∈ children, StandsIn cs n) :
    StandsIn cs ⟨kind, l, children⟩

theorem Node.StandsIn.liesIn {cs : List Char} {n : Node} (h : n.StandsIn cs) :
    n.location.LiesIn cs := by
  cases h with
  | intro hl _ _ => exact hl

theorem Node.StandsIn.spelling {cs : List Char} {n : Node} (h : n.StandsIn cs) :
    ∀ s ∈ n.kind.spelling?, s ≠ "" ∧ n.location.Spans cs s.toList := by
  cases h with
  | intro _ hs _ => exact hs

theorem Node.StandsIn.children {cs : List Char} {n : Node} (h : n.StandsIn cs) :
    ∀ m ∈ n.children, m.StandsIn cs := by
  cases h with
  | intro _ _ hc => exact hc

theorem Node.Kind.spelling?_eq_none {kind : Kind} (h : kind.isWord = false) :
    kind.spelling? = none := by
  cases kind with
  | identifier | literal | charSet | delegate => cases h
  | _ => rfl

theorem Node.StandsIn.visits {cs : List Char} {n : Node} (h : n.StandsIn cs) (parent? : Option Node)
    (depth : Nat) : ∀ v ∈ n.visits parent? depth, v.2.2.StandsIn cs :=
  fun v hv => (forall_visits (fun _ hn => hn.children) parent? depth h v hv).1

namespace Reading
variable {c c' : Cursor} {ns : List Node}

theorem finish_eq (h : Reading c ns c') : c'.finish = c.finish := by
  induction h with
  | start => rfl
  | token _ _ ih => exact ih
  | report _ _ _ ih => exact ih
  | word _ _ _ _ _ ih ihw => exact ihw.trans ih
  | node _ _ _ ih ihc => exact ihc.trans ih

/-- Reading goes on in the text by the tokens that it reads, and whatever it closes stands there. -/
theorem standsIn {cs before : List Char} (h : Reading c ns c') (hc : c.StandsIn cs before) :
    (∃ ts, c.ahead = ts ++ c'.ahead ∧ c'.StandsIn cs (before ++ (Token.spelled ts).toList)) ∧
      ∀ n ∈ ns, n.StandsIn cs := by
  induction h generalizing before with
  | start => exact ⟨⟨[], rfl, by simpa [Token.spelled] using hc⟩, by simp⟩
  | @token c c' ns t us _ ht ih =>
    obtain ⟨⟨ts, ha, h'⟩, hns⟩ := ih hc
    refine ⟨⟨ts ++ [t], by rw [ha, ht]; simp [Cursor.after], ?_⟩, hns⟩
    have := h'.after ht
    rwa [List.append_assoc, ← String.toList_append, ← Token.spelled_append] at this
  | @report c c' ns t cause _ ht ih =>
    obtain ⟨⟨ts, ha, h'⟩, hns⟩ := ih hc
    have hl : t.location.LiesIn cs := by
      rcases ht with rfl | hlast
      · exact h'.peek_location
      · exact h'.last t hlast
    exact ⟨⟨ts, ha, h'.report cause hl⟩, hns⟩
  | @word c c₁ c₂ ns t us kind _ ht _ _ hs ih ihw =>
    obtain ⟨⟨ts, ha, h₁⟩, hns⟩ := ih hc
    obtain ⟨⟨vs, hvs, h₂⟩, -⟩ := ihw (h₁.after ht)
    have hus : us = vs ++ c₂.ahead := hvs
    have hahead := h₁.ahead
    rw [ht] at hahead
    cases hahead with
    | @cons _ _ _ hne hstart _ hrest =>
      have hp := (List.prefix_append _ _).trans hrest.isPrefix
      have hl := h₂.since hp
      rw [← hstart] at hl
      have hstop : before ++ (Token.spelled ts).toList ++ (Token.spelled [t]).toList ++
          (Token.spelled vs).toList = before ++ (Token.spelled ts).toList ++ t.lead.toList ++
            (t.text ++ Token.spelled vs).toList := by
        simp [Token.spelled]
      refine ⟨⟨ts ++ t :: vs, by rw [ha, ht, hus]; simp, ?_⟩, List.forall_mem_append.2 ⟨hns, ?_⟩⟩
      · simpa [Token.spelled, Token.spelled_append] using h₂
      · refine List.forall_mem_singleton.2 (.intro hl (fun s hk => ?_) (by simp))
        obtain ⟨ws, hws, rfl⟩ := hs s hk
        -- The tokens that the word keeps are those read since it began.
        obtain rfl : ws = vs := List.append_cancel_right (hws.symm.trans hus)
        refine ⟨by simp [hne], ?_⟩
        obtain ⟨after, hafter⟩ := h₂.ahead.isPrefix
        rw [hstop] at hafter
        refine ⟨_, after, hafter.symm, ?_⟩
        rw [Cursor.since, hstart, h₂.lastStop, hstop, if_neg]
        simp only [Mark.behind, byteLength_append]
        omega
  | @node c c₁ c₂ ns children kind _ _ hk ih ihc =>
    obtain ⟨⟨ts, ha, h₁⟩, hns⟩ := ih hc
    obtain ⟨⟨us, hb, h₂⟩, hchildren⟩ := ihc h₁
    obtain ⟨ps, hp, hstart⟩ := h₁.peek_start
    refine ⟨⟨ts ++ us, by rw [ha, hb, List.append_assoc], ?_⟩, List.forall_mem_append.2 ⟨hns, ?_⟩⟩
    · simpa [Token.spelled_append] using h₂
    · have hl := h₂.since hp
      rw [← hstart] at hl
      refine List.forall_mem_singleton.2 (.intro hl ?_ hchildren)
      simp [Node.Kind.spelling?_eq_none hk.not_isWord]

end Reading

/-! ## Whole texts -/

namespace Fault

theorem mem_insert {f g : Fault} {faults : List Fault} :
    g ∈ f.insert faults ↔ g = f ∨ g ∈ faults := by
  induction faults with
  | nil => simp [insert]
  | cons h faults ih =>
    unfold insert
    split
    · simp
    · rw [List.mem_cons, ih, List.mem_cons]
      tauto

theorem mem_arrange {g : Fault} {faults : List Fault} : g ∈ arrange faults ↔ g ∈ faults := by
  induction faults with
  | nil => simp [arrange]
  | cons f faults ih =>
    show g ∈ f.insert (arrange faults) ↔ _
    rw [mem_insert, ih, List.mem_cons]

end Fault

theorem ParseM.grammar_root (c : Cursor) :
    wp ParseM.grammar (fun root c' =>
      root = ⟨.grammar, ⟨.origin, c'.finish.stop⟩, root.children⟩) c := rfl

namespace Grammar

theorem parse_standsIn (text : String) :
    (parse text).tree.StandsIn text.toList ∧
      (parse text).tree.location = ⟨.origin, .behind text.toList⟩ ∧
      ∀ f ∈ (parse text).faults, f.location.LiesIn text.toList := by
  have hregular := Cursor.regular_ofStream text.toList
  have hreading := (ParseM.grammar_on hregular).1
  obtain ⟨⟨ts, -, hcursor⟩, hchildren⟩ := hreading.standsIn (.ofChars text.toList)
  have hspan : Location.Spans text.toList text.toList ⟨.origin, .behind text.toList⟩ :=
    ⟨[], [], by simp, rfl⟩
  have hstop : (Cursor.ofStream (TokenStream.ofChars text.toList).1).finish.stop =
      .behind text.toList := (Token.follow_ofChars text.toList).finish_stop
  have hroot := ParseM.grammar_root (.ofStream (TokenStream.ofChars text.toList).1)
  rw [ParseM.wp, hreading.finish_eq, hstop] at hroot
  rw [parse_eq]
  dsimp only
  refine ⟨?_, by rw [hroot], ?_⟩
  · rw [hroot]
    exact .intro ⟨_, hspan⟩ (by simp [Node.Kind.spelling?]) hchildren
  · intro f hf
    rcases List.mem_append.1 (Fault.mem_arrange.1 hf) with hf | hf
    · exact Piece.fault?_liesIn text.toList hf
    · exact hcursor.faults f (List.mem_reverse.1 hf)

/-- Whatever the text, every node and every fault lies exactly where it says it does, and a node that
keeps a part of the text keeps what stands there. -/
theorem parse_locations (text : String) :
    (∀ visit ∈ (parse text).tree.walk, visit.2.2.location.Exact text.toList ∧
      ∀ s ∈ visit.2.2.kind.spelling?,
        s ≠ "" ∧ visit.2.2.location.slice? text.toList = some s) ∧
    (∀ fault ∈ (parse text).faults, fault.location.Exact text.toList) ∧
    (parse text).tree.location.start.offset = 0 ∧
    (parse text).tree.location.stop.offset = byteLength text.toList := by
  obtain ⟨htree, hroot, hfaults⟩ := parse_standsIn text
  refine ⟨fun visit hv => ?_, fun fault hf => (hfaults fault hf).exact, by rw [hroot]; rfl,
    by rw [hroot]; rfl⟩
  have hnode := htree.visits none 0 visit hv
  refine ⟨hnode.liesIn.exact, fun s hk => ⟨(hnode.spelling s hk).1, ?_⟩⟩
  rw [(hnode.spelling s hk).2.slice?, String.ofList_toList]

/-- A dotted value over two lines, behind characters of several bytes, in a text whose last string
does not close. -/
theorem parse_locations_dotted :
    let text := "grammar é;\noptions \x7b é = ç\n . b; \x7d\nr : 'ü"
    (∃ visit ∈ (parse text).tree.walk, visit.2.2.kind = .identifier "ç\n . b" ∧
      visit.2.2.location = ⟨⟨27, ⟨2, 14⟩⟩, ⟨34, ⟨3, 4⟩⟩⟩ ∧ visit.2.2.location.Exact text.toList ∧
      visit.2.2.location.slice? text.toList = some "ç\n . b") ∧
    ∃ fault ∈ (parse text).faults, fault.cause = .unterminatedString ∧
      fault.location.Exact text.toList := by
  intro text
  have hvalue : ∃ visit ∈ (parse text).tree.walk, visit.2.2.kind = .identifier "ç\n . b" ∧
      visit.2.2.location = ⟨⟨27, ⟨2, 14⟩⟩, ⟨34, ⟨3, 4⟩⟩⟩ := by
    decide +kernel
  have hfault : ∃ fault ∈ (parse text).faults, fault.cause = .unterminatedString := by
    decide +kernel
  obtain ⟨hnodes, hfaults, -⟩ := parse_locations text
  obtain ⟨visit, hv, hk, hl⟩ := hvalue
  obtain ⟨fault, hf, hc⟩ := hfault
  obtain ⟨hexact, hspelling⟩ := hnodes visit hv
  exact ⟨⟨visit, hv, hk, hl, hexact, (hspelling _ (by rw [hk]; rfl)).2⟩, fault, hf, hc,
    hfaults fault hf⟩

end Grammar

end GrammarAtlas
