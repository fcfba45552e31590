import GrammarAtlas.Proofs.Locations
import Mathlib.Order.Bounds.Defs

/-! # Positions of any offset

An offset may lie inside a wide character or past the end of the text. The text up to it is then the
longest stretch that fits (`exists_upTo`), which ends at the last boundary that is not past the offset
(`UpTo.isGreatest`). A line table sets the offset back to that boundary and looks up its line and its
surplus bytes, so the position is the one counted there (`LineTable.position_counts`). -/

namespace GrammarAtlas

theorem isBoundary_iff (cs : List Char) (n : Nat) :
    isBoundary cs n ↔ ∃ before after, cs = before ++ after ∧ n = byteLength before := by
  constructor
  · intro h
    induction cs generalizing n with
    | nil =>
      cases n with
      | zero => exact ⟨[], [], rfl, rfl⟩
      | succ n => simp [isBoundary, splitAtByte] at h
    | cons c cs ih =>
      cases n with
      | zero => exact ⟨[], c :: cs, rfl, rfl⟩
      | succ n =>
        simp only [isBoundary, splitAtByte] at h
        split at h
        · rename_i hle
          obtain ⟨before, after, rfl, hn⟩ := ih _ (by simpa [isBoundary] using h)
          refine ⟨c :: before, after, rfl, ?_⟩
          rw [byteLength]
          omega
        · simp at h
  · rintro ⟨before, after, rfl, rfl⟩
    simp [isBoundary, splitAtByte_append]

/-- `before` is what of a text fits before an offset: the character that follows does not. -/
structure UpTo (before after : List Char) (offset : Nat) : Prop where
  le : byteLength before ≤ offset
  lt : ∀ c ∈ after.head?, offset < byteLength before + c.utf8Size

theorem exists_upTo (cs : List Char) (offset : Nat) :
    ∃ before after, cs = before ++ after ∧ UpTo before after offset := by
  induction cs generalizing offset with
  | nil => exact ⟨[], [], rfl, Nat.zero_le _, by simp⟩
  | cons c cs ih =>
    by_cases hc : c.utf8Size ≤ offset
    · obtain ⟨before, after, rfl, hle, hlt⟩ := ih (offset - c.utf8Size)
      refine ⟨c :: before, after, rfl, ?_, fun d hd => ?_⟩
      · rw [byteLength]
        omega
      · have := hlt d hd
        rw [byteLength]
        omega
    · exact ⟨[], c :: cs, rfl, Nat.zero_le _, by simpa [byteLength] using hc⟩

namespace UpTo

variable {before after : List Char} {offset : Nat}

/-- Whatever fits is part of it. -/
theorem prefix_of_le (h : UpTo before after offset) {ps : List Char} (hps : ps <+: before ++ after)
    (hle : byteLength ps ≤ offset) : ps <+: before := by
  rcases List.prefix_or_prefix_of_prefix hps (List.prefix_append before after) with hp | ⟨rest, rfl⟩
  · exact hp
  · cases rest with
    | nil => simp
    | cons c rest =>
      obtain ⟨after', hafter⟩ := (List.prefix_append_right_inj _).1 hps
      have := h.lt c (by rw [← hafter]; rfl)
      rw [byteLength_append, byteLength] at hle
      omega

theorem isGreatest (h : UpTo before after offset) :
    IsGreatest {b | isBoundary (before ++ after) b ∧ b ≤ min offset (byteLength (before ++ after))}
      (byteLength before) := by
  refine ⟨⟨(isBoundary_iff _ _).2 ⟨before, after, rfl, rfl⟩, le_min h.le ?_⟩, ?_⟩
  · rw [byteLength_append]
    omega
  · rintro b ⟨hb, hle⟩
    obtain ⟨ps, qs, hcs, rfl⟩ := (isBoundary_iff _ _).1 hb
    obtain ⟨rest, rfl⟩ := h.prefix_of_le ⟨qs, hcs.symm⟩ (Nat.le_min.1 hle).1
    rw [byteLength_append]
    omega

/-- At a later offset more fits. -/
theorem mono {before' after' : List Char} {offset' : Nat} (h : UpTo before after offset)
    (h' : UpTo before' after' offset') (hcs : before ++ after = before' ++ after')
    (hle : offset ≤ offset') : before <+: before' :=
  h'.prefix_of_le (hcs ▸ List.prefix_append before after) (h.le.trans hle)

end UpTo

theorem Position.behind_concat (before : List Char) (c : Char) :
    behind (before ++ [c]) = (behind before).after c := by
  by_cases hc : c = '\n' <;> simp [behind, Position.after, hc, Nat.add_assoc]

theorem positionAt_go {before after : List Char} {left : Nat} (h : UpTo before after left)
    (seen : List Char) :
    positionAt.go (.behind seen) left (before ++ after) = .behind (seen ++ before) := by
  induction before generalizing seen left with
  | nil =>
    rw [List.nil_append, List.append_nil]
    cases after with
    | nil => rfl
    | cons c after =>
      have := h.lt c rfl
      rw [byteLength, Nat.zero_add] at this
      rw [positionAt.go, if_neg (by omega)]
  | cons c before ih =>
    have hle := h.le
    rw [byteLength] at hle
    have hrest : UpTo before after (left - c.utf8Size) := by
      refine ⟨by omega, fun d hd => ?_⟩
      have := h.lt d hd
      rw [byteLength] at this
      omega
    rw [List.cons_append, positionAt.go, if_pos (by omega), ← Position.behind_concat, ih hrest,
      List.append_assoc, List.singleton_append]

theorem positionAt_of_upTo {before after : List Char} {offset : Nat} (h : UpTo before after offset) :
    positionAt (before ++ after) offset = .behind before := positionAt_go h []

namespace LineTable

variable {before after : List Char} {offset : Nat}

/-- Inside a character it is the character that the offset is found in. -/
theorem wideBefore?_inside {c : Char} (hlt : byteLength before < offset)
    (hle : offset < byteLength before + c.utf8Size) :
    (ofChars (before ++ c :: after)).wideBefore? offset =
      some ⟨byteLength before, c.utf8Size, surplus before⟩ := by
  have hsize : c.utf8Size ≠ 1 := by omega
  have hwide : wideChars 0 0 (before ++ [c]) =
      wideChars 0 0 before ++ [⟨byteLength before, c.utf8Size, surplus before⟩] := by
    rw [wideChars_append]
    simp [wideChars, hsize]
  rw [List.append_cons, wideBefore?_append (before ++ [c]) after, hwide, List.getLast?_concat]
  · intro w hw
    rw [hwide, List.mem_append, List.mem_singleton] at hw
    rcases hw with hw | rfl
    · have := wideChars_bounds _ _ _ w hw
      omega
    · exact hlt
  · simp only [byteLength_append, byteLength]
    omega

theorem boundary_min (table : LineTable) (offset : Nat) :
    table.boundary (min offset table.size) = table.boundary offset := by
  simp [boundary]

theorem boundary_eq (h : UpTo before after offset) :
    (ofChars (before ++ after)).boundary offset = byteLength before := by
  rcases h.le.eq_or_lt with rfl | hlt
  · exact boundary_ofChars before after
  cases after with
  | nil =>
    rw [← boundary_min, size_ofChars, List.append_nil, Nat.min_eq_right h.le]
    simpa using boundary_ofChars before []
  | cons c after =>
    have hinside := h.lt c rfl
    have hmin : min offset (ofChars (before ++ c :: after)).size = offset := by
      rw [size_ofChars, byteLength_append, byteLength]
      omega
    simp only [boundary, hmin, wideBefore?_inside hlt hinside, hinside, if_true]

/-- The line may be looked up before the offset is set back to a boundary: no line starts inside a
character. -/
theorem lineAt_eq (h : UpTo before after offset) :
    (ofChars (before ++ after)).lineAt offset = 1 + before.count '\n' := by
  refine lineAt_append before after h.le fun start hs => ?_
  cases after with
  | nil => simp [lineStarts] at hs
  | cons c after =>
    have hlt := h.lt c rfl
    simp only [lineStarts] at hs
    split at hs
    · rcases List.mem_cons.1 hs with rfl | hs
      · exact hlt
      · exact hlt.trans (lineStarts_bounds _ _ start hs).1
    · exact hlt.trans (lineStarts_bounds _ _ start hs).1

theorem position_of_upTo (h : UpTo before after offset) :
    (ofChars (before ++ after)).position offset = .behind before := by
  rw [← position_ofChars before after, position_eq, position_eq, boundary_eq h, boundary_ofChars]

/-- A line table answers what counting answers. -/
theorem position_eq_positionAt (cs : List Char) (offset : Nat) :
    (ofChars cs).position offset = positionAt cs offset := by
  obtain ⟨before, after, rfl, h⟩ := exists_upTo cs offset
  rw [position_of_upTo h, positionAt_of_upTo h]

/-- Nothing that is subtracted on the way to a position is more than what it is subtracted from, and
the line that is looked up is that of the offset. -/
structure Exact (table : LineTable) (offset : Nat) : Prop where
  line : table.lineAt offset = table.lineAt (table.boundary offset)
  line_pos : 1 ≤ table.lineAt (table.boundary offset)
  start : table.lineStart (table.boundary offset) ≤ table.boundary offset
  surplus : table.surplusBefore (table.lineStart (table.boundary offset)) ≤
    table.surplusBefore (table.boundary offset)
  column : table.surplusBefore (table.boundary offset) -
      table.surplusBefore (table.lineStart (table.boundary offset)) ≤
    table.boundary offset - table.lineStart (table.boundary offset)
  wide : ∀ w ∈ table.wide, 1 ≤ w.surplus + w.width

theorem exact_of_upTo (h : UpTo before after offset) : (ofChars (before ++ after)).Exact offset := by
  have hline : (ofChars (before ++ after)).lineAt offset =
      (ofChars (before ++ after)).lineAt (byteLength before) := by
    rw [lineAt_eq h, lineAt_ofChars]
  have hwide : ∀ w ∈ (ofChars (before ++ after)).wide, 1 ≤ w.surplus + w.width := by
    intro w hw
    rw [← Array.mem_toList_iff, toList_wide] at hw
    have := wideChars_bounds _ _ _ w hw
    omega
  have hboundary := boundary_eq h
  -- The subtractions take off what stands before the last line.
  obtain ⟨full, last, rfl, hlast, hfull⟩ := exists_lines before
  have hstart := lineStart_ofChars hfull hlast after
  have hsurplus : (ofChars (full ++ last ++ after)).surplusBefore (byteLength full) = surplus full := by
    rw [List.append_assoc]
    exact surplusBefore_ofChars full (last ++ after)
  have hsplit := byteLength_append full last
  have hall := surplusBefore_ofChars (full ++ last) after
  rw [surplus_append] at hall
  have hlength := byteLength_eq last
  refine ⟨?line, ?line_pos, ?start, ?surplus, ?column, hwide⟩ <;> rw [hboundary]
  case line => exact hline
  case line_pos =>
    rw [lineAt_ofChars]
    omega
  case start => omega
  case surplus => rw [hstart, hsurplus, hall]; omega
  case column => rw [hstart, hsurplus, hall]; omega

/-- A position is counted at the last boundary that is not past the offset, also inside a character
and past the end of the text; no subtraction on the way goes below zero; and a later offset is at no
earlier position. -/
theorem position_counts (cs : List Char) (offset : Nat) :
    ∃ before after, cs = before ++ after ∧
      IsGreatest {b | isBoundary cs b ∧ b ≤ min offset (byteLength cs)} (byteLength before) ∧
      (ofChars cs).position offset =
        ⟨1 + before.count '\n', (before.reverse.takeWhile (· != '\n')).length⟩ ∧
      (ofChars cs).Exact offset ∧
      ∀ later, offset ≤ later → ((ofChars cs).position offset).precedes ((ofChars cs).position later) := by
  obtain ⟨before, after, rfl, h⟩ := exists_upTo cs offset
  refine ⟨before, after, rfl, h.isGreatest, position_of_upTo h, exact_of_upTo h, fun later hle => ?_⟩
  obtain ⟨before', after', hcs, h'⟩ := exists_upTo (before ++ after) later
  obtain ⟨middle, rfl⟩ := h.mono h' hcs hle
  have hlater := position_of_upTo h'
  rw [← hcs] at hlater
  rw [position_of_upTo h, hlater]
  exact Position.behind_precedes before middle

/-- The first line ends in a character of two bytes, the second in one of three. -/
theorem position_counts_inside :
    3 ≤ 7 ∧ (ofChars ['a', 'b', 'é', '\n', '⇒']).boundary 3 = 2 ∧
      (ofChars ['a', 'b', 'é', '\n', '⇒']).position 3 = ⟨1, 2⟩ ∧
      (ofChars ['a', 'b', 'é', '\n', '⇒']).position 7 = ⟨2, 0⟩ ∧
      ((ofChars ['a', 'b', 'é', '\n', '⇒']).position 3).precedes
        ((ofChars ['a', 'b', 'é', '\n', '⇒']).position 7) := by
  obtain ⟨-, -, -, -, -, -, hlater⟩ := position_counts ['a', 'b', 'é', '\n', '⇒'] 3
  exact ⟨by decide, by decide +kernel, by decide +kernel, by decide +kernel, hlater 7 (by decide)⟩

end LineTable

end GrammarAtlas
