import GrammarAtlas.Proofs.EditorPositions
import GrammarAtlas.Proofs.Offsets

/-! # Offsets, editor positions, and back

The way to an editor position goes through a line table, the way back through the lines of the text.
Both see a boundary as the lines before it and the characters of the line begun (`exists_lines`), so
the way back ends where the way there began. There is one exception: the way back takes the carriage
return at the end of a line for no part of it, so a boundary behind that return comes back as the one
before it (`take_withoutReturn`).

An editor position that a text has no line for has no offset; any other is at a boundary of its line,
and further on for a later character. Main statement: `EditorPosition.round_trip`. -/

namespace GrammarAtlas

/-- Whether an offset is behind a carriage return that ends its line: before a newline, or at the end
of the text. -/
def isBehindReturn (cs : List Char) (offset : Nat) : Bool :=
  match splitAtByte offset cs with
  | some (before, after) => before.getLast? == some '\r' && after.head?.all (· == '\n')
  | none => false

theorem isBehindReturn_append (before after : List Char) :
    isBehindReturn (before ++ after) (byteLength before) ↔
      before.getLast? = some '\r' ∧ ∀ c ∈ after.head?, c = '\n' := by
  rw [isBehindReturn, splitAtByte_append]
  cases after <;> simp

namespace EditorPosition
variable {full last : List Char}

/-- The characters of a line begun are all found again, but for the return at its end. -/
theorem take_withoutReturn (last rest : List Char) :
    (withoutReturn (last ++ rest)).take last.length =
      if last.getLast? = some '\r' ∧ rest = [] then last.dropLast else last := by
  split
  · rename_i h
    obtain ⟨hr, rfl⟩ := h
    rw [List.append_nil, withoutReturn, if_pos hr]
    exact List.take_of_length_le (by simp)
  · rename_i h
    have hprefix : last <+: withoutReturn (last ++ rest) :=
      prefix_withoutReturn fun hrest hr => h ⟨hr, hrest⟩
    exact (List.prefix_iff_eq_take.1 hprefix).symm

theorem takeWhile_eq_nil_iff {cs : List Char} :
    cs.takeWhile (· != '\n') = [] ↔ ∀ c ∈ cs.head?, c = '\n' := by
  cases cs <;> simp

/-- The line begun ends in a return where the text up to there does. -/
theorem getLast?_append_eq_return (h : EndsLine full) :
    (full ++ last).getLast? = some '\r' ↔ last.getLast? = some '\r' := by
  rcases List.eq_nil_or_concat last with rfl | ⟨cs, c, rfl⟩
  · rcases h with rfl | ⟨cs, rfl⟩ <;> simp
  · simp [← List.append_assoc]

theorem byteLength_dropLast {cs : List Char} (h : cs.getLast? = some '\r') :
    byteLength cs = byteLength cs.dropLast + 1 := by
  rw [← List.dropLast_append_getLast? _ h, byteLength_append, List.dropLast_concat]
  rfl

/-- The offset of the place behind a stretch of text, as its lines tell it. -/
theorem offset?_behind (before after : List Char) :
    offset? ⟨before.count '\n', (Position.behind before).column⟩ (before ++ after) =
      some (if isBehindReturn (before ++ after) (byteLength before) then byteLength before - 1
        else byteLength before) := by
  obtain ⟨full, last, rfl, hlast, hfull⟩ := exists_lines before
  have hcount : (full ++ last).count '\n' = full.count '\n' := by
    rw [List.count_append, List.count_eq_zero_of_not_mem hlast, Nat.add_zero]
  have hoffset := offset?_eq hfull (last ++ after) last.length
  rw [takeWhile_append_of_not_mem hlast, take_withoutReturn, ← List.append_assoc] at hoffset
  rw [hcount, Position.behind_append hfull hlast, hoffset]
  simp only [isBehindReturn_append, getLast?_append_eq_return hfull, ← takeWhile_eq_nil_iff]
  split
  · rename_i hr
    rw [byteLength_append, byteLength_append, byteLength_dropLast hr.1]
    rfl
  · rfl

/-- The numbers of a position, lines counted from 0, are no larger than an editor takes. -/
def Takes (p : Position) : Prop := p.line ≤ limit + 1 ∧ p.column ≤ limit

instance (p : Position) : Decidable (Takes p) := inferInstanceAs (Decidable (_ ∧ _))

theorem ofPosition_behind {before : List Char} (h : Takes (.behind before)) :
    ofPosition (.behind before) = ⟨before.count '\n', (Position.behind before).column⟩ := by
  obtain ⟨hline, hcolumn⟩ := h
  rw [ofPosition, Nat.min_eq_left hcolumn, Nat.min_eq_left (by omega)]
  simp [Position.behind]

variable {p : EditorPosition} {cs : List Char} {offset : Nat}

theorem isBoundary_of_offset? (h : p.offset? cs = some offset) :
    isBoundary cs offset ∧ ((LineTable.ofChars cs).position offset).line = p.line + 1 := by
  obtain ⟨full, line, tail, rfl, hfull, hcount, hline, rfl, -⟩ := exists_of_offset? h
  have hcut : full ++ (line ++ tail) =
      full ++ line.take p.character ++ (line.drop p.character ++ tail) := by
    rw [List.append_assoc, ← List.append_assoc (line.take _), List.take_append_drop]
  have htake : '\n' ∉ line.take p.character := fun hmem => hline (List.mem_of_mem_take hmem)
  rw [hcut]
  refine ⟨(isBoundary_iff _ _).2 ⟨_, _, rfl, rfl⟩, ?_⟩
  rw [LineTable.position_ofChars, Position.behind_append hfull htake, hcount, Nat.add_comm]

theorem offset?_mono {line character character' offset' : Nat} (hle : character ≤ character')
    (h : offset? ⟨line, character⟩ cs = some offset)
    (h' : offset? ⟨line, character'⟩ cs = some offset') : offset ≤ offset' := by
  rw [offset?, offsetIn?_eq, Option.map_eq_some_iff] at h h'
  obtain ⟨found, hfound, rfl⟩ := h
  obtain ⟨found', hfound', rfl⟩ := h'
  obtain rfl := Option.some.inj (hfound.symm.trans hfound')
  obtain ⟨more, hmore⟩ := List.take_prefix_take_left (l := withoutReturn found) hle
  simp only [← hmore, byteLength_append]
  omega

/-- A boundary comes back from its editor position, or the one before it where a carriage return ends
the line. Other editor positions have an offset if the text has their line: a boundary of that line,
no earlier than that of an earlier character. -/
theorem round_trip (cs : List Char) :
    (∀ offset, isBoundary cs offset →
      Takes ((LineTable.ofChars cs).position offset) →
      (ofPosition ((LineTable.ofChars cs).position offset)).offset? cs =
        some (if isBehindReturn cs offset then offset - 1 else offset)) ∧
    ∀ p : EditorPosition,
      (p.offset? cs = none ↔ cs.count '\n' + 1 ≤ p.line) ∧
      ∀ offset, p.offset? cs = some offset →
        isBoundary cs offset ∧ ((LineTable.ofChars cs).position offset).line = p.line + 1 ∧
        ∀ character later, p.character ≤ character →
          offset? ⟨p.line, character⟩ cs = some later → offset ≤ later := by
  refine ⟨fun offset hb htakes => ?_, fun p => ⟨offset?_eq_none, fun offset ho => ?_⟩⟩
  · obtain ⟨before, after, rfl, rfl⟩ := (isBoundary_iff _ _).1 hb
    rw [LineTable.position_ofChars] at htakes ⊢
    rw [ofPosition_behind htakes, offset?_behind]
  · obtain ⟨hboundary, hline⟩ := isBoundary_of_offset? ho
    exact ⟨hboundary, hline, fun character later hle hl => offset?_mono hle ho hl⟩

/-- Two returns stand at the end of the first line, one at the end of the text. Only behind the first of
the three there is the way back. -/
theorem round_trip_returns :
    let cs := ['é', '\r', '\r', '\n', '⇒', '\r']
    let table := LineTable.ofChars cs
    (isBoundary cs 3 ∧ Takes (table.position 3) ∧ ofPosition (table.position 3) = ⟨0, 2⟩ ∧
      (ofPosition (table.position 3)).offset? cs = some 3) ∧
    (isBoundary cs 4 ∧ Takes (table.position 4) ∧ ofPosition (table.position 4) = ⟨0, 3⟩ ∧
      (ofPosition (table.position 4)).offset? cs = some 3) ∧
    (isBoundary cs 9 ∧ Takes (table.position 9) ∧ ofPosition (table.position 9) = ⟨1, 2⟩ ∧
      (ofPosition (table.position 9)).offset? cs = some 8) ∧
    (offset? ⟨1, 0⟩ cs = some 5 ∧ offset? ⟨1, 7⟩ cs = some 8 ∧ isBoundary cs 8 ∧
      (table.position 8).line = 2 ∧ 5 ≤ 8) ∧
    offset? ⟨2, 0⟩ cs = none := by
  intro cs table
  have hboundary : isBoundary cs 3 ∧ isBoundary cs 4 ∧ isBoundary cs 9 := by decide +kernel
  have htakes : Takes (table.position 3) ∧ Takes (table.position 4) ∧ Takes (table.position 9) := by
    decide +kernel
  have hline : offset? ⟨1, 0⟩ cs = some 5 ∧ offset? ⟨1, 7⟩ cs = some 8 := by decide +kernel
  obtain ⟨hthere, hback⟩ := round_trip cs
  have h3 := hthere 3 hboundary.1 htakes.1
  have h4 := hthere 4 hboundary.2.1 htakes.2.1
  have h9 := hthere 9 hboundary.2.2 htakes.2.2
  have hfirst := (hback ⟨1, 0⟩).2 5 hline.1
  have hlast := (hback ⟨1, 7⟩).2 8 hline.2
  exact ⟨⟨hboundary.1, htakes.1, by decide +kernel, h3⟩,
    ⟨hboundary.2.1, htakes.2.1, by decide +kernel, h4⟩,
    ⟨hboundary.2.2, htakes.2.2, by decide +kernel, h9⟩,
    ⟨hline.1, hline.2, hlast.1, hlast.2.1, hfirst.2.2 7 8 (by decide) hline.2⟩,
    (hback ⟨2, 0⟩).1.2 (by decide)⟩

end EditorPosition

end GrammarAtlas
