import GrammarAtlas.Editor
import GrammarAtlas.Proofs.Locations

/-! # What an editor points at

An editor tells a place by its line and its character. The offset of such a place is found by going
through the lines of the text, and a character past the end of a line counts as its end, where the
carriage return before a newline is no part of the line. Positions on the other hand are counted over
all characters (`Position.behind`). For a stretch of text without line ends the two agree:
`Location.Spans.exists_offset?_iff`. -/

namespace GrammarAtlas

namespace EditorPosition

theorem linesOf_cons {c : Char} (hc : c ≠ '\n') {cs line : List Char} {lines : List (List Char)}
    (h : linesOf cs = line :: lines) : linesOf (c :: cs) = (c :: line) :: lines := by
  rw [linesOf, if_neg hc, h]

/-- The first line goes up to the first newline. -/
theorem exists_linesOf (cs : List Char) :
    ∃ lines, linesOf cs = cs.takeWhile (· != '\n') :: lines := by
  induction cs with
  | nil => exact ⟨[], rfl⟩
  | cons c cs ih =>
    obtain ⟨lines, hlines⟩ := ih
    by_cases hc : c = '\n'
    · exact ⟨linesOf cs, by simp [linesOf, hc]⟩
    · exact ⟨lines, by rw [linesOf_cons hc hlines]; simp [hc]⟩

theorem takeWhile_append_of_not_mem {last : List Char} (h : '\n' ∉ last) (cs : List Char) :
    (last ++ cs).takeWhile (· != '\n') = last ++ cs.takeWhile (· != '\n') := by
  refine List.takeWhile_append_of_pos fun c hc => ?_
  rw [bne_iff_ne]
  rintro rfl
  exact h hc

theorem linesOf_append (cs ds : List Char) :
    linesOf (cs ++ '\n' :: ds) = linesOf cs ++ linesOf ds := by
  induction cs with
  | nil => simp [linesOf]
  | cons c cs ih =>
    by_cases hc : c = '\n'
    · simp [linesOf, hc, ih]
    · obtain ⟨lines, hlines⟩ := exists_linesOf cs
      rw [hlines, List.cons_append] at ih
      rw [List.cons_append, linesOf_cons hc ih, linesOf_cons hc hlines, List.cons_append]

theorem length_linesOf (cs : List Char) : (linesOf cs).length = cs.count '\n' + 1 := by
  induction cs with
  | nil => rfl
  | cons c cs ih =>
    by_cases hc : c = '\n'
    · simp [linesOf, hc, ih]
    · obtain ⟨lines, hlines⟩ := exists_linesOf cs
      rw [linesOf_cons hc hlines, List.count_cons_of_ne hc, ← ih, hlines]
      rfl

/-- How many bytes some lines take, each with the newline behind it. -/
def size : List (List Char) → Nat
  | [] => 0
  | line :: lines => byteLength line + 1 + size lines

theorem size_linesOf (cs : List Char) : size (linesOf cs) = byteLength cs + 1 := by
  induction cs with
  | nil => rfl
  | cons c cs ih =>
    by_cases hc : c = '\n'
    · have hone : '\n'.utf8Size = 1 := rfl
      simp [linesOf, hc, size, ih, byteLength, hone, Nat.add_assoc]
    · obtain ⟨lines, hlines⟩ := exists_linesOf cs
      rw [hlines] at ih
      rw [linesOf_cons hc hlines]
      simp only [size, byteLength] at ih ⊢
      omega

theorem offsetIn?_eq (character line : Nat) (lines : List (List Char)) :
    offsetIn? character line lines = lines[line]?.map fun cs =>
      size (lines.take line) + byteLength ((withoutReturn cs).take character) := by
  induction lines generalizing line with
  | nil => simp [offsetIn?]
  | cons cs lines ih =>
    cases line with
    | zero => simp [offsetIn?, size]
    | succ line =>
      rw [offsetIn?, ih, List.getElem?_cons_succ, Option.map_map]
      congr 1
      funext ds
      simp only [Function.comp_apply, List.take_succ_cons, size]
      omega

variable {full : List Char}

/-- Behind full lines the others follow. -/
theorem exists_lines_append (h : EndsLine full) (rest : List Char) :
    ∃ lines, linesOf (full ++ rest) = lines ++ linesOf rest ∧ lines.length = full.count '\n' ∧
      size lines = byteLength full := by
  rcases h with rfl | ⟨cs, rfl⟩
  · exact ⟨[], rfl, rfl, rfl⟩
  · refine ⟨linesOf cs, ?_, ?_, ?_⟩
    · rw [List.append_assoc, List.singleton_append, linesOf_append]
    · rw [length_linesOf, List.count_append, List.count_singleton_self]
    · rw [size_linesOf, byteLength_append]
      rfl

theorem getElem?_linesOf (h : EndsLine full) (rest : List Char) :
    (linesOf (full ++ rest))[full.count '\n']? = some (rest.takeWhile (· != '\n')) := by
  obtain ⟨lines, hlines, hlength, -⟩ := exists_lines_append h rest
  obtain ⟨more, hmore⟩ := exists_linesOf rest
  rw [hlines, ← hlength, hmore]
  simp

theorem offset?_eq (h : EndsLine full) (rest : List Char) (character : Nat) :
    offset? ⟨full.count '\n', character⟩ (full ++ rest) =
      some (byteLength (full ++ (withoutReturn (rest.takeWhile (· != '\n'))).take character)) := by
  obtain ⟨lines, hlines, hlength, hsize⟩ := exists_lines_append h rest
  rw [offset?, offsetIn?_eq, getElem?_linesOf h, hlines, ← hlength, Option.map_some, byteLength_append]
  simp [hsize]

theorem offset?_eq_none {p : EditorPosition} {cs : List Char} :
    p.offset? cs = none ↔ cs.count '\n' < p.line := by
  rw [offset?, offsetIn?_eq, Option.map_eq_none_iff, List.getElem?_eq_none_iff, length_linesOf]
  omega

/-- The lines before one that a text has. -/
theorem exists_endsLine {cs : List Char} {line : Nat} (h : line ≤ cs.count '\n') :
    ∃ full rest, cs = full ++ rest ∧ EndsLine full ∧ full.count '\n' = line := by
  induction cs generalizing line with
  | nil => exact ⟨[], [], rfl, .inl rfl, by simpa [eq_comm] using h⟩
  | cons c cs ih =>
    cases line with
    | zero => exact ⟨[], c :: cs, rfl, .inl rfl, rfl⟩
    | succ line =>
      by_cases hc : c = '\n'
      · subst hc
        obtain ⟨full, rest, rfl, hfull, hcount⟩ := ih (Nat.le_of_succ_le_succ (by simpa using h))
        refine ⟨'\n' :: full, rest, rfl, .inr ?_, by simp [hcount]⟩
        rcases hfull with rfl | ⟨ds, rfl⟩
        · exact ⟨[], rfl⟩
        · exact ⟨'\n' :: ds, rfl⟩
      · obtain ⟨full, rest, rfl, hfull, hcount⟩ := ih (show line + 1 ≤ _ by simpa [hc] using h)
        refine ⟨c :: full, rest, rfl, .inr ?_, by simp [hc, hcount]⟩
        rcases hfull with rfl | ⟨ds, rfl⟩
        · simp at hcount
        · exact ⟨c :: ds, rfl⟩

/-- Behind what counts of a line there is a line end, if anything. -/
theorem exists_lineEnd (cs : List Char) :
    ∃ tail, cs = withoutReturn (cs.takeWhile (· != '\n')) ++ tail ∧
      ∀ c ∈ tail.head?, c = '\n' ∨ c = '\r' := by
  rw [withoutReturn]
  split
  · rename_i hr
    refine ⟨'\r' :: cs.dropWhile (· != '\n'), ?_, by simp⟩
    rw [← List.singleton_append, ← List.append_assoc, List.dropLast_append_getLast? _ hr,
      List.takeWhile_append_dropWhile]
  · refine ⟨cs.dropWhile (· != '\n'), List.takeWhile_append_dropWhile.symm, fun c hc => .inl ?_⟩
    have hhead := List.head?_dropWhile_not (· != '\n') cs
    rw [hc] at hhead
    simpa using hhead

theorem not_mem_withoutReturn (cs : List Char) :
    '\n' ∉ withoutReturn (cs.takeWhile (· != '\n')) := by
  have hline : '\n' ∉ cs.takeWhile (· != '\n') := by
    intro hmem
    simpa using List.mem_takeWhile_imp hmem
  rw [withoutReturn]
  split
  · exact fun hmem => hline (List.dropLast_subset _ hmem)
  · exact hline

/-- The offset found is that of a character of the line, or of its end. -/
theorem exists_of_offset? {p : EditorPosition} {cs : List Char} {offset : Nat}
    (h : p.offset? cs = some offset) :
    ∃ full line tail, cs = full ++ (line ++ tail) ∧ EndsLine full ∧ full.count '\n' = p.line ∧
      '\n' ∉ line ∧ offset = byteLength (full ++ line.take p.character) ∧
      ∀ c ∈ tail.head?, c = '\n' ∨ c = '\r' := by
  have hline : p.line ≤ cs.count '\n' := by
    rw [← Nat.not_lt, ← offset?_eq_none, h]
    exact Option.some_ne_none offset
  obtain ⟨full, rest, rfl, hfull, hcount⟩ := exists_endsLine hline
  have hoffset := offset?_eq hfull rest p.character
  rw [hcount, h, Option.some.injEq] at hoffset
  obtain ⟨tail, hrest, htail⟩ := exists_lineEnd rest
  exact ⟨full, _, tail, congrArg _ hrest, hfull, hcount, not_mem_withoutReturn rest, hoffset, htail⟩

/-- Of a line only the end is dropped. -/
theorem prefix_withoutReturn {cs ds : List Char} (h : ds = [] → cs.getLast? ≠ some '\r') :
    cs <+: withoutReturn (cs ++ ds) := by
  rw [withoutReturn]
  split
  · rename_i hr
    rcases List.eq_nil_or_concat ds with rfl | ⟨ds, d, rfl⟩
    · rw [List.append_nil] at hr
      exact absurd hr (h rfl)
    · rw [List.concat_eq_append, ← List.append_assoc, List.dropLast_concat]
      exact List.prefix_append _ _
  · exact List.prefix_append _ _

/-- There is no character at the position: it is past the end of the text, or of its line, of which
the carriage return before a newline is no part. -/
def IsPast (p : EditorPosition) (cs : List Char) : Prop :=
  ∀ line ∈ (linesOf cs)[p.line]?, (withoutReturn line).length ≤ p.character

instance (p : EditorPosition) (cs : List Char) : Decidable (p.IsPast cs) :=
  inferInstanceAs (Decidable (∀ line ∈ (linesOf cs)[p.line]?, _))

end EditorPosition

namespace Location
open EditorPosition

/-- The editor position is that of a character between the start and the stop. -/
def Covers (l : Location) (p : EditorPosition) : Prop :=
  l.start.position.line = p.line + 1 ∧ l.start.position.column ≤ p.character ∧
    p.character < l.stop.position.column

instance (l : Location) (p : EditorPosition) : Decidable (l.Covers p) :=
  inferInstanceAs (Decidable (_ ∧ _))

variable {cs before middle after : List Char} {l : Location} {p : EditorPosition}

/-- A stretch of text without line ends covers an editor position if it begins on its line and has a
character there. -/
theorem covers_iff {full last : List Char} (h : EndsLine full) (hlast : '\n' ∉ last)
    (hmiddle : '\n' ∉ middle) :
    Covers ⟨.behind (full ++ last), .behind (full ++ last ++ middle)⟩ p ↔
      full.count '\n' = p.line ∧ last.length ≤ p.character ∧
        p.character < last.length + middle.length := by
  have hline : '\n' ∉ last ++ middle := by simp [hlast, hmiddle]
  simp only [Covers, Mark.behind, List.append_assoc full, Position.behind_append h hlast,
    Position.behind_append h hline, List.length_append]
  omega

/-- What ends in the middle of the stretch ends before one of its characters. -/
theorem contains_iff {ps : List Char} (h : ps <+: before ++ middle ++ after) :
    contains ⟨.behind before, .behind (before ++ middle)⟩ (byteLength ps) ↔
      ∃ ms c ns, middle = ms ++ c :: ns ∧ ps = before ++ ms := by
  have hbefore : before <+: before ++ middle ++ after := by simp
  have hstop : before ++ middle <+: before ++ middle ++ after := List.prefix_append _ _
  rw [contains, Bool.and_eq_true, decide_eq_true_eq, decide_eq_true_eq]
  simp only [Mark.behind]
  constructor
  · rintro ⟨hle, hlt⟩
    obtain ⟨ms, rfl⟩ := prefix_of_byteLength_le hbefore h hle
    obtain ⟨rest, hrest⟩ := prefix_of_byteLength_le h hstop hlt.le
    rw [List.append_assoc, List.append_cancel_left_eq] at hrest
    cases rest with
    | nil => simp [← hrest] at hlt
    | cons c ns => exact ⟨ms, c, ns, hrest.symm, rfl⟩
  · rintro ⟨ms, c, ns, rfl, rfl⟩
    have hpos := byteLength_cons_pos c ns
    simp only [byteLength_append]
    omega

theorem Spans.covers_of_contains (h : l.Spans cs middle) (hn : '\n' ∉ middle) (hr : '\r' ∉ middle)
    {offset : Nat} (ho : p.offset? cs = some offset) (hc : l.contains offset) : l.Covers p := by
  obtain ⟨full, line, tail, hcs, hfull, hcount, hnewline, rfl, htail⟩ := exists_of_offset? ho
  obtain ⟨before, after, rfl, rfl⟩ := h
  have hprefix : full ++ line.take p.character <+: before ++ middle ++ after := by
    rw [hcs, List.prefix_append_right_inj]
    exact (List.take_prefix _ _).trans (List.prefix_append _ _)
  rw [contains_iff hprefix] at hc
  obtain ⟨ms, c, ns, rfl, heq⟩ := hc
  -- Were the character past the end of the line, the stretch would go on with a line end.
  have hwithin : p.character ≤ line.length := by
    by_contra hlt
    rw [List.take_of_length_le (by omega)] at heq
    have hnext : c :: (ns ++ after) = tail := by
      rw [← List.append_assoc full, heq] at hcs
      simpa using hcs
    rcases htail c (by rw [← hnext]; rfl) with rfl | rfl <;> simp at hn hr
  obtain ⟨full', last, rfl, hlast, hfull'⟩ := exists_lines before
  have hms : '\n' ∉ last ++ ms := by
    rw [List.mem_append, not_or] at hn ⊢
    exact ⟨hlast, hn.1⟩
  have hplace := Position.behind_append hfull fun hmem : '\n' ∈ line.take p.character =>
    hnewline (List.mem_of_mem_take hmem)
  rw [heq, List.append_assoc, Position.behind_append hfull' hms, Position.mk.injEq, List.length_append,
    List.length_take] at hplace
  rw [covers_iff hfull' hlast hn, List.length_append, List.length_cons]
  omega

/-- The characters of the stretch are found at their line and column. -/
theorem Spans.exists_line (h : l.Spans cs middle) (hn : '\n' ∉ middle) (hr : '\r' ∉ middle)
    (hp : l.Covers p) : ∃ full rest line, cs = full ++ rest ∧ EndsLine full ∧
      full.count '\n' = p.line ∧ rest.takeWhile (· != '\n') = line ∧
      p.character < (withoutReturn line).length ∧
      l.contains (byteLength (full ++ (withoutReturn line).take p.character)) := by
  obtain ⟨before, after, rfl, rfl⟩ := h
  obtain ⟨full, last, rfl, hlast, hfull⟩ := exists_lines before
  obtain ⟨hcount, hle, hlt⟩ := (covers_iff hfull hlast hn).1 hp
  have hline : '\n' ∉ last ++ middle := by simp [hlast, hn]
  have hend : after.takeWhile (· != '\n') = [] → (last ++ middle).getLast? ≠ some '\r' := by
    intro _ hlast?
    rw [List.getLast?_append_of_ne_nil _ (List.ne_nil_of_length_pos (by omega))] at hlast?
    exact hr (List.mem_of_getLast? hlast?)
  obtain ⟨tail, htail⟩ := prefix_withoutReturn hend
  refine ⟨full, last ++ middle ++ after, _, by simp, hfull, hcount, rfl, ?_, ?_⟩
  · rw [takeWhile_append_of_not_mem hline, ← htail]
    simp only [List.length_append]
    omega
  · obtain ⟨c, ns, hdrop⟩ : ∃ c ns, middle.drop (p.character - last.length) = c :: ns :=
      List.exists_cons_of_length_pos (by rw [List.length_drop]; omega)
    have htake : (last ++ middle ++ tail).take p.character =
        last ++ middle.take (p.character - last.length) := by
      rw [List.take_append_of_le_length (by simp; omega), List.take_append,
        List.take_of_length_le hle]
    have hprefix : full ++ last ++ middle.take (p.character - last.length) <+:
        full ++ last ++ middle ++ after := by
      rw [List.append_assoc (full ++ last), List.prefix_append_right_inj]
      exact (List.take_prefix _ _).trans (List.prefix_append _ _)
    rw [takeWhile_append_of_not_mem hline, ← htail, htake, ← List.append_assoc, contains_iff hprefix]
    exact ⟨_, c, ns, by rw [← hdrop, List.take_append_drop], rfl⟩

theorem Spans.exists_offset?_iff (h : l.Spans cs middle) (hn : '\n' ∉ middle) (hr : '\r' ∉ middle) :
    (∃ offset, p.offset? cs = some offset ∧ l.contains offset) ↔ l.Covers p := by
  constructor
  · rintro ⟨offset, ho, hc⟩
    exact h.covers_of_contains hn hr ho hc
  · intro hp
    obtain ⟨full, rest, line, rfl, hfull, hcount, rfl, -, hc⟩ := h.exists_line hn hr hp
    refine ⟨_, ?_, hc⟩
    have := offset?_eq hfull rest p.character
    rwa [hcount] at this

theorem Spans.not_isPast (h : l.Spans cs middle) (hn : '\n' ∉ middle) (hr : '\r' ∉ middle)
    (hp : l.Covers p) : ¬ p.IsPast cs := by
  obtain ⟨full, rest, line, rfl, hfull, hcount, rfl, hlt, -⟩ := h.exists_line hn hr hp
  have hline := getElem?_linesOf hfull rest
  rw [hcount] at hline
  exact fun hpast => Nat.not_lt.2 (hpast _ hline) hlt

end Location

end GrammarAtlas
