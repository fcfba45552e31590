import GrammarAtlas.Proofs.Tokens
import GrammarAtlas.Text.LineTable
import Mathlib.Data.List.TakeWhile

/-! # Positions are counted right

`Position.behind before` counts: the lines of a stretch of text, and the characters of its last line.
A line table gives the same answer at every boundary (`LineTable.position_ofChars`). Its lists ascend,
so a binary search counts the entries before an offset (`leadingCount_getD`); those are the entries
that the text up to there has made. -/

namespace GrammarAtlas

theorem byteLength_append (cs ds : List Char) :
    byteLength (cs ++ ds) = byteLength cs + byteLength ds := by
  induction cs with
  | nil => simp [byteLength]
  | cons c cs ih => simp [byteLength, ih, Nat.add_assoc]

/-- How many bytes the characters of `cs` have beyond one each. -/
def surplus : List Char → Nat
  | [] => 0
  | c :: cs => c.utf8Size - 1 + surplus cs

theorem surplus_append (cs ds : List Char) : surplus (cs ++ ds) = surplus cs + surplus ds := by
  induction cs with
  | nil => simp [surplus]
  | cons c cs ih => simp [surplus, ih, Nat.add_assoc]

theorem byteLength_eq (cs : List Char) : byteLength cs = cs.length + surplus cs := by
  induction cs with
  | nil => rfl
  | cons c cs ih =>
    have := c.utf8Size_pos
    simp only [byteLength, surplus, ih, List.length_cons]
    omega

theorem leadingCount_go {p : Nat → Bool} {size k : Nat} (hp : ∀ i, i < size → (p i ↔ i < k))
    (hk : k ≤ size) {digits found : Nat} (hfound : found ≤ k) (hlt : k < found + (1 <<< digits)) :
    leadingCount.go p size digits found = k := by
  induction digits generalizing found with
  | zero =>
    rw [Nat.shiftLeft_zero] at hlt
    rw [leadingCount.go]
    omega
  | succ digit ih =>
    have hpos : 0 < 1 <<< digit := by
      rw [Nat.one_shiftLeft]
      exact Nat.two_pow_pos digit
    rw [Nat.shiftLeft_succ] at hlt
    simp only [leadingCount.go, Bool.and_eq_true, decide_eq_true_eq]
    split
    · rename_i hnext
      have := (hp (found + (1 <<< digit) - 1) (by omega)).1 hnext.2
      exact ih (by omega) (by omega)
    · rename_i hnext
      refine ih hfound ?_
      by_contra hge
      exact hnext ⟨by omega, (hp _ (by omega)).2 (by omega)⟩

theorem getElem_iff_lt_countP {α : Type} {q : α → Bool} {l : List α}
    (h : l.Pairwise fun a b => q b → q a) (i : Nat) (hi : i < l.length) :
    q l[i] ↔ i < l.countP q := by
  induction l generalizing i with
  | nil => simp at hi
  | cons a l ih =>
    obtain ⟨ha, hl⟩ := List.pairwise_cons.1 h
    cases hq : q a with
    | true =>
      cases i with
      | zero => simp [hq]
      | succ i => simpa [hq] using ih hl i (by simpa using hi)
    | false =>
      have hnone : ∀ b ∈ a :: l, ¬ q b := by
        intro b hb
        rcases List.mem_cons.1 hb with rfl | hb
        · simp [hq]
        · intro hqb
          simp [ha b hb hqb] at hq
      rw [List.countP_eq_zero.2 hnone]
      simpa using hnone _ (List.getElem_mem hi)

/-- Where what satisfies `q` comes first, it is counted by binary search. -/
theorem leadingCount_getD {α : Type} {q : α → Bool} {entries : Array α} (d : α)
    (h : entries.toList.Pairwise fun a b => q b → q a) :
    leadingCount (fun i => q (entries.getD i d)) entries.size = entries.toList.countP q := by
  have hle : entries.toList.countP q ≤ entries.size := by
    simpa using List.countP_le_length (p := q) (l := entries.toList)
  refine leadingCount_go (fun i hi => ?_) hle (Nat.zero_le _) ?_
  · have := getElem_iff_lt_countP h i (by simpa using hi)
    simpa [Array.getD, hi] using this
  · have := Nat.lt_log2_self (n := entries.size)
    rw [Nat.one_shiftLeft]
    omega

/-! ## What a line table holds -/

namespace LineTable

/-- Where the lines start that begin in `cs`, which stands at byte `offset`. -/
def lineStarts (offset : Nat) : List Char → List Nat
  | [] => []
  | c :: cs =>
    if c = '\n' then (offset + c.utf8Size) :: lineStarts (offset + c.utf8Size) cs
    else lineStarts (offset + c.utf8Size) cs

/-- The wide characters of `cs`, which stands at byte `offset` behind `extra` surplus bytes. -/
def wideChars (offset extra : Nat) : List Char → List WideChar
  | [] => []
  | c :: cs =>
    if c.utf8Size = 1 then wideChars (offset + c.utf8Size) extra cs
    else ⟨offset, c.utf8Size, extra⟩ ::
      wideChars (offset + c.utf8Size) (extra + c.utf8Size - 1) cs

theorem extend_eq (table : LineTable) (offset extra : Nat) (cs : List Char) :
    table.extend offset extra cs =
      ⟨offset + byteLength cs, table.starts ++ (lineStarts offset cs).toArray,
        table.wide ++ (wideChars offset extra cs).toArray⟩ := by
  induction cs generalizing table offset extra with
  | nil => simp [extend, lineStarts, wideChars, byteLength]
  | cons c cs ih =>
    simp only [extend]
    split
    · rename_i hc
      subst hc
      rw [ih]
      simp [lineStarts, wideChars, byteLength, Nat.add_assoc, show '\n'.utf8Size = 1 from rfl]
    split
    · rename_i hc hsize
      rw [ih]
      simp [lineStarts, wideChars, byteLength, hc, hsize, Nat.add_assoc]
    · rename_i hc hsize
      rw [ih]
      simp [lineStarts, wideChars, byteLength, hc, hsize, Nat.add_assoc]

theorem size_ofChars (cs : List Char) : (ofChars cs).size = byteLength cs := by
  rw [ofChars, extend_eq, Nat.zero_add]

theorem toList_starts (cs : List Char) : (ofChars cs).starts.toList = 0 :: lineStarts 0 cs := by
  rw [ofChars, extend_eq]
  simp

theorem toList_wide (cs : List Char) : (ofChars cs).wide.toList = wideChars 0 0 cs := by
  rw [ofChars, extend_eq]
  simp

theorem lineStarts_append (offset : Nat) (cs ds : List Char) :
    lineStarts offset (cs ++ ds) =
      lineStarts offset cs ++ lineStarts (offset + byteLength cs) ds := by
  induction cs generalizing offset with
  | nil => simp [lineStarts, byteLength]
  | cons c cs ih =>
    simp only [List.cons_append, lineStarts, byteLength, ih, Nat.add_assoc]
    split <;> rfl

theorem wideChars_append (offset extra : Nat) (cs ds : List Char) :
    wideChars offset extra (cs ++ ds) = wideChars offset extra cs ++
      wideChars (offset + byteLength cs) (extra + surplus cs) ds := by
  induction cs generalizing offset extra with
  | nil => simp [wideChars, byteLength, surplus]
  | cons c cs ih =>
    have hpos := c.utf8Size_pos
    simp only [List.cons_append, wideChars, byteLength, surplus, ih, Nat.add_assoc]
    split
    · rename_i hsize
      rw [hsize, Nat.sub_self, Nat.zero_add]
    · rw [show extra + (c.utf8Size - 1 + surplus cs) = extra + c.utf8Size - 1 + surplus cs by omega]
      rfl

theorem lineStarts_bounds (offset : Nat) (cs : List Char) :
    ∀ start ∈ lineStarts offset cs, offset < start ∧ start ≤ offset + byteLength cs := by
  induction cs generalizing offset with
  | nil => simp [lineStarts]
  | cons c cs ih =>
    have hpos := c.utf8Size_pos
    have hrest := ih (offset + c.utf8Size)
    intro start hs
    simp only [lineStarts] at hs
    simp only [byteLength]
    split at hs
    · rcases List.mem_cons.1 hs with rfl | hs
      · omega
      · have := hrest start hs
        omega
    · have := hrest start hs
      omega

theorem lineStarts_ascending (offset : Nat) (cs : List Char) :
    (lineStarts offset cs).Pairwise (· ≤ ·) := by
  induction cs generalizing offset with
  | nil => exact List.Pairwise.nil
  | cons c cs ih =>
    simp only [lineStarts]
    split
    · refine List.pairwise_cons.2 ⟨fun start hs => ?_, ih _⟩
      exact Nat.le_of_lt (lineStarts_bounds _ _ start hs).1
    · exact ih _

theorem wideChars_bounds (offset extra : Nat) (cs : List Char) :
    ∀ w ∈ wideChars offset extra cs,
      offset ≤ w.start ∧ w.start < w.start + w.width ∧ w.start + w.width ≤ offset + byteLength cs := by
  induction cs generalizing offset extra with
  | nil => simp [wideChars]
  | cons c cs ih =>
    have hpos := c.utf8Size_pos
    intro w hw
    simp only [wideChars] at hw
    simp only [byteLength]
    split at hw
    · have := ih _ _ w hw
      omega
    · rcases List.mem_cons.1 hw with rfl | hw
      · simp only
        omega
      · have := ih _ _ w hw
        omega

theorem wideChars_ascending (offset extra : Nat) (cs : List Char) :
    (wideChars offset extra cs).Pairwise (fun v w => v.start ≤ w.start) := by
  induction cs generalizing offset extra with
  | nil => exact List.Pairwise.nil
  | cons c cs ih =>
    simp only [wideChars]
    split
    · exact ih _ _
    · refine List.pairwise_cons.2 ⟨fun w hw => ?_, ih _ _⟩
      have := wideChars_bounds _ _ _ w hw
      simp only
      omega

theorem length_lineStarts (offset : Nat) (cs : List Char) :
    (lineStarts offset cs).length = cs.count '\n' := by
  induction cs generalizing offset with
  | nil => rfl
  | cons c cs ih =>
    simp only [lineStarts, List.count_cons]
    split <;> simp_all

/-- The last wide character tells the surplus up to its end. -/
theorem surplus_eq_getLast? (offset extra : Nat) (cs : List Char) :
    extra + surplus cs =
      ((wideChars offset extra cs).getLast?.map fun w => w.surplus + w.width - 1).getD extra := by
  induction cs generalizing offset extra with
  | nil => simp [wideChars, surplus]
  | cons c cs ih =>
    have hpos := c.utf8Size_pos
    simp only [wideChars, surplus]
    split
    · rename_i hsize
      rw [← ih]
      omega
    · have hrest := ih (offset + c.utf8Size) (extra + c.utf8Size - 1)
      rw [List.getLast?_cons]
      cases hl : (wideChars (offset + c.utf8Size) (extra + c.utf8Size - 1) cs).getLast? with
      | none =>
        rw [hl] at hrest
        simp only [Option.map_none, Option.getD_none, Option.map_some, Option.getD_some] at hrest ⊢
        omega
      | some w =>
        rw [hl] at hrest
        simp only [Option.map_some, Option.getD_some] at hrest ⊢
        omega

section
variable (before after : List Char)

/-- The wide characters that start before an offset are those of the text up to there. -/
theorem wideBefore?_append {offset : Nat} (hbefore : ∀ w ∈ wideChars 0 0 before, w.start < offset)
    (hle : offset ≤ byteLength before) :
    (ofChars (before ++ after)).wideBefore? offset = (wideChars 0 0 before).getLast? := by
  have hwide := toList_wide (before ++ after)
  rw [wideChars_append] at hwide
  have hcount : leadingCount (fun i => ((ofChars (before ++ after)).wide.getD i default).start <
      offset) (ofChars (before ++ after)).wide.size = (wideChars 0 0 before).length := by
    rw [leadingCount_getD (q := fun w : WideChar => w.start < offset), hwide, List.countP_append]
    · have hleft : ∀ w ∈ wideChars 0 0 before, decide (w.start < offset) :=
        fun w hw => decide_eq_true (hbefore w hw)
      have hright : ∀ w ∈ wideChars (0 + byteLength before) (0 + surplus before) after,
          ¬ decide (w.start < offset) := by
        intro w hw
        have := wideChars_bounds _ _ _ w hw
        rw [decide_eq_true_eq]
        omega
      rw [List.countP_eq_length.2 hleft, List.countP_eq_zero.2 hright, Nat.add_zero]
    · rw [toList_wide]
      refine (wideChars_ascending 0 0 _).imp fun {v w} hle hw => ?_
      simp only [decide_eq_true_eq] at hw ⊢
      omega
  rw [wideBefore?, hcount, List.getLast?_eq_getElem?]
  cases hlen : (wideChars 0 0 before).length with
  | zero =>
    rw [List.length_eq_zero_iff] at hlen
    simp [hlen]
  | succ n =>
    show (ofChars (before ++ after)).wide[n]? = _
    rw [← Array.getElem?_toList, hwide, List.getElem?_append_left (by omega), Nat.add_sub_cancel]

theorem wideBefore?_ofChars :
    (ofChars (before ++ after)).wideBefore? (byteLength before) = (wideChars 0 0 before).getLast? := by
  refine wideBefore?_append before after (fun w hw => ?_) le_rfl
  have := wideChars_bounds _ _ _ w hw
  omega

theorem boundary_ofChars :
    (ofChars (before ++ after)).boundary (byteLength before) = byteLength before := by
  have hmin : min (byteLength before) (ofChars (before ++ after)).size = byteLength before := by
    rw [size_ofChars, byteLength_append]
    omega
  simp only [boundary, hmin, wideBefore?_ofChars]
  split
  · rename_i w hw
    have := wideChars_bounds _ _ _ w (List.mem_of_getLast? hw)
    rw [if_neg (by omega)]
  · rfl

theorem surplusBefore_ofChars :
    (ofChars (before ++ after)).surplusBefore (byteLength before) = surplus before := by
  have hlast := surplus_eq_getLast? 0 0 before
  rw [Nat.zero_add] at hlast
  rw [hlast, surplusBefore, wideBefore?_ofChars]
  cases (wideChars 0 0 before).getLast? <;> rfl

/-- The lines that start no later than an offset are those of the text up to there. -/
theorem countP_starts {offset : Nat} (hle : byteLength before ≤ offset)
    (hafter : ∀ start ∈ lineStarts (byteLength before) after, offset < start) :
    (0 :: lineStarts 0 (before ++ after)).countP (· ≤ offset) = 1 + before.count '\n' := by
  have hleft : ∀ start ∈ lineStarts 0 before, decide (start ≤ offset) := by
    intro start hs
    have := lineStarts_bounds _ _ start hs
    exact decide_eq_true (by omega)
  have hright : ∀ start ∈ lineStarts (0 + byteLength before) after, ¬ decide (start ≤ offset) := by
    intro start hs
    have := hafter start (by rwa [Nat.zero_add] at hs)
    rw [decide_eq_true_eq]
    omega
  rw [lineStarts_append, List.countP_cons, List.countP_append, List.countP_eq_length.2 hleft,
    List.countP_eq_zero.2 hright, length_lineStarts]
  simp [Nat.add_comm]

end

end LineTable

/-- The position behind a stretch of text: lines count from 1, columns are the characters since the
last new line. -/
def Position.behind (before : List Char) : Position :=
  ⟨1 + before.count '\n', (before.reverse.takeWhile (· != '\n')).length⟩

/-- Whether a text ends where a line does. -/
def EndsLine (cs : List Char) : Prop := cs = [] ∨ ∃ ds, cs = ds ++ ['\n']

/-- A stretch of text is its full lines and the last line begun. -/
theorem exists_lines (before : List Char) :
    ∃ full last, before = full ++ last ∧ '\n' ∉ last ∧ EndsLine full := by
  refine ⟨(before.reverse.dropWhile (· != '\n')).reverse,
    (before.reverse.takeWhile (· != '\n')).reverse, ?_, ?_, ?_⟩
  · rw [← List.reverse_append, List.takeWhile_append_dropWhile, List.reverse_reverse]
  · rw [List.mem_reverse]
    intro hmem
    simpa using List.mem_takeWhile_imp hmem
  · cases hd : before.reverse.dropWhile (· != '\n') with
    | nil => exact .inl rfl
    | cons c cs =>
      have hc := List.head_dropWhile_not (· != '\n') (l := before.reverse) (by simp [hd])
      simp only [hd, List.head_cons] at hc
      refine .inr ⟨cs.reverse, ?_⟩
      simp_all

/-- Counting goes by full lines. -/
theorem Position.behind_append {full last : List Char} (h : EndsLine full) (hlast : '\n' ∉ last) :
    behind (full ++ last) = ⟨1 + full.count '\n', last.length⟩ := by
  have hkeep : ∀ c ∈ last.reverse, (c != '\n') := by
    intro c hc
    rw [bne_iff_ne]
    rintro rfl
    exact hlast (List.mem_reverse.1 hc)
  have hrest : full.reverse.takeWhile (· != '\n') = [] := by
    rcases h with rfl | ⟨cs, rfl⟩ <;> simp
  rw [behind, List.count_append, List.count_eq_zero_of_not_mem hlast, Nat.add_zero,
    List.reverse_append, List.takeWhile_append_of_pos hkeep, hrest]
  simp

namespace LineTable

/-- The line of an offset, as a position looks it up. -/
def lineAt (table : LineTable) (offset : Nat) : Nat :=
  leadingCount (fun i => table.starts.getD i 0 ≤ offset) table.starts.size

/-- Where the line of an offset starts. -/
def lineStart (table : LineTable) (offset : Nat) : Nat :=
  table.starts.getD (table.lineAt offset - 1) 0

theorem position_eq (table : LineTable) (offset : Nat) :
    table.position offset = ⟨table.lineAt (table.boundary offset),
      table.boundary offset - table.lineStart (table.boundary offset) -
        (table.surplusBefore (table.boundary offset) -
          table.surplusBefore (table.lineStart (table.boundary offset)))⟩ := rfl

theorem lineAt_append (before after : List Char) {offset : Nat} (hle : byteLength before ≤ offset)
    (hafter : ∀ start ∈ lineStarts (byteLength before) after, offset < start) :
    (ofChars (before ++ after)).lineAt offset = 1 + before.count '\n' := by
  rw [lineAt, leadingCount_getD (q := fun start => start ≤ offset), toList_starts,
    countP_starts before after hle hafter]
  rw [toList_starts]
  refine List.pairwise_cons.2 ⟨fun start _ _ => by simp, ?_⟩
  refine (lineStarts_ascending 0 _).imp fun {a b} hle hb => ?_
  simp only [decide_eq_true_eq] at hb ⊢
  omega

theorem lineAt_ofChars (before after : List Char) :
    (ofChars (before ++ after)).lineAt (byteLength before) = 1 + before.count '\n' :=
  lineAt_append before after le_rfl fun start hs => (lineStarts_bounds _ _ start hs).1

/-- The last line starts behind the full lines. -/
theorem lineStart_ofChars {full last : List Char} (h : EndsLine full) (hlast : '\n' ∉ last)
    (after : List Char) :
    (ofChars (full ++ last ++ after)).lineStart (byteLength (full ++ last)) = byteLength full := by
  rw [lineStart, lineAt_ofChars, List.count_append, List.count_eq_zero_of_not_mem hlast, Nat.add_zero,
    Nat.add_sub_cancel_left, Array.getD_eq_getD_getElem?, ← Array.getElem?_toList,
    toList_starts, List.append_assoc, lineStarts_append, ← List.cons_append,
    List.getElem?_append_left (by simp [length_lineStarts])]
  rcases h with rfl | ⟨cs, rfl⟩
  · simp [lineStarts, byteLength]
  · rw [lineStarts_append, ← List.cons_append, List.getElem?_append_right]
    · simp [lineStarts, length_lineStarts, byteLength_append, byteLength]
    · simp [length_lineStarts]

/-- At a boundary a line table tells the position that counting tells. -/
theorem position_ofChars (before after : List Char) :
    (ofChars (before ++ after)).position (byteLength before) = .behind before := by
  obtain ⟨full, last, rfl, hlast, hfull⟩ := exists_lines before
  have hsurplus : (ofChars (full ++ last ++ after)).surplusBefore (byteLength full) = surplus full := by
    rw [List.append_assoc]
    exact surplusBefore_ofChars full (last ++ after)
  rw [position_eq, boundary_ofChars, surplusBefore_ofChars, lineAt_ofChars,
    lineStart_ofChars hfull hlast, hsurplus, Position.behind_append hfull hlast, byteLength_append,
    surplus_append, byteLength_eq last, List.count_append, List.count_eq_zero_of_not_mem hlast]
  refine congrArg (Position.mk _) ?_
  omega

end LineTable

/-- The place behind a stretch of text. -/
def Mark.behind (before : List Char) : Mark := ⟨byteLength before, .behind before⟩

theorem LineTable.mark_ofChars (before after : List Char) :
    (ofChars (before ++ after)).mark (byteLength before) = .behind before := by
  rw [mark, position_ofChars]
  rfl

end GrammarAtlas
