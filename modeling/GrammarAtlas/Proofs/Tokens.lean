import GrammarAtlas.Token.Stream

/-! # Tokens lie one behind the other

The pieces of a text have no gaps and no overlaps, and none is empty. Tokens are some of the pieces,
so they lie one behind the other as well (`TokenStream.ofChars_ordered`). The kind of a name tells
whether it begins with a capital (`TokenStream.ofChars_capitalized`), and names have no blanks in them
(`TokenStream.ofChars_plain`). -/

namespace GrammarAtlas

theorem byteLength_cons_pos (c : Char) (cs : List Char) : 0 < byteLength (c :: cs) := by
  have := c.utf8Size_pos
  simp only [byteLength]
  omega

namespace Piece

theorem cutFrom_ordered (turns : Nat) (context : Context) (start : Nat) (cs : List Char) :
    (∀ p ∈ cutFrom turns context start cs, start ≤ p.start ∧ p.start < p.stop) ∧
      (cutFrom turns context start cs).Pairwise (fun p q => p.stop ≤ q.start) := by
  induction turns generalizing context start cs with
  | zero => simp [cutFrom]
  | succ turns ih =>
    cases cs with
    | nil => simp [cutFrom]
    | cons c cs =>
      simp only [cutFrom]
      generalize read context c cs = form
      have hpos := byteLength_cons_pos c (cs.take form.2)
      obtain ⟨hbound, hpair⟩ := ih (context.after (c :: cs.take form.2) form.1)
        (start + byteLength (c :: cs.take form.2)) (cs.drop form.2)
      refine ⟨?_, List.pairwise_cons.2 ⟨fun p hp => (hbound p hp).1, hpair⟩⟩
      intro p hp
      rcases List.mem_cons.1 hp with rfl | hp
      · simp only [stop]
        omega
      · have := hbound p hp
        omega

theorem signed_form (context : Context) (c : Char) (cs : List Char) :
    (∃ kind closed more, kind ≠ .finish ∧ kind.isName = false ∧
        signed context c cs = (.lexeme kind closed, more)) ∨
      signed context c cs = strayRun cs := by
  unfold signed
  split <;> (try split) <;>
    first | exact .inr rfl | exact .inl ⟨_, _, _, by decide, by decide, rfl⟩

/-- A name begins with a letter, and goes on as long as it can. -/
theorem read_of_isName {context : Context} {c : Char} {cs : List Char} {kind : Token.Kind}
    {closed : Bool} (h : (read context c cs).1 = .lexeme kind closed) (hn : kind.isName) :
    continuesName c ∧ read context c cs =
      (.lexeme (if isUppercase c then .upperName else .lowerName) true,
        (cs.takeWhile continuesName).length) := by
  unfold read at h ⊢
  split at h
  · cases h
  split at h
  · cases h
  split at h
  · cases h
  split at h
  · rename_i hblank hline hblock hfirst
    rw [if_neg hblank, if_neg hline, if_neg hblock, if_pos hfirst]
    simp only [Bool.or_eq_true, decide_eq_true_eq] at hfirst
    refine ⟨?_, rfl⟩
    rcases hfirst with hc | rfl
    · simp [continuesName, hc]
    · simp [continuesName]
  split at h
  · obtain ⟨rfl, -⟩ := Form.lexeme.inj h
    cases hn
  · rcases signed_form context c cs with ⟨_, _, _, -, hname, heq⟩ | heq
    · rw [heq] at h
      obtain ⟨rfl, -⟩ := Form.lexeme.inj h
      rw [hname] at hn
      cases hn
    · rw [heq] at h
      cases h

/-- Of the names, those that begin with a capital are of a kind of their own. -/
theorem isUppercase_of_read {context : Context} {c : Char} {cs : List Char} {kind : Token.Kind}
    {closed : Bool} (h : (read context c cs).1 = .lexeme kind closed) (hn : kind.isName) :
    kind = .upperName ↔ isUppercase c := by
  rw [(read_of_isName h hn).2] at h
  obtain ⟨rfl, -⟩ := Form.lexeme.inj h
  cases isUppercase c with
  | false => exact iff_of_false nofun nofun
  | true => exact iff_of_true rfl rfl

theorem continuesName_of_read {context : Context} {c : Char} {cs : List Char} {kind : Token.Kind}
    {closed : Bool} (h : (read context c cs).1 = .lexeme kind closed) (hn : kind.isName) :
    ∀ d ∈ c :: cs.take (read context c cs).2, continuesName d := by
  obtain ⟨hc, hread⟩ := read_of_isName h hn
  rw [hread, ← List.prefix_iff_eq_take.1 (List.takeWhile_prefix _)]
  exact List.forall_mem_cons.2 ⟨hc, List.all_eq_true.1 List.all_takeWhile⟩

theorem exists_read_of_mem_cutFrom {turns : Nat} {context : Context} {start : Nat} {cs : List Char}
    {p : Piece} (hp : p ∈ cutFrom turns context start cs) :
    ∃ context c cs, p.form = (read context c cs).1 ∧
      p.text = c :: cs.take (read context c cs).2 := by
  induction turns generalizing context start cs with
  | zero => simp [cutFrom] at hp
  | succ turns ih =>
    cases cs with
    | nil => simp [cutFrom] at hp
    | cons c cs =>
      rcases List.mem_cons.1 hp with rfl | hp
      · exact ⟨context, c, cs, rfl, rfl⟩
      · exact ih hp

end Piece

def isCapitalized (name : String) : Bool := name.toList.head?.any isUppercase

/-- Whether a name is all of one piece. -/
def isPlain (name : String) : Bool := name.toList.all Piece.continuesName

namespace TokenStream

/-- The byte offsets between which a token stands. -/
def extent (t : Token) : Nat × Nat := (t.start.offset, t.stop.offset)

theorem extents_gather (lines : LineTable) (lead : List Char) (pieces : List Piece) :
    ((gather lines lead pieces).tokens.map extent).Sublist (pieces.map fun p => (p.start, p.stop)) := by
  induction pieces generalizing lead with
  | nil => simp [gather]
  | cons p pieces ih =>
    simp only [gather, List.map_cons]
    split
    · exact (ih []).cons_cons _
    all_goals exact (ih _).cons _

theorem exists_piece_of_mem_gather {lines : LineTable} {lead : List Char} {pieces : List Piece}
    {t : Token} (ht : t ∈ (gather lines lead pieces).tokens) :
    ∃ p ∈ pieces, (∃ closed, p.form = .lexeme t.kind closed) ∧ t.text = String.ofList p.text := by
  induction pieces generalizing lead with
  | nil => simp [gather] at ht
  | cons p pieces ih =>
    simp only [gather] at ht
    split at ht
    · rename_i kind closed hform
      rcases List.mem_cons.1 ht with rfl | ht
      · exact ⟨p, .head _, ⟨closed, hform⟩, rfl⟩
      · obtain ⟨q, hq, h⟩ := ih ht
        exact ⟨q, .tail _ hq, h⟩
    all_goals
      obtain ⟨q, hq, h⟩ := ih ht
      exact ⟨q, .tail _ hq, h⟩

theorem ofChars_capitalized (cs : List Char) :
    ∀ t ∈ (ofChars cs).1.tokens, t.isName → (t.kind = .upperName ↔ isCapitalized t.text) := by
  intro t ht hn
  obtain ⟨p, hp, ⟨closed, hform⟩, htext⟩ := exists_piece_of_mem_gather ht
  obtain ⟨context, c, cs, hread, hpiece⟩ := Piece.exists_read_of_mem_cutFrom hp
  rw [Piece.isUppercase_of_read (hread.symm.trans hform) hn, isCapitalized, htext,
    String.toList_ofList, hpiece, List.head?_cons, Option.any_some]

theorem ofChars_plain (cs : List Char) : ∀ t ∈ (ofChars cs).1.tokens, t.isName → isPlain t.text := by
  intro t ht hn
  obtain ⟨p, hp, ⟨closed, hform⟩, htext⟩ := exists_piece_of_mem_gather ht
  obtain ⟨context, c, cs, hread, hpiece⟩ := Piece.exists_read_of_mem_cutFrom hp
  rw [isPlain, htext, String.toList_ofList, hpiece, List.all_eq_true]
  exact Piece.continuesName_of_read (hread.symm.trans hform) hn

theorem gather_finish_kind (lines : LineTable) (lead : List Char) (pieces : List Piece) :
    (gather lines lead pieces).finish.kind = .finish := by
  induction pieces generalizing lead with
  | nil => rfl
  | cons p pieces ih =>
    simp only [gather]
    split <;> exact ih _

theorem ofChars_nonempty (cs : List Char) :
    ∀ t ∈ (ofChars cs).1.tokens, t.start.offset < t.stop.offset := by
  intro t ht
  have hmem := (extents_gather (LineTable.ofChars cs) [] (Piece.cut cs)).subset
    (List.mem_map_of_mem ht)
  obtain ⟨p, hp, heq⟩ := List.mem_map.1 hmem
  have hlt := ((Piece.cutFrom_ordered _ _ _ _).1 p hp).2
  rw [extent, Prod.mk.injEq] at heq
  omega

theorem ofChars_ordered (cs : List Char) :
    (ofChars cs).1.tokens.Pairwise (fun t u => t.stop.offset ≤ u.start.offset) := by
  have hcut : (Piece.cut cs).Pairwise (fun p q => p.stop ≤ q.start) :=
    (Piece.cutFrom_ordered _ _ _ _).2
  have hpieces : ((Piece.cut cs).map fun p => (p.start, p.stop)).Pairwise (fun e f => e.2 ≤ f.1) :=
    List.pairwise_map.2 hcut
  exact List.pairwise_map.1
    (hpieces.sublist (extents_gather (LineTable.ofChars cs) [] (Piece.cut cs)))

end TokenStream

end GrammarAtlas
