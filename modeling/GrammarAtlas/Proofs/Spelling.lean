import GrammarAtlas.Proofs.AbstractSyntax
import Mathlib.Data.List.Forall2
import Mathlib.Data.List.Infix

/-! # Texts that spell lexemes

A text spells a list of lexemes if it holds their texts in order, with gaps of blanks and comments
around them. A gap may be empty unless the next character would carry the lexeme on
(`Lexeme.carriesOn`). However a list is spelled, its tokens are the lexemes and no piece is at fault
(`Spells.ofChars`). -/

namespace GrammarAtlas

/-- The token is the lexeme, wherever it stands. -/
structure Token.Shows (t : Token) (l : Abstract.Lexeme) : Prop where
  kind : t.kind = l.kind
  text : t.text = l.text

namespace Abstract

/-- What may stand between two lexemes: blanks, comments that end with the line, and comments that
end where they first can. -/
inductive Gap : List Char → Prop
  | nil : Gap []
  | blank {c : Char} {gap : List Char} (hc : isBlank c) (h : Gap gap) : Gap (c :: gap)
  | line {body gap : List Char} (hb : '\n' ∉ body) (h : Gap gap) :
    Gap ('/' :: '/' :: (body ++ '\n' :: gap))
  | block {body gap : List Char} (hb : ¬ ['*', '/'] <:+: body ++ ['*']) (h : Gap gap) :
    Gap ('/' :: '*' :: (body ++ '*' :: '/' :: gap))

/-- Whether the lexeme would be a longer one, or another one, if `c` stood right behind it. -/
def Lexeme.carriesOn : Lexeme → Char → Bool
  | .name _, c => Piece.continuesName c
  | .sign .colon, c => c == ':'
  | .sign .plus, c => c == '='
  | .sign .dot, c => c == '.'
  | _, _ => false

inductive Spells : List Lexeme → List Char → Prop
  | finish {gap : List Char} (hg : Gap gap) : Spells [] gap
  /-- The last comment need not end with its line. -/
  | comment {gap body : List Char} (hg : Gap gap) (hb : '\n' ∉ body) :
    Spells [] (gap ++ '/' :: '/' :: body)
  | lexeme {gap rest : List Char} {l : Lexeme} {ls : List Lexeme} (hg : Gap gap)
    (hl : ∀ c ∈ rest.head?, l.carriesOn c = false) (h : Spells ls rest) :
    Spells (l :: ls) (gap ++ (l.text.toList ++ rest))

/-- The plain spelling, with a space before each lexeme. -/
def render (ls : List Lexeme) : List Char := ls.flatMap fun l => ' ' :: l.text.toList

theorem spells_render (ls : List Lexeme) : Spells ls (render ls) := by
  induction ls with
  | nil => exact .finish .nil
  | cons l ls ih =>
    show Spells (l :: ls) ([' '] ++ (l.text.toList ++ render ls))
    refine .lexeme (.blank (by decide) .nil) (fun c hc => ?_) ih
    have hspace : c = ' ' := by
      cases ls with
      | nil => simp [render] at hc
      | cons m ls => simpa [render, eq_comm] using hc
    subst hspace
    unfold Lexeme.carriesOn
    split <;> decide

/-! ## How lexemes are read -/

theorem blank_cases {n : Nat} (h : CharRange.holds Blank.ranges n) :
    n ∈ [0x9, 0xA, 0xB, 0xC, 0xD, 0x20, 0x85, 0xA0, 0x1680, 0x2000, 0x2001, 0x2002, 0x2003, 0x2004,
      0x2005, 0x2006, 0x2007, 0x2008, 0x2009, 0x200A, 0x2028, 0x2029, 0x202F, 0x205F, 0x3000] := by
  simp [Blank.ranges, CharRange.holds, CharRange.run, CharRange.one, Nat.mod_one] at h ⊢
  omega

theorem isAlphabetic_of_isBlank {c : Char} (h : isBlank c) : isAlphabetic c = false := by
  have hnone : ∀ n ∈ [0x9, 0xA, 0xB, 0xC, 0xD, 0x20, 0x85, 0xA0, 0x1680, 0x2000, 0x2001, 0x2002,
      0x2003, 0x2004, 0x2005, 0x2006, 0x2007, 0x2008, 0x2009, 0x200A, 0x2028, 0x2029, 0x202F,
      0x205F, 0x3000], CharRange.holds Alphabetic.ranges n = false := by
    decide +kernel
  exact hnone _ (blank_cases h)

end Abstract

namespace Piece

theorem length_takeWhile_append {p : Char → Bool} {cs rest : List Char} (hcs : ∀ c ∈ cs, p c)
    (hrest : ∀ c ∈ rest.head?, p c = false) : ((cs ++ rest).takeWhile p).length = cs.length := by
  rw [List.takeWhile_append_of_pos hcs]
  cases rest with
  | nil => simp
  | cons c rest => simp [hrest c rfl]

theorem commentBody_append {body : List Char} (h : ¬ ['*', '/'] <:+: body ++ ['*'])
    (rest : List Char) : commentBody (body ++ '*' :: '/' :: rest) = ⟨body.length + 2, true⟩ := by
  induction body with
  | nil => rfl
  | cons c body ih =>
    have hbody : ¬ ['*', '/'] <:+: body ++ ['*'] := fun hi => h (hi.trans (List.suffix_cons _ _).isInfix)
    have hopen : commentBody (c :: (body ++ '*' :: '/' :: rest)) =
        (commentBody (body ++ '*' :: '/' :: rest)).shift 1 := by
      rw [commentBody]
      rintro cs rfl hcs
      cases body with
      | nil => simp at hcs
      | cons d body =>
        simp only [List.cons_append, List.cons.injEq] at hcs
        obtain ⟨rfl, -⟩ := hcs
        exact h ⟨[], body ++ ['*'], by simp⟩
    rw [List.cons_append, hopen, ih hbody]
    rfl

theorem ne_backslash {c : Char} {cs : List Char} (h₁ : c = '\\' → cs = [] → False)
    (h₂ : ∀ d ds, c = '\\' → cs = d :: ds → False) : c ≠ '\\' := by
  intro hc
  cases cs with
  | nil => exact h₁ hc rfl
  | cons d ds => exact h₂ d ds hc rfl

theorem quotedBody_append {body : List Char} (h : Abstract.staysOpen ['\'', '\n'] body)
    (rest : List Char) : quotedBody (body ++ '\'' :: rest) = ⟨body.length + 1, true⟩ := by
  fun_induction Abstract.staysOpen ['\'', '\n'] body with
  | case1 => rfl
  | case2 => cases h
  | case3 c cs ih =>
    show quotedBody ('\\' :: c :: (cs ++ '\'' :: rest)) = _
    rw [quotedBody, ih h]
    rfl
  | case4 c cs h₁ h₂ ih =>
    have hb := ne_backslash h₁ h₂
    simp only [List.contains_cons, List.contains_nil, Bool.or_false, Bool.and_eq_true,
      Bool.not_eq_true', Bool.or_eq_false_iff, beq_eq_false_iff_ne] at h
    rw [List.cons_append, quotedBody, ih h.2]
    · rfl
    · exact fun hc => absurd hc hb
    · exact fun _ _ hc => absurd hc hb
    · exact h.1.1
    · exact h.1.2

theorem bracketBody_append {body : List Char} (h : Abstract.staysOpen [']'] body)
    (rest : List Char) : bracketBody (body ++ ']' :: rest) = ⟨body.length + 1, true⟩ := by
  fun_induction Abstract.staysOpen [']'] body with
  | case1 => rfl
  | case2 => cases h
  | case3 c cs ih =>
    show bracketBody ('\\' :: c :: (cs ++ ']' :: rest)) = _
    rw [bracketBody, ih h]
    rfl
  | case4 c cs h₁ h₂ ih =>
    have hb := ne_backslash h₁ h₂
    simp only [List.contains_cons, List.contains_nil, Bool.or_false, Bool.and_eq_true,
      Bool.not_eq_true', beq_eq_false_iff_ne] at h
    rw [List.cons_append, bracketBody, ih h.2]
    · rfl
    · exact fun hc => absurd hc hb
    · exact fun _ _ hc => absurd hc hb
    · exact h.1

end Piece

namespace Abstract
open Piece

/-- A lexeme is read up to its end, in any context, unless what follows carries it on. -/
def Lexeme.ReadBefore (l : Lexeme) (rest : List Char) : Prop :=
  ∃ c cs, l.text.toList = c :: cs ∧ isBlank c = false ∧
    ∀ context, Piece.read context c (cs ++ rest) = (.lexeme l.kind true, cs.length)

theorem Name.readBefore (n : Name) {rest : List Char}
    (hrest : ∀ c ∈ rest.head?, continuesName c = false) : (Lexeme.name n).ReadBefore rest := by
  have hvalid := n.valid
  rw [isName] at hvalid
  split at hvalid
  · cases hvalid
  · rename_i c cs htext
    rw [Bool.and_eq_true, List.all_eq_true] at hvalid
    obtain ⟨hfirst, hcs⟩ := hvalid
    have hblank : isBlank c = false := by
      by_contra hb
      rw [Bool.not_eq_false] at hb
      rw [isAlphabetic_of_isBlank hb, Bool.false_or, beq_iff_eq] at hfirst
      subst hfirst
      revert hb
      decide
    have hslash : c ≠ '/' := by
      rintro rfl
      revert hfirst
      decide +kernel
    refine ⟨c, cs, htext, hblank, fun context => ?_⟩
    have hkind : (Lexeme.name n).kind = if isUppercase c then .upperName else .lowerName := by
      simp [Lexeme.kind, Name.kind, htext]
    have hname : (isAlphabetic c || decide (c = '_')) = true := by
      simpa using hfirst
    simp only [Piece.read, hblank, hslash, hname, decide_false, Bool.false_and, Bool.false_eq_true,
      if_false, if_true, length_takeWhile_append hcs hrest, hkind]

/-- A character of the signs, quotes and brackets begins no blank, comment, name or number. -/
theorem read_eq_signed {c : Char} (hc : c ∈ "'[:;,()|=+?*~.-#".toList) :
    isBlank c = false ∧ ∀ context cs, Piece.read context c cs = signed context c cs := by
  have hall : "'[:;,()|=+?*~.-#".toList.all fun c => isBlank c = false ∧ c ≠ '/' ∧
      (isAlphabetic c || decide (c = '_')) = false ∧ c.isDigit = false := by
    decide +kernel
  obtain ⟨hblank, hslash, hname, hdigit⟩ := of_decide_eq_true (List.all_eq_true.1 hall c hc)
  refine ⟨hblank, fun context cs => ?_⟩
  simp only [Piece.read, hblank, hslash, hname, hdigit, decide_false, Bool.false_and,
    Bool.false_eq_true, if_false]

theorem Literal.readBefore (l : Literal) (rest : List Char) : (Lexeme.literal l).ReadBefore rest := by
  obtain ⟨hblank, hread⟩ := read_eq_signed (c := '\'') (by decide)
  refine ⟨'\'', l.body.toList ++ ['\''], by simp [Lexeme.text, Literal.text], hblank, fun context => ?_⟩
  rw [hread, List.append_assoc, List.singleton_append, List.length_append]
  show delimited .quoted (quotedBody _) = _
  rw [quotedBody_append l.closed]
  rfl

theorem CharSet.readBefore (s : CharSet) (rest : List Char) :
    (Lexeme.charSet s).ReadBefore rest := by
  obtain ⟨hblank, hread⟩ := read_eq_signed (c := '[') (by decide)
  refine ⟨'[', s.body.toList ++ [']'], by simp [Lexeme.text, CharSet.text], hblank, fun context => ?_⟩
  rw [hread, List.append_assoc, List.singleton_append, List.length_append]
  show delimited .bracket (bracketBody _) = _
  rw [bracketBody_append s.closed]
  rfl

/-- A sign that no single character carries on, or that nothing does. -/
theorem Sign.readBefore (s : Sign) {rest : List Char}
    (hrest : ∀ c ∈ rest.head?, (Lexeme.sign s).carriesOn c = false) :
    (Lexeme.sign s).ReadBefore rest := by
  have hhead {d : Char} (h : ∀ c ∈ rest.head?, (c == d) = false) : rest.head? ≠ some d :=
    fun hd => by simpa using h d hd
  cases s with
  | colon =>
    obtain ⟨hblank, hread⟩ := read_eq_signed (c := ':') (by decide)
    exact ⟨':', [], rfl, hblank, fun context => (hread _ _).trans (if_neg (hhead hrest))⟩
  | plus =>
    obtain ⟨hblank, hread⟩ := read_eq_signed (c := '+') (by decide)
    exact ⟨'+', [], rfl, hblank, fun context => (hread _ _).trans (if_neg (hhead hrest))⟩
  | dot =>
    obtain ⟨hblank, hread⟩ := read_eq_signed (c := '.') (by decide)
    exact ⟨'.', [], rfl, hblank, fun context => (hread _ _).trans (if_neg (hhead hrest))⟩
  | _ =>
    refine ⟨_, _, rfl, (read_eq_signed (by decide)).1, fun context => ?_⟩
    exact (read_eq_signed (by decide)).2 context _

theorem Lexeme.readBefore (l : Lexeme) {rest : List Char}
    (hrest : ∀ c ∈ rest.head?, l.carriesOn c = false) : l.ReadBefore rest := by
  cases l with
  | name n => exact n.readBefore hrest
  | literal l => exact l.readBefore rest
  | charSet s => exact s.readBefore rest
  | sign s => exact s.readBefore hrest

/-- Wherever it stands, `cs` is cut into the lexemes and faultless pieces. -/
def Lexes (cs : List Char) (ls : List Lexeme) : Prop :=
  ∀ lines lead turns context start, cs.length ≤ turns →
    List.Forall₂ Token.Shows (TokenStream.gather lines lead (cutFrom turns context start cs)).tokens
      ls ∧
    (cutFrom turns context start cs).filterMap (fault? lines) = []

theorem lexes_nil : Lexes [] [] := by
  intro lines lead turns context start _
  cases turns <;> simp [cutFrom, TokenStream.gather]

theorem length_drop_le {turns : Nat} {c : Char} {cs : List Char} (more : Nat)
    (h : (c :: cs).length ≤ turns + 1) : (cs.drop more).length ≤ turns := by
  rw [List.length_cons] at h
  rw [List.length_drop]
  omega

section
variable {c : Char} {cs : List Char} {ls : List Lexeme}

theorem Lexes.skip {form : Form} (more : Nat) (hform : form = .blank ∨ form = .comment true)
    (hread : ∀ context, Piece.read context c cs = (form, more)) (h : Lexes (cs.drop more) ls) :
    Lexes (c :: cs) ls := by
  intro lines lead turns context start hturns
  cases turns with
  | zero => simp at hturns
  | succ turns =>
    simp only [cutFrom, hread]
    have hrest := length_drop_le more hturns
    rcases hform with rfl | rfl
    · simpa [TokenStream.gather, fault?, cause?] using h lines _ turns _ _ hrest
    · simpa [TokenStream.gather, fault?, cause?] using h lines _ turns _ _ hrest

theorem Lexes.token {l : Lexeme} {more : Nat} (htext : l.text.toList = c :: cs.take more)
    (hread : ∀ context, Piece.read context c cs = (.lexeme l.kind true, more))
    (h : Lexes (cs.drop more) ls) : Lexes (c :: cs) (l :: ls) := by
  intro lines lead turns context start hturns
  cases turns with
  | zero => simp at hturns
  | succ turns =>
    simp only [cutFrom, hread]
    obtain ⟨htokens, hfaults⟩ := h lines [] turns
      (context.after (c :: cs.take more) (.lexeme l.kind true))
      (start + byteLength (c :: cs.take more)) (length_drop_le more hturns)
    refine ⟨.cons ⟨rfl, ?_⟩ htokens, ?_⟩
    · show String.ofList _ = _
      rw [← htext, String.ofList_toList]
    · simpa [fault?, cause?] using hfaults

theorem Lexes.of_dropWhile (h : Lexes (cs.dropWhile isBlank) ls) : Lexes cs ls := by
  cases cs with
  | nil => exact h
  | cons c cs =>
    by_cases hc : isBlank c
    · refine Lexes.skip _ (.inl rfl) (fun context => by rw [Piece.read, if_pos hc]) ?_
      rw [List.dropWhile_cons_of_pos hc] at h
      have hdrop : (cs.takeWhile isBlank ++ cs.dropWhile isBlank).drop (cs.takeWhile isBlank).length =
          cs.dropWhile isBlank := List.drop_left
      rw [List.takeWhile_append_dropWhile] at hdrop
      rwa [hdrop]
    · rwa [List.dropWhile_cons_of_neg hc] at h

end

theorem dropWhile_slash (cs : List Char) : ('/' :: cs).dropWhile isBlank = '/' :: cs :=
  List.dropWhile_cons_of_neg (by decide)

theorem lexes_lineComment {body rest : List Char} {ls : List Lexeme} (hb : '\n' ∉ body)
    (hrest : ∀ c ∈ rest.head?, c = '\n') (h : Lexes rest ls) : Lexes ('/' :: '/' :: (body ++ rest)) ls := by
  have hbody : ∀ c ∈ '/' :: body, (c != '\n') := by
    intro c hc
    rw [bne_iff_ne]
    rintro rfl
    rcases List.mem_cons.1 hc with h | h
    · revert h
      decide
    · exact hb h
  have hstop : ∀ c ∈ rest.head?, (c != '\n') = false := fun c hc => by simp [hrest c hc]
  refine Lexes.skip ('/' :: body).length (.inr rfl) (fun context => ?_) ?_
  · rw [Piece.read, if_neg (by decide), if_pos (by simp), ← List.cons_append,
      length_takeWhile_append hbody hstop]
  · rwa [← List.cons_append, List.drop_left]

theorem lexes_blockComment {body rest : List Char} {ls : List Lexeme}
    (hb : ¬ ['*', '/'] <:+: body ++ ['*']) (h : Lexes rest ls) :
    Lexes ('/' :: '*' :: (body ++ '*' :: '/' :: rest)) ls := by
  refine Lexes.skip (body.length + 3) (.inr rfl) (fun context => ?_) ?_
  · rw [Piece.read, if_neg (by decide), if_neg (by simp), if_pos (by simp), List.tail_cons,
      commentBody_append hb]
    rfl
  · have hsplit : '*' :: (body ++ '*' :: '/' :: rest) = ('*' :: body ++ ['*', '/']) ++ rest := by simp
    rwa [hsplit, List.drop_left']
    simp

theorem Gap.lexes {gap rest : List Char} {ls : List Lexeme} (hg : Gap gap)
    (h : Lexes (rest.dropWhile isBlank) ls) : Lexes ((gap ++ rest).dropWhile isBlank) ls := by
  induction hg with
  | nil => exact h
  | blank hc _ ih => rwa [List.cons_append, List.dropWhile_cons_of_pos hc]
  | line hb _ ih =>
    rw [List.cons_append, List.cons_append, List.append_assoc, dropWhile_slash]
    refine lexes_lineComment hb (by simp) (Lexes.of_dropWhile ?_)
    rwa [List.cons_append, List.dropWhile_cons_of_pos (by decide)]
  | block hb _ ih =>
    rw [List.cons_append, List.cons_append, List.append_assoc, dropWhile_slash]
    exact lexes_blockComment hb (Lexes.of_dropWhile ih)

theorem Spells.lexes {ls : List Lexeme} {cs : List Char} (h : Spells ls cs) :
    Lexes (cs.dropWhile isBlank) ls := by
  induction h with
  | finish hg =>
    have := hg.lexes (show Lexes (List.dropWhile isBlank []) [] from lexes_nil)
    rwa [List.append_nil] at this
  | @comment gap body hg hb =>
    refine hg.lexes ?_
    rw [dropWhile_slash]
    have := lexes_lineComment hb (by simp) lexes_nil
    rwa [List.append_nil] at this
  | @lexeme gap rest l ls hg hl _ ih =>
    obtain ⟨c, cs, htext, hblank, hread⟩ := l.readBefore hl
    refine hg.lexes ?_
    rw [htext, List.cons_append, List.dropWhile_cons_of_neg (by simp [hblank])]
    refine Lexes.token (by simpa using htext) hread ?_
    rw [List.drop_left]
    exact ih.of_dropWhile

/-- A text that spells lexemes has them for tokens, and no piece of it is at fault. -/
theorem Spells.ofChars {ls : List Lexeme} {cs : List Char} (h : Spells ls cs) :
    List.Forall₂ Token.Shows (TokenStream.ofChars cs).1.tokens ls ∧
      (TokenStream.ofChars cs).2 = [] :=
  h.lexes.of_dropWhile (.ofChars cs) [] cs.length {} 0 le_rfl

end Abstract

end GrammarAtlas
