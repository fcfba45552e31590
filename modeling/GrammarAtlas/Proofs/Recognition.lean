import GrammarAtlas.Proofs.Reading
import GrammarAtlas.Proofs.Spelling
import GrammarAtlas.Tree.Rule
import Mathlib.Data.List.Chain

/-! # Bodies of rules are recognised

`Reads p ls rest P` says that `p` reads the lexemes `ls` where `rest` follows, reports nothing, and
its result satisfies `P`. There is a lemma for each production of the body of a rule, and each states
what must not follow. Blocks and negations lead further in: `Nested.Ready` is what they can do with
some levels left, and `Nested.ready_within` goes by induction on the levels. -/

namespace GrammarAtlas

namespace Token.Kind

/-- The kinds of tokens with which an element of an abstract grammar begins. -/
def beginsElement : Kind → Bool
  | upperName | lowerName | quoted | bracket | dot | tilde | openParen => true
  | _ => false

/-- The kinds of tokens that may stand behind the last element. -/
def endsElements : Kind → Bool
  | bar | closeParen | semicolon | hash | arrow => true
  | _ => false

/-- The kinds of tokens with which no abstract grammar is written. -/
def isForeign : Kind → Bool
  | integer | action | angle | openBrace | closeBrace | doubleColon | atSign => true
  | _ => false

end Token.Kind

namespace Abstract

def kindAt (ls : List Lexeme) (n : Nat) : Token.Kind :=
  match ls[n]? with
  | some l => l.kind
  | none => .finish

@[simp] theorem kindAt_cons_zero (l : Lexeme) (ls : List Lexeme) : kindAt (l :: ls) 0 = l.kind := rfl

@[simp] theorem kindAt_cons_succ (l : Lexeme) (ls : List Lexeme) (n : Nat) :
    kindAt (l :: ls) (n + 1) = kindAt ls n := rfl

def Lexeme.isWord (l : Lexeme) (w : String) : Bool := l.kind == .lowerName && l.text == w

def isWordAt (ls : List Lexeme) (n : Nat) (w : String) : Bool :=
  match ls[n]? with
  | some l => l.isWord w
  | none => false

theorem Name.kind_eq (n : Name) : n.kind = .upperName ∨ n.kind = .lowerName := by
  unfold Name.kind
  split
  · exact .inl rfl
  · exact .inr rfl

theorem Name.isName_kind (n : Name) : n.kind.isName := by
  rcases n.kind_eq with h | h
  · rw [h]; rfl
  · rw [h]; rfl

theorem Name.kind_ne (n : Name) {k : Token.Kind} (hk : k.isName = false) : n.kind ≠ k := by
  rintro rfl
  rw [n.isName_kind] at hk
  cases hk

theorem Name.beginsElement_kind (n : Name) : n.kind.beginsElement := by
  rcases n.kind_eq with h | h
  · rw [h]; rfl
  · rw [h]; rfl

theorem Lexeme.not_isForeign (l : Lexeme) : l.kind.isForeign = false := by
  cases l with
  | name n =>
    show n.kind.isForeign = false
    rcases n.kind_eq with h | h
    · rw [h]; rfl
    · rw [h]; rfl
  | literal | charSet => rfl
  | sign s => cases s <;> rfl

theorem kindAt_ne_of_isForeign (ls : List Lexeme) (n : Nat) {k : Token.Kind} (hk : k.isForeign) :
    kindAt ls n ≠ k := by
  rintro rfl
  unfold kindAt at hk
  split at hk
  · rename_i l _
    rw [l.not_isForeign] at hk
    cases hk
  · cases hk

/-- The lexeme is no keyword. -/
def Lexeme.Plain (l : Lexeme) : Prop := l.kind.isName → l.text ∉ keywords

theorem Lexeme.isName_elim {l : Lexeme} {p : Prop} (hl : l.kind.isName = false)
    (h : l.kind.isName) : p := by
  rw [hl] at h
  cases h

theorem Word.plain (w : Word) : (Lexeme.name w.toName).Plain := fun _ => w.free

/-- What may stand behind an element: another one, or the end of the elements. -/
def Behind (ls : List Lexeme) : Prop :=
  ∃ l ms, ls = l :: ms ∧ (l.kind.beginsElement || l.kind.endsElements)

theorem Behind.kindAt_ne {ls : List Lexeme} (h : Behind ls) {k : Token.Kind}
    (hk : (k.beginsElement || k.endsElements) = false) : kindAt ls 0 ≠ k := by
  obtain ⟨l, ms, rfl, hl⟩ := h
  rintro rfl
  rw [kindAt_cons_zero, hl] at hk
  cases hk

/-- How a term begins. -/
theorem Term.exists_lexeme (t : Term) : ∃ l ls, t.lexemes = l :: ls ∧ l.Plain ∧
    l.kind.beginsElement ∧ (l.kind = .openParen ↔ t.isBlock) ∧ (l.kind.isName → ls = []) := by
  have hother {l : Lexeme} {ls : List Lexeme} (hls : t.lexemes = l :: ls) (hl : l.kind.isName = false)
      (hbegins : l.kind.beginsElement) (hparen : l.kind = .openParen ↔ t.isBlock) :
      ∃ l ls, t.lexemes = l :: ls ∧ l.Plain ∧ l.kind.beginsElement ∧
        (l.kind = .openParen ↔ t.isBlock) ∧ (l.kind.isName → ls = []) :=
    ⟨l, ls, hls, Lexeme.isName_elim hl, hbegins, hparen, Lexeme.isName_elim hl⟩
  cases t with
  | name w =>
    refine ⟨_, _, rfl, w.plain, w.beginsElement_kind, ?_, fun _ => rfl⟩
    exact iff_of_false (w.kind_ne rfl) Bool.false_ne_true
  | literal | range | charSet | wildcard | negated =>
    exact hother rfl rfl rfl (iff_of_false nofun nofun)
  | block => exact hother rfl rfl rfl (iff_of_true rfl rfl)

theorem Behind.kindAt_suffix_ne {rest : List Lexeme} (h : Behind rest) (suffix? : Option Suffix)
    {k : Token.Kind} (hk : (k.beginsElement || k.endsElements) = false)
    (hs : k ∉ [.question, .star, .plus]) : kindAt (Suffix.lexemes suffix? ++ rest) 0 ≠ k := by
  cases suffix? with
  | none => exact h.kindAt_ne hk
  | some s =>
    rintro rfl
    obtain ⟨repetition, greedy⟩ := s
    refine hs ?_
    cases repetition <;> simp [Suffix.lexemes, Suffix.sign, Lexeme.kind, Sign.kind]

theorem Term.depth_pos_of_isBlock {t : Term} (h : t.isBlock) : 0 < t.depth := by
  cases t with
  | block first rest =>
    rw [Term.depth]
    omega
  | _ => cases h

theorem Term.depth_negated_pos (t : Term) : 0 < (Term.negated t).depth := by
  rw [Term.depth]
  split
  · rename_i hb
    exact depth_pos_of_isBlock hb
  · omega

theorem Element.lexemes_ne_nil (e : Element) : e.lexemes ≠ [] := by
  obtain ⟨suffix?, label?, t⟩ := e
  obtain ⟨l, ls, hls, -⟩ := t.exists_lexeme
  show Label.lexemes label? ++ (t.lexemes ++ _) ≠ []
  simp [hls]

/-- How an element begins. A colon behind its first word would make a rule of it. -/
theorem Element.exists_lexeme (e : Element) {ls : List Lexeme} (hls : Behind ls) :
    ∃ l ms, e.lexemes ++ ls = l :: ms ∧ l.Plain ∧ l.kind.beginsElement ∧
      (l.kind.isName → kindAt ms 0 ≠ .colon) := by
  obtain ⟨suffix?, label?, t⟩ := e
  cases label? with
  | some l =>
    refine ⟨_, _, rfl, l.word.plain, l.word.beginsElement_kind, fun _ => ?_⟩
    show (Lexeme.sign _).kind ≠ _
    cases l.additive <;> simp [Lexeme.kind, Sign.kind]
  | none =>
    obtain ⟨l, ms, hms, hplain, hbegins, -, hword⟩ := t.exists_lexeme
    refine ⟨l, ms ++ (Suffix.lexemes suffix? ++ ls), ?_, hplain, hbegins, fun hname => ?_⟩
    · show t.lexemes ++ Suffix.lexemes suffix? ++ ls = _
      rw [hms, List.append_assoc]
      rfl
    · rw [hword hname, List.nil_append]
      exact hls.kindAt_suffix_ne suffix? rfl (by decide)

/-- What may stand behind an alternative. -/
def Closing (ls : List Lexeme) : Prop :=
  ∃ l ms, ls = l :: ms ∧ l.kind ∈ [.bar, .closeParen, .semicolon]

theorem Closing.kindAt_ne {ls : List Lexeme} (h : Closing ls) {k : Token.Kind}
    (hk : k ∉ [.bar, .closeParen, .semicolon]) : kindAt ls 0 ≠ k := by
  obtain ⟨l, ms, rfl, hl⟩ := h
  rintro rfl
  exact hk hl

theorem Closing.kindAt_commands_ne {rest : List Lexeme} (h : Closing rest) (commands : List Command)
    {k : Token.Kind} (hk : k ∉ [.bar, .closeParen, .semicolon, .arrow]) :
    kindAt (Command.lexemesAll commands ++ rest) 0 ≠ k := by
  cases commands with
  | nil => exact h.kindAt_ne (by simp_all)
  | cons d ds =>
    show Token.Kind.arrow ≠ k
    rintro rfl
    simp at hk

/-- What stands behind the elements of an alternative ends them. -/
theorem Closing.exists_lexeme {rest : List Lexeme} (h : Closing rest) (label? : Option Word)
    (commands : List Command) :
    ∃ l ms, Alternative.labelLexemes label? ++ (Command.lexemesAll commands ++ rest) = l :: ms ∧
      l.kind.endsElements := by
  cases label? with
  | some label => exact ⟨_, _, rfl, rfl⟩
  | none =>
    cases commands with
    | cons d ds => exact ⟨_, _, rfl, rfl⟩
    | nil =>
      obtain ⟨l, ms, rfl, hl⟩ := h
      refine ⟨l, ms, rfl, ?_⟩
      cases hk : l.kind <;> simp_all [Token.Kind.endsElements]

end Abstract

open Abstract

theorem Token.Shows.isWord {t : Token} {l : Lexeme} (ht : t.Shows l) (w : String) :
    t.isWord w = l.isWord w := by
  rw [Token.isWord, Lexeme.isWord, ht.kind, ht.text]

theorem Token.Shows.outline_identifier {t : Token} {n : Name} (ht : t.Shows (.name n)) :
    (ParseM.identifier t).outline = n.outline := by
  simp [ParseM.identifier, Node.leaf, Name.outline, ht.text, Lexeme.text]

theorem Token.Shows.outline_literal {t : Token} {l : Literal} (ht : t.Shows (.literal l)) :
    (ParseM.literal t).outline = l.outline := by
  simp [ParseM.literal, Node.leaf, Literal.outline, ht.text, Lexeme.text]

/-- The tokens ahead are the lexemes, and nothing was reported yet. -/
structure Cursor.Shows (c : Cursor) (ls : List Lexeme) : Prop where
  ahead : List.Forall₂ Token.Shows c.ahead ls
  clean : c.faults = []
  apart : ls.IsChain Lexeme.Apart

namespace Cursor.Shows
open ParseM Lookahead
variable {c : Cursor} {l : Lexeme} {ls : List Lexeme}

theorem kindAt (h : c.Shows ls) (n : Nat) : Lookahead.kindAt c.ahead n = Abstract.kindAt ls n := by
  have hahead := h.ahead
  clear h
  generalize c.ahead = ts at hahead
  induction hahead generalizing n with
  | nil => rfl
  | cons ht _ ih =>
    cases n with
    | zero => exact ht.kind
    | succ n => exact ih n

theorem exists_token (h : c.Shows (l :: ls)) :
    ∃ t ts, t.Shows l ∧ c.ahead = t :: ts ∧ List.Forall₂ Token.Shows ts ls := by
  obtain ⟨t, ts, ht, hts, ha⟩ := List.forall₂_cons_right_iff.1 h.ahead
  exact ⟨t, ts, ht, ha, hts⟩

theorem peek (h : c.Shows (l :: ls)) : c.peek.Shows l := by
  obtain ⟨t, ts, ht, ha, -⟩ := h.exists_token
  rwa [peek_of_ahead ha]

theorem isWordAt (h : c.Shows ls) (n : Nat) (w : String) :
    Lookahead.isWordAt c.ahead n w = Abstract.isWordAt ls n w := by
  have hahead := h.ahead
  clear h
  generalize c.ahead = ts at hahead
  induction hahead generalizing n with
  | nil => rfl
  | cons ht _ ih =>
    cases n with
    | zero => exact ht.isWord w
    | succ n => exact ih n

theorem not_startsBlock (h : c.Shows ls) (w : String) : startsBlock c.ahead w = false := by
  have := kindAt_ne_of_isForeign ls 1 (k := .openBrace) rfl
  rw [startsBlock, h.kindAt, beq_false_of_ne this, Bool.and_false]

theorem not_isWord_of_plain {t : Token} (ht : t.Shows l) (hl : l.Plain) {w : String}
    (hw : w ∈ keywords) : t.isWord w = false := by
  rw [ht.isWord, Lexeme.isWord, Bool.and_eq_false_imp]
  intro hk
  have hname : l.kind.isName := by rw [beq_iff_eq.1 hk]; rfl
  rw [beq_eq_false_iff_ne]
  rintro rfl
  exact hl hname hw

/-- No rule begins with a lexeme that is no keyword, unless a colon follows it. -/
theorem not_startsRule (h : c.Shows (l :: ls)) (hl : l.Plain)
    (hcolon : l.kind.isName → Abstract.kindAt ls 0 ≠ .colon) : startsRule c.ahead = false := by
  obtain ⟨t, ts, ht, ha, hts⟩ := h.exists_token
  have hmode : startsMode c.ahead = false := by
    have : Lookahead.isWordAt c.ahead 0 "mode" = false := by
      rw [ha]
      exact not_isWord_of_plain ht hl (by decide)
    rw [startsMode, this, Bool.false_and]
  have hmodifier : isModifier t = false := by
    rw [isModifier, List.any_eq_false]
    intro w hw
    rw [not_isWord_of_plain ht hl (List.mem_append_left _ (List.mem_append_left _ hw))]
    exact Bool.false_ne_true
  have hnamed : startsNamedRule c.ahead = false := by
    rw [ha]
    cases hts with
    | nil => rfl
    | @cons u m _ _ hu _ =>
      have hbare : (t.isName && u.kind == .colon) = false := by
        rw [Bool.and_eq_false_imp, Token.isName, ht.kind, hu.kind]
        exact fun hname => beq_false_of_ne (hcolon hname)
      rw [startsNamedRule, hmodifier, Bool.false_and, hbare]
      rfl
  rw [startsRule, hmode, hnamed]
  rfl

end Cursor.Shows

/-! ## Steps of the parser -/

namespace ParseM
open Lookahead
variable {α β : Type} {p : ParseM α} {c : Cursor} {l : Lexeme} {ls rest : List Lexeme}

/-- `p` reads `ls` where `rest` follows, and its result satisfies `P`. -/
def Reads (p : ParseM α) (ls rest : List Lexeme) (P : α → Prop) : Prop :=
  ∀ c : Cursor, c.Shows (ls ++ rest) → wp p (fun a c' => P a ∧ c'.Shows rest) c

/-- `p` reads `ls` where `rest` follows, and makes a node of it. -/
def Yields (p : ParseM Node) (ls rest : List Lexeme) (n : Node) : Prop :=
  Reads p ls rest fun m => m.outline = n

theorem Reads.on {P : α → Prop} {Q : α → Cursor → Prop} (hp : Reads p ls rest P)
    (h : c.Shows (ls ++ rest)) (hQ : ∀ a c', P a → c'.Shows rest → Q a c') : wp p Q c :=
  wp_mono (hp c h) fun a c' h => hQ a c' h.1 h.2

theorem advance_shown {Q : Token → Cursor → Prop} (h : c.Shows (l :: ls))
    (hQ : ∀ t c', t.Shows l → c'.Shows ls → Q t c') : wp advance Q c := by
  obtain ⟨t, ts, ht, ha, hts⟩ := h.exists_token
  exact wp_advance_of_ahead ha (hQ t _ ht ⟨hts, h.clean, h.apart.tail⟩)

theorem accept_shown {Q : Option Token → Cursor → Prop} {kind : Token.Kind} (h : c.Shows (l :: ls))
    (hk : l.kind = kind) (hQ : ∀ t c', t.Shows l → c'.Shows ls → Q (some t) c') :
    wp (accept kind) Q c := by
  unfold accept
  simp only [wp_bind, wp_seesKind, wp_ite, wp_pure]
  rw [h.kindAt, kindAt_cons_zero, if_pos (beq_iff_eq.2 hk)]
  exact advance_shown h hQ

theorem accept_other {Q : Option Token → Cursor → Prop} {kind : Token.Kind} (h : c.Shows ls)
    (hk : Abstract.kindAt ls 0 ≠ kind) (hQ : Q none c) : wp (accept kind) Q c := by
  unfold accept
  simp only [wp_bind, wp_seesKind, wp_ite, wp_pure]
  rwa [h.kindAt, if_neg (by simpa using hk)]

theorem expect_shown {Q : Option Token → Cursor → Prop} {kind : Token.Kind} (h : c.Shows (l :: ls))
    (hk : l.kind = kind) (hQ : ∀ t c', t.Shows l → c'.Shows ls → Q (some t) c') :
    wp (expect kind) Q c := by
  unfold expect
  simp only [wp_bind, wp_ite, wp_pure]
  refine accept_shown h hk fun t c' ht h' => ?_
  rw [if_neg (by simp)]
  exact hQ t c' ht h'

theorem wp_gather {turn : ParseM (Option Node × Bool)} {Q : List Node → Cursor → Prop} :
    wp (gather turn) Q c ↔ wp (collect turn (c.ahead.length + 1)) Q c := Iff.rfl

/-- The lexemes are a series of items up to `rest`: at each the loop goes on, and `p` makes a node of
it; at `rest` the loop stops. -/
inductive Series (condition : List Token → Bool) (p : ParseM Node) (rest : List Lexeme) :
    List Lexeme → List Node → Prop
  | nil (hstop : ∀ c : Cursor, c.Shows rest → condition c.ahead = false) :
    Series condition p rest rest []
  | cons {ls more : List Lexeme} {n : Node} {ns : List Node} (hne : ls ≠ [])
    (hseen : ∀ c : Cursor, c.Shows (ls ++ more) → condition c.ahead) (hread : Yields p ls more n)
    (h : Series condition p rest more ns) : Series condition p rest (ls ++ more) (n :: ns)

namespace Series
variable {condition : List Token → Bool} {p : ParseM Node} {ns : List Node}

theorem length_le (h : Series condition p rest ls ns) : ns.length ≤ ls.length := by
  induction h with
  | nil => simp
  | cons hne _ _ _ ih =>
    have := List.length_pos_iff.2 hne
    rw [List.length_cons, List.length_append]
    omega

theorem gatherWhile_shown (h : Series condition p rest ls ns) (hc : c.Shows ls) :
    wp (gatherWhile condition p) (fun ms c' => ms.map Node.outline = ns ∧ c'.Shows rest) c := by
  have hturns : ns.length < c.ahead.length + 1 := by
    have := h.length_le
    rw [hc.ahead.length_eq]
    omega
  rw [gatherWhile, wp_gather]
  generalize c.ahead.length + 1 = turns at hturns
  induction h generalizing c turns with
  | nil hstop =>
    obtain ⟨turns, rfl⟩ : ∃ n, turns = n + 1 := Nat.exists_eq_add_one.2 hturns
    unfold collect
    simp only [wp_bind, wp_sees, wp_ite, wp_pure]
    rw [hstop c hc, if_neg Bool.false_ne_true]
    exact ⟨rfl, hc⟩
  | @cons ls more n ns _ hseen hread _ ih =>
    rw [List.length_cons] at hturns
    obtain ⟨turns, rfl⟩ : ∃ n, turns = n + 1 := Nat.exists_eq_add_one.2 (by omega)
    unfold collect
    simp only [wp_bind, wp_sees, wp_ite, wp_pure]
    rw [hseen c hc, if_pos rfl]
    refine hread.on hc fun m c₁ hm h₁ => ?_
    rw [if_pos trivial]
    refine wp_mono (ih h₁ turns (by omega)) fun ms c₂ h₂ => ⟨?_, h₂.2⟩
    rw [Option.toList_some, List.singleton_append, List.map_cons, hm, h₂.1]

end Series

section
variable {ι : Type} (lexemes : ι → List Lexeme) (outline : ι → Node)

/-- A loop over items with the sign `sep` between them. -/
theorem reads_gather (sep : Sign) {turn : ParseM (Option Node × Bool)} {first : ι} {items : List ι}
    (hmore : ∀ i ∈ first :: items, ∀ ls, Reads turn (lexemes i ++ [.sign sep]) ls
      fun r => r.1.map Node.outline = some (outline i) ∧ r.2 = true)
    (hlast : ∀ i ∈ first :: items, Reads turn (lexemes i) rest
      fun r => r.1.map Node.outline = some (outline i) ∧ r.2 = false) :
    Reads (gather turn) (lexemes first ++ items.flatMap (.sign sep :: lexemes ·)) rest
      fun ns => ns.map Node.outline = (first :: items).map outline := by
  intro c h
  have hturns : items.length < c.ahead.length + 1 := by
    have hle : items.length ≤ (items.flatMap (Lexeme.sign sep :: lexemes ·)).length := by
      clear hmore hlast h
      induction items with
      | nil => simp
      | cons i items ih =>
        simp only [List.flatMap_cons, List.length_cons, List.length_append]
        omega
    rw [h.ahead.length_eq, List.length_append, List.length_append]
    omega
  rw [wp_gather]
  generalize c.ahead.length + 1 = turns at hturns
  induction items generalizing first c turns with
  | nil =>
    obtain ⟨turns, rfl⟩ : ∃ n, turns = n + 1 := Nat.exists_eq_add_one.2 hturns
    unfold collect
    simp only [wp_bind, wp_ite, wp_pure]
    rw [List.flatMap_nil, List.append_nil] at h
    refine (hlast first (.head _)).on h fun r c₁ hr h₁ => ?_
    obtain ⟨node?, more⟩ := r
    obtain ⟨hnode, rfl⟩ := hr
    obtain ⟨n, rfl, hn⟩ := Option.map_eq_some_iff.1 hnode
    simp only [Bool.false_eq_true, if_false]
    exact ⟨by simp [hn], h₁⟩
  | cons i items ih =>
    obtain ⟨turns, rfl⟩ : ∃ n, turns = n + 1 := Nat.exists_eq_add_one.2 (by omega)
    have hsplit : lexemes first ++ (i :: items).flatMap (.sign sep :: lexemes ·) ++ rest =
        lexemes first ++ [.sign sep] ++
          (lexemes i ++ items.flatMap (.sign sep :: lexemes ·) ++ rest) := by simp
    rw [hsplit] at h
    rw [List.length_cons] at hturns
    unfold collect
    simp only [wp_bind, wp_ite, wp_pure]
    refine (hmore first (.head _) _).on h fun r c₁ hr h₁ => ?_
    obtain ⟨node?, more⟩ := r
    obtain ⟨hnode, rfl⟩ := hr
    obtain ⟨n, rfl, hn⟩ := Option.map_eq_some_iff.1 hnode
    simp only [if_true]
    refine wp_mono (ih (fun j hj => hmore j (.tail _ hj)) (fun j hj => hlast j (.tail _ hj)) c₁ h₁
      turns (by omega)) fun ns c₂ h₂ => ⟨?_, h₂.2⟩
    rw [Option.toList_some, List.singleton_append, List.map_cons, hn, h₂.1]
    rfl

end

/-! ## Elements -/

theorem command_shown {name : Token} {d : Command} (hn : name.Shows (.name d.name))
    (h : c.Shows (d.lexemes ++ rest)) (hrest : Abstract.kindAt rest 0 ≠ .openParen) :
    wp (command name) (fun n c' => n.outline = d.outline ∧ c'.Shows rest) c := by
  obtain ⟨dname, argument?⟩ := d
  unfold command
  simp -zeta only [wp_bind]
  refine advance_shown h fun _ c₁ _ h₁ => ?_
  extract_lets arguments close argued
  cases argument? with
  | none =>
    simp only [wp_bind, wp_ite]
    refine accept_other h₁ hrest ?_
    rw [if_neg (by simp)]
    simp only [close, wp_close]
    refine ⟨?_, h₁⟩
    simp [arguments, Command.outline, hn.text, Lexeme.text]
  | some argument =>
    simp only [wp_bind, wp_ite, wp_peek]
    refine accept_shown h₁ rfl fun _ c₂ _ h₂ => ?_
    have hpeek := h₂.peek
    rw [if_pos (by simp), if_pos (by rw [Token.isName, hpeek.kind]; exact argument.isName_kind)]
    refine advance_shown h₂ fun _ c₃ _ h₃ => ?_
    simp only [argued, close, wp_bind, wp_close]
    refine expect_shown h₃ rfl fun _ c₄ _ h₄ => ⟨?_, h₄⟩
    simp [Command.outline, hn.text, Lexeme.text, hpeek.outline_identifier]

section
variable {p : ParseM Node} {n : Node} (sep : Sign)

/-- A turn that finds a sign behind its item says that another one follows. -/
theorem turn_more (hp : wp p (fun m c' => m.outline = n ∧ c'.Shows (.sign sep :: rest)) c) :
    wp (do let node ← p; return (some node, (← accept sep.kind).isSome))
      (fun r c' => (r.1.map Node.outline = some n ∧ r.2 = true) ∧ c'.Shows rest) c := by
  simp only [wp_bind, wp_pure]
  refine wp_mono hp fun m c₁ h => ?_
  exact accept_shown h.2 rfl fun t c₂ _ h₂ => ⟨⟨by simp [h.1], rfl⟩, h₂⟩

theorem turn_last (hp : wp p (fun m c' => m.outline = n ∧ c'.Shows rest) c)
    (hsep : Abstract.kindAt rest 0 ≠ sep.kind) :
    wp (do let node ← p; return (some node, (← accept sep.kind).isSome))
      (fun r c' => (r.1.map Node.outline = some n ∧ r.2 = false) ∧ c'.Shows rest) c := by
  simp only [wp_bind, wp_pure]
  refine wp_mono hp fun m c₁ h => ?_
  exact accept_other h.2 hsep ⟨⟨by simp [h.1], rfl⟩, h.2⟩

end

theorem yields_commands (d : Command) (ds : List Command)
    (hparen : Abstract.kindAt rest 0 ≠ .openParen) (hcomma : Abstract.kindAt rest 0 ≠ .comma) :
    Yields commands (Command.lexemesAll (d :: ds)) rest
      (.bare .commands ((d :: ds).map Command.outline)) := by
  intro c h
  unfold commands
  simp only [wp_bind, wp_close]
  refine advance_shown h fun _ c₁ _ h₁ => ?_
  have hname (e : Command) (ls : List Lexeme) (c : Cursor) (h : c.Shows (e.lexemes ++ ls)) :
      c.peek.Shows (.name e.name) ∧ c.peek.isName := by
    have hpeek : c.peek.Shows (.name e.name) := h.peek
    exact ⟨hpeek, by rw [Token.isName, hpeek.kind]; exact e.name.isName_kind⟩
  refine (reads_gather Command.lexemes Command.outline .comma ?more ?last).on h₁ ?close
  case more =>
    intro e _ ls c h
    rw [List.append_assoc] at h
    obtain ⟨hpeek, hisName⟩ := hname e _ c h
    rw [wp_bind, wp_peek, if_pos hisName]
    exact turn_more .comma (command_shown hpeek h (by simp [Lexeme.kind, Sign.kind]))
  case last =>
    intro e _ c h
    obtain ⟨hpeek, hisName⟩ := hname e _ c h
    rw [wp_bind, wp_peek, if_pos hisName]
    exact turn_last .comma (command_shown hpeek h hparen) hcomma
  case close =>
    intro ns c₂ hns h₂
    exact ⟨by rw [Node.outline_mk, hns], h₂⟩

theorem repeated_shown {suffix? : Option Suffix} {e : Node} (start : Mark)
    (h : c.Shows (Suffix.lexemes suffix? ++ rest)) (hrest : Behind rest) :
    wp (repeated start e) (fun n c' => n.outline = Suffix.outline suffix? e.outline ∧ c'.Shows rest)
      c := by
  unfold repeated
  simp only [wp_bind, wp_peek]
  cases suffix? with
  | none =>
    have hkind : c.peek.kind = Abstract.kindAt rest 0 := by
      obtain ⟨l, ms, rfl, -⟩ := hrest
      exact h.peek.kind
    have h₁ := hrest.kindAt_ne (k := .question) rfl
    have h₂ := hrest.kindAt_ne (k := .star) rfl
    have h₃ := hrest.kindAt_ne (k := .plus) rfl
    rw [← hkind] at h₁ h₂ h₃
    split
    · exact ⟨rfl, h⟩
    · rename_i hsome
      split at hsome <;> simp_all
  | some s =>
    have hpeek : c.peek.kind = s.sign.kind := h.peek.kind
    split
    · rename_i hnone
      rw [hpeek] at hnone
      obtain ⟨repetition, greedy⟩ := s
      cases repetition <;> cases hnone
    · rename_i repetition hsome
      obtain rfl : s.repetition = repetition := by
        rw [hpeek] at hsome
        obtain ⟨repetition, greedy⟩ := s
        cases repetition <;> exact Option.some.inj hsome
      simp only [wp_bind, wp_close]
      refine advance_shown h fun _ c₁ _ h₁ => ?_
      cases hg : s.greedy with
      | true =>
        rw [hg, if_pos rfl] at h₁
        refine accept_other h₁ (hrest.kindAt_ne rfl) ⟨?_, h₁⟩
        simp [Suffix.outline, hg]
      | false =>
        rw [hg, if_neg Bool.false_ne_true] at h₁
        refine accept_shown h₁ rfl fun _ c₂ _ h₂ => ⟨?_, h₂⟩
        simp [Suffix.outline, hg]

/-- What a label or a negation stands before: a block, or what is not one. -/
theorem target_shown (nested : Nested) {other : ParseM Node} {t : Term}
    (h : c.Shows (t.lexemes ++ rest))
    (hblock : t.isBlock → Yields nested.block t.lexemes rest t.outline)
    (hatom : t.isBlock = false → Yields nested.atom t.lexemes rest t.outline) :
    wp (do
        if ← seesKind .openParen then nested.block
        else if ← sees startsAtom then nested.atom
        else other)
      (fun n c' => n.outline = t.outline ∧ c'.Shows rest) c := by
  obtain ⟨l, ls, hls, -, hbegins, hparen, -⟩ := t.exists_lexeme
  have hkind : kindAt c.ahead 0 = l.kind := by
    rw [h.kindAt, hls]
    rfl
  simp only [wp_bind, wp_seesKind, wp_sees, wp_ite, hkind, beq_iff_eq, hparen]
  split
  · rename_i hb
    exact hblock hb c h
  · rename_i hb
    have hatomic : startsAtom c.ahead := by
      rw [← hparen] at hb
      unfold startsAtom
      rw [hkind]
      cases hk : l.kind <;> simp_all [Token.Kind.beginsElement]
    rw [if_pos hatomic]
    exact hatom (Bool.eq_false_iff.2 hb) c h

/-- A term that is no block, where the production for negands does what it should. -/
theorem yields_atom {nested? : Option Nested} {t : Term} (hb : t.isBlock = false)
    (hrest : Abstract.kindAt rest 0 ≠ .dotDot)
    (hnegand : ∀ u sign, t = .negated u → Yields (negand sign nested?) u.lexemes rest u.outline) :
    Yields (atom nested?) t.lexemes rest t.outline := by
  intro c h
  have hangle : Abstract.kindAt rest 0 ≠ .angle := kindAt_ne_of_isForeign rest 0 rfl
  unfold atom
  simp only [wp_bind, wp_peek]
  cases t with
  | name w =>
    have hpeek : c.peek.Shows (.name w.toName) := h.peek
    rcases w.kind_eq with hk | hk
    · rw [hpeek.kind, show (Lexeme.name w.toName).kind = _ from hk]
      simp only [wp_bind, wp_pure]
      refine advance_shown h fun _ c₁ _ h₁ => ?_
      exact accept_other h₁ hangle ⟨hpeek.outline_identifier, h₁⟩
    · -- A set of characters would be taken for arguments.
      have hbracket : Abstract.kindAt rest 0 ≠ .bracket := by
        intro hkind
        cases rest with
        | nil => cases hkind
        | cons m ms => exact (List.isChain_cons_cons.1 h.apart).1 ⟨hk, hkind⟩
      rw [hpeek.kind, show (Lexeme.name w.toName).kind = _ from hk]
      simp only [wp_bind, wp_pure]
      refine advance_shown h fun _ c₁ _ h₁ => ?_
      refine accept_other h₁ hbracket ?_
      exact accept_other h₁ hangle ⟨hpeek.outline_identifier, h₁⟩
  | literal l =>
    have hpeek : c.peek.Shows (.literal l) := h.peek
    rw [hpeek.kind]
    simp only [Lexeme.kind, wp_bind, wp_ite, wp_pure]
    refine advance_shown h fun _ c₁ _ h₁ => ?_
    refine accept_other h₁ hrest ?_
    rw [if_neg (by simp)]
    exact accept_other h₁ hangle ⟨hpeek.outline_literal, h₁⟩
  | range first last =>
    have hpeek : c.peek.Shows (.literal first) := h.peek
    rw [hpeek.kind]
    simp only [Lexeme.kind, wp_bind, wp_ite, wp_pure]
    refine advance_shown h fun _ c₁ _ h₁ => ?_
    refine accept_shown h₁ rfl fun _ c₂ _ h₂ => ?_
    rw [if_pos (by simp)]
    refine accept_shown h₂ rfl fun t c₃ ht h₃ => ?_
    simp only [wp_close]
    refine ⟨?_, h₃⟩
    simp [Term.outline, hpeek.outline_literal, ht.outline_literal]
  | charSet s =>
    have hpeek : c.peek.Shows (.charSet s) := h.peek
    rw [hpeek.kind]
    simp only [Lexeme.kind, wp_bind, wp_pure]
    refine advance_shown h fun _ c₁ _ h₁ => ⟨?_, h₁⟩
    simp [Term.outline, Node.leaf, hpeek.text, Lexeme.text]
  | wildcard =>
    have hpeek : c.peek.Shows (.sign .dot) := h.peek
    rw [hpeek.kind]
    simp only [Lexeme.kind, Sign.kind, wp_bind, wp_close]
    refine advance_shown h fun _ c₁ _ h₁ => ?_
    refine accept_other h₁ hangle ⟨?_, h₁⟩
    simp [Term.outline]
  | negated u =>
    have hpeek : c.peek.Shows (.sign .tilde) := h.peek
    rw [hpeek.kind]
    simp only [Lexeme.kind, Sign.kind, wp_bind, wp_close]
    refine advance_shown h fun _ c₁ _ h₁ => ?_
    refine (hnegand u _ rfl).on h₁ fun n c₂ hn h₂ => ⟨?_, h₂⟩
    simp [Term.outline, hn]
  | block => cases hb

/-- Both productions read what takes no more than `room` levels. -/
structure Nested.Ready (room : Nat) (nested : Nested) : Prop where
  block : ∀ (t : Term) rest, t.isBlock → t.depth ≤ room → Yields nested.block t.lexemes rest t.outline
  atom : ∀ (t : Term) rest, t.isBlock = false → t.depth ≤ room → Abstract.kindAt rest 0 ≠ .dotDot →
    Yields nested.atom t.lexemes rest t.outline

variable {nested : Nested} {room : Nat}

/-- A term that stands behind a label or a negation. -/
theorem Nested.Ready.target_shown (hn : nested.Ready room) {other : ParseM Node} {t : Term}
    (ht : t.depth ≤ room) (hrest : Abstract.kindAt rest 0 ≠ .dotDot)
    (h : c.Shows (t.lexemes ++ rest)) :
    wp (do
        if ← seesKind .openParen then nested.block
        else if ← sees startsAtom then nested.atom
        else other)
      (fun n c' => n.outline = t.outline ∧ c'.Shows rest) c :=
  ParseM.target_shown nested h (fun hb => hn.block t rest hb ht) fun hb => hn.atom t rest hb ht hrest

/-- A label shows in the first two tokens. -/
theorem labeled_of_shows {l : Label} (h : c.Shows (Label.lexemes (some l) ++ ls)) :
    (c.peek.isName && (kindAt c.ahead 1 == .equals || kindAt c.ahead 1 == .plusEquals)) = true := by
  have hpeek : c.peek.Shows (.name l.word.toName) := h.peek
  have hname : c.peek.isName := by
    rw [Token.isName, hpeek.kind]
    exact l.word.isName_kind
  have hequals : (kindAt c.ahead 1 == .equals || kindAt c.ahead 1 == .plusEquals) = true := by
    rw [h.kindAt]
    show ((Lexeme.sign _).kind == _ || (Lexeme.sign _).kind == _) = true
    cases l.additive <;> rfl
  rw [hname, hequals]
  rfl

/-- An element without a label may begin with a name too, but no sign of a label follows. -/
theorem not_labeled_of_shows {t : Term} (h : c.Shows (t.lexemes ++ ls))
    (hequals : Abstract.kindAt ls 0 ≠ .equals) (hplus : Abstract.kindAt ls 0 ≠ .plusEquals) :
    (c.peek.isName && (kindAt c.ahead 1 == .equals || kindAt c.ahead 1 == .plusEquals)) = false := by
  obtain ⟨l, ms, hms, -, -, -, hword⟩ := t.exists_lexeme
  rw [Bool.and_eq_false_imp]
  intro hname
  have hpeek : c.peek.Shows l := by
    rw [hms] at h
    exact h.peek
  rw [Token.isName, hpeek.kind] at hname
  rw [h.kindAt, hms, hword hname, List.cons_append, kindAt_cons_succ, List.nil_append,
    beq_false_of_ne hequals, beq_false_of_ne hplus]
  rfl

theorem Nested.Ready.element (hn : nested.Ready room) {e : Element} (he : e.depth ≤ room)
    (hrest : Behind rest) : Yields (element nested) e.lexemes rest e.outline := by
  obtain ⟨suffix?, label?, t⟩ := e
  intro c h
  have ht : t.depth ≤ room := he
  have hrange := hrest.kindAt_suffix_ne suffix? (k := .dotDot) rfl (by decide)
  unfold ParseM.element
  simp only [wp_bind, wp_peek, wp_sees, wp_seesKind, wp_ite, wp_close]
  cases label? with
  | some l =>
    have hpeek : c.peek.Shows (.name l.word.toName) := h.peek
    rw [if_pos (labeled_of_shows (l := l) h)]
    refine advance_shown h fun _ c₁ _ h₁ => ?_
    refine advance_shown h₁ fun u c₂ hu h₂ => ?_
    have hadditive : (u.kind == .plusEquals) = l.additive := by
      rw [hu.kind]
      cases l.additive <;> rfl
    have h₂ : c₂.Shows (t.lexemes ++ (Suffix.lexemes suffix? ++ rest)) := by
      rw [← List.append_assoc]
      exact h₂
    refine wp_mono (hn.target_shown ht hrange h₂) fun n c₃ h₃ => ?_
    refine wp_mono (repeated_shown c.peek.start h₃.2 hrest) fun m c₄ h₄ => ⟨?_, h₄.2⟩
    rw [h₄.1, Node.outline_mk, List.map_singleton, h₃.1, hadditive, hpeek.text]
    rfl
  | none =>
    have h : c.Shows (t.lexemes ++ (Suffix.lexemes suffix? ++ rest)) := by
      rw [← List.append_assoc]
      exact h
    obtain ⟨l, ls, hls, -, -, hparen, -⟩ := t.exists_lexeme
    have hkind : kindAt c.ahead 0 = l.kind := by
      rw [h.kindAt, hls]
      rfl
    have hunlabeled := not_labeled_of_shows h (hrest.kindAt_suffix_ne suffix? rfl (by decide))
      (hrest.kindAt_suffix_ne suffix? rfl (by decide))
    rw [if_neg (by rw [hunlabeled]; exact Bool.false_ne_true)]
    simp only [hkind, beq_iff_eq, hparen]
    split
    · rename_i hb
      refine (hn.block t _ hb ht).on h fun n c₁ hn h₁ => ?_
      refine wp_mono (repeated_shown c.peek.start h₁ hrest) fun m c₂ h₂ => ⟨?_, h₂.2⟩
      rw [h₂.1, hn]
      rfl
    · rename_i hb
      refine accept_other h (kindAt_ne_of_isForeign _ 0 rfl) ?_
      rw [if_neg (by simp)]
      refine (hn.atom t _ (Bool.eq_false_iff.2 hb) ht hrange).on h fun n c₁ hn h₁ => ?_
      refine wp_mono (repeated_shown c.peek.start h₁ hrest) fun m c₂ h₂ => ⟨?_, h₂.2⟩
      rw [h₂.1, hn]
      rfl

theorem endsAlternative_of_shows (h : c.Shows (l :: ls)) (hl : l.kind.endsElements) :
    endsAlternative c.ahead = true := by
  unfold endsAlternative
  rw [h.kindAt, kindAt_cons_zero]
  cases hk : l.kind <;> simp_all [Token.Kind.endsElements]

theorem not_endsAlternative (h : c.Shows (l :: ls)) (hplain : l.Plain) (hl : l.kind.beginsElement)
    (hcolon : l.kind.isName → Abstract.kindAt ls 0 ≠ .colon) : endsAlternative c.ahead = false := by
  unfold endsAlternative
  rw [h.not_startsRule hplain hcolon, h.kindAt, kindAt_cons_zero, Bool.or_false]
  cases hk : l.kind <;> simp_all [Token.Kind.beginsElement]

theorem startsElement_of_shows (h : c.Shows (l :: ls)) (hl : l.kind.beginsElement) :
    startsElement c.ahead = true := by
  unfold startsElement startsAtom
  rw [h.kindAt, kindAt_cons_zero]
  cases hk : l.kind <;> simp_all [Token.Kind.beginsElement]

/-- The elements of an alternative, up to what ends them. -/
theorem Nested.Ready.series (hn : nested.Ready room) {es : List Element}
    (hes : ∀ e ∈ es, e.depth ≤ room) (hl : l.kind.endsElements) (ms : List Lexeme) :
    Behind (es.flatMap Element.lexemes ++ l :: ms) ∧
      Series (fun ahead => !endsAlternative ahead)
        (do if ← sees startsElement then ParseM.element nested else skipGarbage) (l :: ms)
        (es.flatMap Element.lexemes ++ l :: ms) (es.map Element.outline) := by
  induction es with
  | nil =>
    refine ⟨⟨l, ms, rfl, by rw [hl, Bool.or_true]⟩, .nil fun c h => ?_⟩
    rw [endsAlternative_of_shows h hl]
    rfl
  | cons e es ih =>
    obtain ⟨hbehind, hseries⟩ := ih fun d hd => hes d (.tail _ hd)
    obtain ⟨k, ks, hks, hplain, hbegins, hcolon⟩ := e.exists_lexeme hbehind
    rw [List.flatMap_cons, List.append_assoc]
    refine ⟨⟨k, ks, hks, by rw [hbegins]; rfl⟩, .cons e.lexemes_ne_nil (fun c h => ?_) (fun c h => ?_)
      hseries⟩
    · rw [not_endsAlternative (hks ▸ h) hplain hbegins hcolon]
      rfl
    · simp only [wp_bind, wp_sees, wp_ite]
      rw [if_pos (startsElement_of_shows (hks ▸ h) hbegins)]
      exact hn.element (hes e (.head _)) hbehind c h

theorem Nested.Ready.alternative (hn : nested.Ready room) {a : Alternative} (ha : a.depth ≤ room)
    (hrest : Closing rest) : Yields (alternative nested) a.lexemes rest a.outline := by
  obtain ⟨elements, label?, commands⟩ := a
  intro c h
  obtain ⟨l, ms, hms, hends⟩ := hrest.exists_lexeme label? commands
  have hdepth : ∀ e ∈ elements, e.depth ≤ room :=
    fun e he => Nat.le_trans (Element.depth_le_of_mem he) ha
  obtain ⟨-, helements⟩ := hn.series hdepth hends ms
  have h : c.Shows (elements.flatMap Element.lexemes ++ l :: ms) := by
    rw [← hms, ← Element.lexemesAll_eq_flatMap, ← List.append_assoc, ← List.append_assoc]
    exact h
  unfold ParseM.alternative
  simp -zeta only [wp_bind, wp_peek]
  extract_lets start children label more
  simp only [wp_bind]
  refine accept_other h (kindAt_ne_of_isForeign _ 0 rfl) ?_
  simp -zeta only [more, wp_bind]
  refine wp_mono (helements.gatherWhile_shown h) fun ns c₁ ⟨hns, h₁⟩ => ?_
  rw [← hms] at h₁
  extract_lets all commanded
  have hcommanded (u : Unit) (c₂ : Cursor) (h₂ : c₂.Shows (Command.lexemesAll commands ++ rest)) :
      wp (commanded u (label?.map (·.text)))
        (fun n c' => n.outline = Alternative.outline ⟨elements, label?, commands⟩ ∧ c'.Shows rest)
        c₂ := by
    simp only [commanded, wp_bind, wp_seesKind, wp_ite, wp_close, h₂.kindAt]
    cases commands with
    | nil =>
      rw [if_neg (by simpa [Command.lexemesAll] using hrest.kindAt_ne (by decide))]
      refine ⟨?_, h₂⟩
      simp [all, children, Alternative.outline, Command.outlineAll, hns, Element.outlineAll_eq_map]
    | cons d ds =>
      have harrow : (Abstract.kindAt (Command.lexemesAll (d :: ds) ++ rest) 0 == .arrow) = true := rfl
      rw [harrow, if_pos rfl]
      refine (yields_commands d ds (hrest.kindAt_ne (by decide)) (hrest.kindAt_ne (by decide))).on h₂
        fun n c₃ hn h₃ => ⟨?_, h₃⟩
      simp [all, children, Alternative.outline, Command.outlineAll, hns, hn,
        Element.outlineAll_eq_map]
  simp only [wp_bind, wp_ite, wp_seesName]
  cases label? with
  | none =>
    refine accept_other h₁ (hrest.kindAt_commands_ne commands (by decide)) ?_
    rw [if_neg (by simp)]
    exact hcommanded () c₁ h₁
  | some w =>
    refine accept_shown h₁ rfl fun _ c₂ _ h₂ => ?_
    have hname : isNameAt c₂.ahead 0 := by
      rw [isNameAt, h₂.kindAt]
      exact w.isName_kind
    rw [if_pos (by simp), if_pos hname]
    refine advance_shown h₂ fun t c₃ ht h₃ => ?_
    rw [ht.text]
    exact hcommanded () c₃ h₃

theorem Nested.Ready.alternativeList (hn : nested.Ready room) {first : Alternative}
    {as : List Alternative} (hdepth : max first.depth (Alternative.depthAll as) ≤ room)
    (hrest : Closing rest) (hbar : Abstract.kindAt rest 0 ≠ .bar) :
    Reads (alternativeList nested) (first.lexemes ++ Alternative.lexemesAll as) rest
      fun ns => ns.map Node.outline = first.outline :: Alternative.outlineAll as := by
  have hle : ∀ a ∈ first :: as, a.depth ≤ room := by
    intro a ha
    rcases List.mem_cons.1 ha with rfl | ha
    · omega
    · have := Alternative.depth_le_of_mem ha
      omega
  rw [Alternative.lexemesAll_eq_flatMap, Alternative.outlineAll_eq_map]
  refine reads_gather Alternative.lexemes Alternative.outline .bar ?more ?last
  case more =>
    intro a ha ls c h
    rw [List.append_assoc] at h
    exact turn_more .bar (hn.alternative (hle a ha) ⟨_, _, rfl, .head _⟩ c h)
  case last =>
    intro a ha c h
    exact turn_last .bar (hn.alternative (hle a ha) hrest c h) hbar

theorem Nested.Ready.yields_block (hn : nested.Ready room) {t : Term} (hb : t.isBlock)
    (ht : t.depth ≤ room + 1) : Yields (ParseM.block nested) t.lexemes rest t.outline := by
  cases t with
  | block first as =>
    rw [Term.depth] at ht
    intro c h
    unfold ParseM.block
    simp -zeta only [wp_bind]
    refine advance_shown h fun _ c₁ _ h₁ => ?_
    extract_lets start body
    simp only [wp_bind, wp_sees, wp_ite]
    rw [h₁.not_startsBlock, if_neg Bool.false_ne_true]
    simp only [body, wp_bind, wp_close]
    have h₁ : c₁.Shows
        (first.lexemes ++ Alternative.lexemesAll as ++ (.sign .closeParen :: rest)) := by
      rw [← List.singleton_append, ← List.append_assoc]
      exact h₁
    have hclosing : Closing (.sign .closeParen :: rest) := ⟨_, _, rfl, .tail _ (.head _)⟩
    refine (hn.alternativeList (by omega) hclosing (by simp [Lexeme.kind, Sign.kind])).on h₁
      fun ns c₂ hns h₂ => ?_
    refine expect_shown h₂ rfl fun _ c₃ _ h₃ => ⟨?_, h₃⟩
    rw [Node.outline_mk, hns]
    rfl
  | _ => cases hb

theorem Nested.ready_within (room : Nat) : (Nested.within room).Ready room := by
  induction room with
  | zero =>
    refine ⟨fun t rest hb ht => ?_, fun t rest hb ht hrest => yields_atom hb hrest ?_⟩
    · have := Term.depth_pos_of_isBlock hb
      omega
    · rintro u sign rfl
      have := Term.depth_negated_pos u
      omega
  | succ room ih =>
    refine ⟨fun t rest hb ht => ih.yields_block hb ht,
      fun t rest hb ht hrest => yields_atom hb hrest ?_⟩
    rintro u sign rfl c h
    rw [Term.depth] at ht
    refine target_shown ⟨ParseM.block (within room), (within room).atom⟩ h (fun hu => ?_) fun hu => ?_
    · rw [if_pos hu] at ht
      exact ih.yields_block hu ht
    · rw [if_neg (by simp [hu])] at ht
      exact ih.atom u rest hu (by omega) hrest

theorem yields_alternatives {b : Body} (hb : b.depth ≤ nestingLimit) (rest : List Lexeme) :
    Yields alternatives b.lexemes (.sign .semicolon :: rest) b.outline := by
  intro c h
  unfold alternatives
  simp only [wp_bind, wp_peek, wp_close]
  have hclosing : Closing (.sign .semicolon :: rest) := ⟨_, _, rfl, .tail _ (.tail _ (.head _))⟩
  refine ((Nested.ready_within _).alternativeList hb hclosing (by simp [Lexeme.kind, Sign.kind])).on h
    fun ns c₁ hns h₁ => ⟨?_, h₁⟩
  rw [Node.outline_mk, hns]
  rfl

end ParseM

end GrammarAtlas
