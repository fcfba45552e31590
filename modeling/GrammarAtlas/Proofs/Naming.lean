import GrammarAtlas.Atlas.Session
import GrammarAtlas.Proofs.ImportGraph
import GrammarAtlas.Proofs.Productions
import GrammarAtlas.Symbol.Table

/-! # The name of a grammar

A grammar is known by its name before it is read: `Grammar.sniffName?` takes the name off the first
tokens, and the import graph files it. `Grammar.sniffName?_declared` says that this is the name that
the tree and the table of the text declare, whatever the header looks like. -/

namespace GrammarAtlas

namespace ParseM
open Lookahead

/-- The text of the first token ahead, if that is a name. -/
def nameAhead? (ahead : List Token) : Option String :=
  (ahead.head?.filter Token.isName).map Token.text

/-- The number of words before the name in a header. -/
def headerWords (flavour : Flavour) : Nat := if flavour = .combined then 1 else 2

theorem nameAhead?_of_isNameAt {c : Cursor} (h : isNameAt c.ahead 0) :
    nameAhead? c.ahead = some c.peek.text := by
  cases ha : c.ahead with
  | nil =>
    rw [ha] at h
    cases h
  | cons t ts =>
    rw [ha] at h
    have ht : t.isName := h
    simp [nameAhead?, Cursor.peek, ha, ht]

theorem nameAhead?_of_not_isNameAt {ahead : List Token} (h : isNameAt ahead 0 = false) :
    nameAhead? ahead = none := by
  cases ahead with
  | nil => rfl
  | cons t ts =>
    have ht : t.isName = false := h
    simp [nameAhead?, ht]

theorem wp_advance {Q : Token → Cursor → Prop} {c : Cursor}
    (hQ : ∀ c', c'.ahead = c.ahead.tail → Q c.peek c') : wp advance Q c := by
  cases ha : c.ahead with
  | nil =>
    have hpeek : c.peek = c.finish := by simp [Cursor.peek, ha]
    unfold wp
    rw [run_advance, ha, ← hpeek]
    exact hQ c (by rw [ha]; rfl)
  | cons t ts =>
    refine wp_advance_of_ahead ha ?_
    have := hQ (c.after t ts) (by rw [ha]; rfl)
    rwa [Cursor.peek_of_ahead ha] at this

theorem header_named (flavour : Flavour) (c : Cursor) :
    wp (header flavour)
      (fun n _ => n.isHeader ∧ n.name? = nameAhead? (c.ahead.drop (headerWords flavour))) c := by
  unfold header
  simp -zeta only [wp_bind, wp_peek]
  extract_lets start children close name
  have hclose (u : Unit) (ns : List Node) (c₁ : Cursor) :
      wp (close u ns) (fun n _ => n.isHeader ∧
        n.name? = (ns.find? Node.isIdentifier).bind Node.identifier?) c₁ := ⟨rfl, rfl⟩
  have hname (u : Unit) (c₁ : Cursor) :
      wp (name u) (fun n _ => n.isHeader ∧ n.name? = nameAhead? c₁.ahead.tail) c₁ := by
    simp only [name, wp_bind, wp_seesName, wp_ite]
    refine wp_advance fun c₂ ha => ?_
    rw [← ha]
    split
    · rename_i hn
      refine wp_advance fun c₃ _ => wp_mono (hclose () _ c₃) fun n _ ⟨hh, hc⟩ => ⟨hh, ?_⟩
      rw [hc, nameAhead?_of_isNameAt hn]
      rfl
    · rename_i hn
      rw [nameAhead?_of_not_isNameAt (by simpa using hn)]
      exact hclose () [] _
  simp only [wp_bind, wp_ite]
  by_cases hf : flavour = .combined
  · rw [if_neg (not_not.2 hf), headerWords, if_pos hf, List.drop_one]
    exact hname () c
  · rw [if_pos hf, headerWords, if_neg hf]
    refine wp_advance fun c₁ ha => ?_
    rw [show c.ahead.drop 2 = c₁.ahead.tail by
      rw [ha, ← List.drop_one, ← List.drop_one, List.drop_drop]]
    exact hname () c₁

theorem grammarHeader_named (c : Cursor) :
    wp grammarHeader (fun r _ => (r.1.find? Node.isHeader).bind Node.name? =
      (headerFlavour? c.ahead).bind fun f => nameAhead? (c.ahead.drop (headerWords f))) c := by
  unfold grammarHeader
  simp only [wp_bind, wp_get]
  split
  · rename_i flavour hf
    simp only [wp_bind, wp_pure, hf]
    refine wp_mono (header_named flavour c) fun n c₁ ⟨hh, hn⟩ => ?_
    rw [List.find?_cons_of_pos hh]
    exact hn
  · rename_i hf
    rw [hf]
    exact rfl

/-- The root is named in its header, and no other part of it is one. -/
theorem grammar_named {c : Cursor} (hc : c.Regular) :
    wp ParseM.grammar (fun root _ => root.grammarName? =
      (headerFlavour? c.ahead).bind fun f => nameAhead? (c.ahead.drop (headerWords f))) c := by
  unfold ParseM.grammar
  simp only [wp_bind]
  have hheader : wp grammarHeader (fun r c₁ => Reading c r.1 c₁ ∧
      (r.1.find? Node.isHeader).bind Node.name? = (headerFlavour? c.ahead).bind fun f =>
        nameAhead? (c.ahead.drop (headerWords f))) c :=
    ⟨(produces_grammarHeader c hc).1, grammarHeader_named c⟩
  refine wp_mono hheader fun (first, flavour) c₁ ⟨h₁, hnamed⟩ => ?_
  simp only [wp_get, wp_pure]
  refine (produces_gatherWhile (produces_grammarPart flavour)).on h₁ fun parts c₂ hparts _ => ?_
  have hnone : parts.find? Node.isHeader = none := by
    rw [List.find?_eq_none]
    intro n hn
    rw [not_isHeader_of_isPart (hparts n hn)]
    exact Bool.false_ne_true
  rw [← hnamed, Node.grammarName?, Node.header?, List.find?_append, hnone, Option.or_none]

end ParseM

namespace Grammar
open ParseM Lookahead

theorem not_isWord_of_ne {t : Token} {v w : String} (hv : t.isWord v) (hne : v ≠ w) :
    t.isWord w = false := by
  rw [Token.isWord, (Token.isWord_iff.1 hv).2, beq_false_of_ne hne, Bool.and_false]

/-- What is sniffed once the flavour is out of the way. -/
theorem nameAhead?_behind_word (ts : List Token) :
    (match ts with
      | t :: name :: _ => if t.isWord "grammar" && name.isName then some name.text else none
      | _ => none) =
      if isWordAt ts 0 "grammar" then nameAhead? ts.tail else none := by
  match ts with
  | [] => rfl
  | [t] => simp [nameAhead?]
  | t :: name :: rest =>
    cases ht : t.isWord "grammar" <;> cases hn : name.isName <;>
      simp [isWordAt, nameAhead?, Option.filter, ht, hn]

/-- Sniffing looks for the words of a header and for the name behind them. -/
theorem sniffName?_eq (text : String) :
    sniffName? text = (headerFlavour? (TokenStream.ofChars text.toList).1.tokens).bind fun f =>
      nameAhead? ((TokenStream.ofChars text.toList).1.tokens.drop (headerWords f)) := by
  refine (nameAhead?_behind_word _).trans ?_
  generalize (TokenStream.ofChars text.toList).1.tokens = ts
  cases ts with
  | nil => rfl
  | cons t rest =>
    have hzero (w : String) : isWordAt (t :: rest) 0 w = t.isWord w := rfl
    have hone : isWordAt (t :: rest) 1 "grammar" = isWordAt rest 0 "grammar" := rfl
    simp only [headerFlavour?, hzero, hone]
    by_cases hl : t.isWord "lexer"
    · have hp := not_isWord_of_ne hl (w := "parser") (by decide)
      have hg := not_isWord_of_ne hl (w := "grammar") (by decide)
      cases hr : isWordAt rest 0 "grammar" <;> simp [hl, hp, hg, hr, headerWords]
    by_cases hp : t.isWord "parser"
    · have hg := not_isWord_of_ne hp (w := "grammar") (by decide)
      cases hr : isWordAt rest 0 "grammar" <;> simp [hl, hp, hg, hr, headerWords]
    · cases hg : t.isWord "grammar" <;> simp [hl, hp, hzero, hg, headerWords]

theorem sniffName?_eq_grammarName? (text : String) :
    sniffName? text = (parse text).tree.grammarName? := by
  have htree := grammar_named (Cursor.regular_ofStream text.toList)
  rw [sniffName?_eq, parse_eq]
  exact htree.symm

end Grammar

namespace SymbolTable

theorem grammarName?_foldl (ds : List Declaration) (table : SymbolTable) :
    (ds.foldl declare table).grammarName? = table.grammarName? := by
  induction ds generalizing table with
  | nil => rfl
  | cons d ds ih =>
    rw [List.foldl_cons, ih]
    unfold declare
    split
    · split
      · split <;> rfl
      · rfl
    · rfl

theorem grammarName?_ofTree (root : Node) : (ofTree root).grammarName? = root.grammarName? :=
  grammarName?_foldl _ _

end SymbolTable

namespace ImportGraph

theorem name?_setName_self (g : ImportGraph) (d : String) (n? : Option String) :
    (g.setName d n?).name? d = n? := by
  rw [setName]
  split
  · assumption
  · cases n? with
    | some n => exact Directory.get?_insert_self
    | none =>
      show (g.eraseName d).name? d = none
      rw [eraseName]
      split
      · assumption
      · exact Directory.get?_erase_self

end ImportGraph

namespace Session

theorem graph_foldl_invalidate (s : Session) (ids : List String) :
    (ids.foldl invalidate s).graph = s.graph := by
  induction ids generalizing s with
  | nil => rfl
  | cons id ids ih =>
    rw [List.foldl_cons, ih, invalidate]
    split <;> rfl

theorem graph_rename (s : Session) (id text : String) :
    (s.rename id text).1.graph = s.graph.setName id (Grammar.sniffName? text) :=
  graph_foldl_invalidate _ _

end Session

/-- The name that is sniffed is the one that the tree and the table declare, and the one under which
every session files a document that gets the text. -/
theorem Grammar.sniffName?_declared (text : String) :
    sniffName? text = (parse text).tree.grammarName? ∧
      sniffName? text = (SymbolTable.ofTree (parse text).tree).grammarName? ∧
      ∀ (s : Session) (id : String), (s.rename id text).1.graph.name? id =
        (SymbolTable.ofTree (parse text).tree).grammarName? := by
  have htree := sniffName?_eq_grammarName? text
  have htable : sniffName? text = (SymbolTable.ofTree (parse text).tree).grammarName? := by
    rw [SymbolTable.grammarName?_ofTree, htree]
  refine ⟨htree, htable, fun s id => ?_⟩
  rw [Session.graph_rename, ImportGraph.name?_setName_self, htable]

end GrammarAtlas
