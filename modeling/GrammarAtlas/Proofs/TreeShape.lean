import GrammarAtlas.Proofs.Productions
import GrammarAtlas.Proofs.SymbolTable

/-! # The shape of trees

Whatever was read conforms to the table of kinds (`Reading.conforms`), and its words stand one behind
the other (`Reading.words_spread`). The root has conforming parts, behind a header if there is one
(`Grammar.parse_assembled`). What a conforming tree declares, it declares at its words
(`Conforms.places`), so declarations come in the order of the text. -/

namespace GrammarAtlas

namespace Node

/-- Each node has the children that fit its kind. -/
inductive Conforms : Node → Prop
  | word {kind : Kind} {location : Location} (hw : kind.isWord) : Conforms ⟨kind, location, []⟩
  | node {kind : Kind} {location : Location} {children : List Node} (hk : kind.Fits children)
    (hc : ∀ n ∈ children, Conforms n) : Conforms ⟨kind, location, children⟩

mutual

/-- Where the words of a tree stand, in pre-order. -/
def words : Node → List Location
  | ⟨kind, location, children⟩ => if kind.isWord then [location] else wordsAll children

def wordsAll : List Node → List Location
  | [] => []
  | n :: ns => words n ++ wordsAll ns

end

theorem wordsAll_append (ns ms : List Node) : wordsAll (ns ++ ms) = wordsAll ns ++ wordsAll ms := by
  induction ns with
  | nil => simp [wordsAll]
  | cons n ns ih => simp [wordsAll, ih]

theorem Kind.isIdentifier_of_isName {kind : Kind} (h : kind.isName) : kind.isIdentifier := by
  cases kind with
  | identifier => rfl
  | _ => cases h

theorem Kind.Fits.not_isWord {kind : Kind} {children : List Node} (h : kind.Fits children) :
    kind.isWord = false := by
  cases h with
  | named hkind => cases kind <;> first | rfl | simp [isNamed] at hkind
  | plain _ hword _ => exact hword

theorem words_of_fits {kind : Kind} {l : Location} {children : List Node} (h : kind.Fits children) :
    words ⟨kind, l, children⟩ = wordsAll children := by
  simp [words, h.not_isWord]

theorem words_of_isWord {n : Node} (h : n.kind.isWord) : n.words = [n.location] := by
  obtain ⟨kind, l, children⟩ := n
  simp [words, show kind.isWord from h]

theorem flatMap_sublist_wordsAll {f : Node → List Location} {ns : List Node}
    (h : ∀ n ∈ ns, (f n).Sublist n.words) : (ns.flatMap f).Sublist (wordsAll ns) := by
  induction ns with
  | nil => exact List.nil_sublist _
  | cons n ns ih =>
    rw [List.flatMap_cons, wordsAll]
    exact (h n (.head _)).append (ih fun m hm => h m (.tail _ hm))

namespace Conforms
variable {n : Node}

theorem eq_leaf (h : n.Conforms) (hw : n.kind.isWord) : n = .leaf n.kind n.location := by
  cases h with
  | word => rfl
  | node hk => rw [hk.not_isWord] at hw; cases hw

theorem identifier (h : n.Conforms) (hk : n.kind.isIdentifier) :
    ∃ name, n = .leaf (.identifier name) n.location := by
  obtain ⟨kind, l, children⟩ := n
  cases kind with
  | identifier name => exact ⟨name, h.eq_leaf rfl⟩
  | _ => cases hk

theorem children (h : n.Conforms) : ∀ m ∈ n.children, m.Conforms := by
  cases h with
  | word => simp
  | node _ hc => exact hc

end Conforms

/-- What the parser puts below the root: a header perhaps, and then parts. -/
structure Assembled (root : Node) : Prop where
  kind : root.kind = .grammar
  conforms : ∀ n ∈ root.children, n.Conforms
  parts : ∀ n ∈ root.children, n.isHeader ∨ n.kind.isPart
  tail : ∀ n ∈ root.children.tail, n.kind.isPart

theorem Assembled.not_isIdentifier {root n : Node} (h : root.Assembled) (hn : n ∈ root.children) :
    n.kind.isIdentifier = false := by
  cases hk : n.kind with
  | identifier =>
    rcases h.parts n hn with hh | hp
    · simp [isHeader, hk] at hh
    · rw [hk] at hp
      cases hp
  | _ => rfl

end Node

namespace Reading
open Node
variable {c c' : Cursor} {ns : List Node}

theorem conforms (h : Reading c ns c') : ∀ n ∈ ns, n.Conforms := by
  induction h with
  | start => simp
  | token _ _ ih => exact ih
  | report _ _ _ ih => exact ih
  | word _ _ _ hk _ ih _ => exact List.forall_mem_append.2 ⟨ih, by simpa using Conforms.word hk⟩
  | node _ _ hk ih ihc => exact List.forall_mem_append.2 ⟨ih, by simpa using Conforms.node hk ihc⟩

theorem ahead_suffix (h : Reading c ns c') : c'.ahead <:+ c.ahead := by
  induction h with
  | start => exact List.suffix_rfl
  | token _ ht ih => exact (ht ▸ List.suffix_cons _ _).trans ih
  | report _ _ _ ih => exact ih
  | word _ ht _ _ _ ih ihw => exact ihw.trans ((ht ▸ List.suffix_cons _ _).trans ih)
  | node _ _ _ ih ihc => exact ihc.trans ih

/-- What lies ahead lies behind what was read last, and reading on leads on. -/
theorem lastStop_le (h : Reading c ns c') (hc : ∀ t ∈ c.ahead, c.lastStop.offset ≤ t.start.offset) :
    (∀ t ∈ c'.ahead, c'.lastStop.offset ≤ t.start.offset) ∧
      c.lastStop.offset ≤ c'.lastStop.offset := by
  induction h with
  | start => exact ⟨hc, Nat.le_refl _⟩
  | @token c c' ns t ts h ht ih =>
    obtain ⟨hahead, hle⟩ := ih hc
    have hstart := hahead t (ht ▸ .head _)
    have hlt := h.regular.nonempty t (ht ▸ .head _)
    refine ⟨h.regular.lastStop_after_le ht, ?_⟩
    show _ ≤ t.stop.offset
    omega
  | report _ _ _ ih => exact ih hc
  | @word c c₁ c₂ ns t ts kind h ht hw _ _ ih ihw =>
    obtain ⟨hahead, hle⟩ := ih hc
    obtain ⟨hahead₂, hle₂⟩ := ihw (h.regular.lastStop_after_le ht)
    have hstart := hahead t (ht ▸ .head _)
    have hlt := h.regular.nonempty t (ht ▸ .head _)
    have hstop : t.stop.offset ≤ c₂.lastStop.offset := hle₂
    exact ⟨hahead₂, by omega⟩
  | node _ _ _ ih ihc =>
    obtain ⟨hahead, hle⟩ := ih hc
    obtain ⟨hahead₂, hle₂⟩ := ihc hahead
    exact ⟨hahead₂, Nat.le_trans hle hle₂⟩

/-- Places of words between two cursors: they start with tokens that were ahead, stop before those that
still are, and lie one behind the other. -/
structure Spread (c : Cursor) (ls : List Location) (c' : Cursor) : Prop where
  starts : ∀ l ∈ ls, ∃ t ∈ c.ahead, l.start = t.start
  nonempty : ∀ l ∈ ls, l.start.offset < l.stop.offset
  stops : ∀ l ∈ ls, ∀ t ∈ c'.ahead, l.stop.offset ≤ t.start.offset
  ordered : ls.Pairwise fun l m => l.stop.offset ≤ m.start.offset

theorem Spread.append {ls ms : List Location} {c₁ c₂ : Cursor} (h : Spread c ls c₁)
    (h' : Spread c₁ ms c₂) (hc : c₁.ahead <:+ c.ahead) (hc₁ : c₂.ahead <:+ c₁.ahead) :
    Spread c (ls ++ ms) c₂ := by
  refine ⟨List.forall_mem_append.2 ⟨h.starts, fun m hm => ?_⟩,
    List.forall_mem_append.2 ⟨h.nonempty, h'.nonempty⟩,
    List.forall_mem_append.2 ⟨fun l hl t ht => h.stops l hl t (hc₁.subset ht), h'.stops⟩,
    List.pairwise_append.2 ⟨h.ordered, h'.ordered, fun l hl m hm => ?_⟩⟩
  · obtain ⟨t, ht, hstart⟩ := h'.starts m hm
    exact ⟨t, hc.subset ht, hstart⟩
  · obtain ⟨t, ht, hstart⟩ := h'.starts m hm
    rw [hstart]
    exact h.stops l hl t ht

theorem Spread.sublist {ls ms : List Location} (h : Spread c ls c') (hms : ms.Sublist ls) :
    Spread c ms c' :=
  ⟨fun m hm => h.starts m (hms.subset hm), fun m hm => h.nonempty m (hms.subset hm),
    fun m hm => h.stops m (hms.subset hm), h.ordered.sublist hms⟩

theorem Spread.ascending {ls : List Location} (h : Spread c ls c') :
    ls.Pairwise fun l m => l.start.offset < m.start.offset :=
  h.ordered.imp_of_mem fun hl _ hle => Nat.lt_of_lt_of_le (h.nonempty _ hl) hle

/-- The words of what was read stand one behind the other. -/
theorem words_spread (h : Reading c ns c') : Spread c (wordsAll ns) c' := by
  induction h with
  | start => exact ⟨nofun, nofun, nofun, .nil⟩
  | @token c c' ns t ts _ ht ih =>
    refine ⟨ih.starts, ih.nonempty, fun l hl u hu => ih.stops l hl u ?_, ih.ordered⟩
    rw [ht]
    exact .tail _ hu
  | report _ _ _ ih => exact ⟨ih.starts, ih.nonempty, ih.stops, ih.ordered⟩
  | @word c c₁ c₂ ns t ts kind h ht hw hk _ ih _ =>
    have hsuffix : c₂.ahead <:+ c₁.ahead := hw.ahead_suffix.trans (ht ▸ List.suffix_cons _ _)
    rw [wordsAll_append]
    refine ih.append ?_ h.ahead_suffix hsuffix
    obtain ⟨hahead, hle⟩ := hw.lastStop_le (h.regular.lastStop_after_le ht)
    have hlt := h.regular.nonempty t (ht ▸ .head _)
    have hstop : t.stop.offset ≤ c₂.lastStop.offset := hle
    have hword : wordsAll [⟨kind, c₂.since t.start, []⟩] = [⟨t.start, c₂.lastStop⟩] := by
      have hnot : ¬ c₂.lastStop.offset < t.start.offset := by omega
      simp [wordsAll, Node.words, hk, Cursor.since, hnot]
    rw [hword]
    exact ⟨List.forall_mem_singleton.2 ⟨t, ht ▸ .head _, rfl⟩,
      List.forall_mem_singleton.2 (Nat.lt_of_lt_of_le hlt hstop), List.forall_mem_singleton.2 hahead,
      List.pairwise_singleton _ _⟩
  | @node c c₁ c₂ ns children kind h hc hk ih ihc =>
    rw [wordsAll_append]
    refine ih.append ?_ h.ahead_suffix hc.ahead_suffix
    simpa [wordsAll, words_of_fits hk] using ihc

end Reading

theorem Grammar.parse_assembled (text : String) : (parse text).tree.Assembled := by
  obtain ⟨c', h, hparts, htail⟩ := parse_reading text
  exact ⟨rfl, h.conforms, hparts, htail⟩

namespace Declaration
open Node

def location : Declaration → Location
  | symbol _ _ location _ => location
  | grammar i => i.location

def start (d : Declaration) : Mark := d.location.start

theorem ofParts_eq_flatMap (mode? : Option String) (ns : List Node) :
    ofParts mode? ns = ns.flatMap (ofPart mode?) := by
  induction ns with
  | nil => simp [ofParts]
  | cons n ns ih => simp [ofParts, ih]

theorem ofName_leaf (kind : Symbol.Kind) (mode? : Option String) (name : String) (l : Location) :
    ofName kind mode? (.leaf (.identifier name) l) = some (symbol kind name l mode?) := rfl

theorem places_flatMap {f : Node → List Declaration} {ns : List Node}
    (h : ∀ n ∈ ns, ((f n).map location).Sublist n.words) :
    ((ns.flatMap f).map location).Sublist (wordsAll ns) := by
  rw [List.map_flatMap]
  exact flatMap_sublist_wordsAll h

theorem places_filterMap {f : Node → Option Declaration} {ns : List Node}
    (h : ∀ n ∈ ns, ((f n).toList.map location).Sublist n.words) :
    ((ns.filterMap f).map location).Sublist (wordsAll ns) := by
  rw [List.filterMap_eq_flatMap_toList]
  exact places_flatMap h

theorem places_ofName (kind : Symbol.Kind) (mode? : Option String) (n : Node) :
    ((ofName kind mode? n).toList.map location).Sublist n.words := by
  unfold ofName identifier?
  split
  · rename_i hk
    rw [words_of_isWord (by rw [hk]; rfl)]
    exact List.Sublist.refl _
  · simp

theorem places_ofDelegate (n : Node) : ((ofDelegate n).toList.map location).Sublist n.words := by
  unfold ofDelegate
  split
  · rename_i hk
    rw [words_of_isWord (by rw [hk]; rfl)]
    exact List.Sublist.refl _
  · simp

theorem places_ofOption (n : Node) : ((ofOption n).toList.map location).Sublist n.words := by
  obtain ⟨kind, l, children⟩ := n
  unfold ofOption
  split
  · rename_i value rest hk hchildren
    subst hk hchildren
    have hwords : words ⟨.option "tokenVocab", l, value :: rest⟩ = value.words ++ wordsAll rest := by
      simp [words, wordsAll, Kind.isWord]
    rw [hwords]
    split
    · rename_i hv
      rw [words_of_isWord (by rw [hv]; rfl)]
      exact (List.nil_sublist _).cons_cons _
    · rename_i hv
      rw [words_of_isWord (by rw [hv]; rfl)]
      exact (List.nil_sublist _).cons_cons _
    · simp
  · simp

end Declaration

open Declaration in
/-- A conforming node declares at its words only, and in their order. -/
theorem Node.Conforms.places {n : Node} (h : n.Conforms) (mode? : Option String) :
    ((ofPart mode? n).map Declaration.location).Sublist n.words := by
  induction h generalizing mode? with
  | @word kind l hw =>
    cases kind with
    | identifier | literal | charSet | delegate => exact List.nil_sublist _
    | _ => cases hw
  | @node kind l children hk hc ih =>
    rw [words_of_fits hk]
    cases hk with
    | @named name rest hkind hname _ hrest =>
      obtain ⟨text, heq⟩ := (hc name (.head _)).identifier (Kind.isIdentifier_of_isName hname)
      generalize name.location = l' at heq
      subst heq
      rw [wordsAll]
      cases kind with
      | parserRule => exact (List.nil_sublist _).cons_cons _
      | tokenRule => exact (List.nil_sublist _).cons_cons _
      | modeSection =>
        show (Declaration.location _ ::
          (ofPart (some text) _ ++ ofParts (some text) rest).map Declaration.location).Sublist _
        refine List.Sublist.cons_cons _ ?_
        rw [show ofPart (some text) (.leaf (.identifier text) l') = [] from rfl, ofParts_eq_flatMap]
        exact places_flatMap fun n hn => ih n (.tail _ hn) _
      | _ => cases hkind
    | plain hnamed hword hall =>
      cases kind with
      | tokenList => exact places_filterMap fun n _ => places_ofName _ _ n
      | channelList => exact places_filterMap fun n _ => places_ofName _ _ n
      | delegates => exact places_filterMap fun n _ => places_ofDelegate n
      | options => exact places_filterMap fun n _ => places_ofOption n
      | parserRule | tokenRule | modeSection => cases hnamed
      | _ => exact List.nil_sublist _

theorem Declaration.ofTree_ascending (text : String) :
    ((ofTree (Grammar.parse text).tree).map start).Pairwise (fun a b => a.offset < b.offset) := by
  obtain ⟨c', h, -⟩ := Grammar.parse_reading text
  have hplaces := places_flatMap fun n hn => (h.conforms n hn).places none
  rw [← ofParts_eq_flatMap] at hplaces
  have hall := List.pairwise_map.1 (h.words_spread.ascending.sublist hplaces)
  exact List.pairwise_map.2 hall

end GrammarAtlas
