import GrammarAtlas.Proofs.Definitions
import GrammarAtlas.Proofs.Passage

/-! # Trees are of bounded height

`Node.AtMost k n`: the tree below `n` has at most `k` levels. One lemma for each production says how
many levels its nodes have. Outside of the bodies of rules they are few. Within a body each level of
nesting adds five at most: a block, an alternative, a repetition, a label and a negation
(`ParseM.Nested.levels_within`). As the levels of nesting are limited, so is the height of all trees
(`Grammar.parse_atMost`), whatever the text. -/

namespace GrammarAtlas

namespace Node

/-- The tree of the node has at most that many levels. -/
inductive AtMost : Nat → Node → Prop
  | mk {k : Nat} {n : Node} (h : ∀ m ∈ n.children, AtMost k m) : AtMost (k + 1) n

namespace AtMost
variable {k l : Nat} {n : Node}

theorem mono (h : n.AtMost k) (hk : k ≤ l) : n.AtMost l := by
  induction h generalizing l with
  | mk _ ih =>
    obtain ⟨l, rfl⟩ : ∃ j, l = j + 1 := ⟨l - 1, by omega⟩
    exact .mk fun m hm => ih m hm (by omega)

theorem leaf {kind : Kind} {l : Location} : AtMost 1 ⟨kind, l, []⟩ := .mk nofun

/-- A path that leads down from the node has no more nodes than there are levels. -/
theorem length_le {path : List Node} (h : n.AtMost k)
    (hpath : (n :: path).IsChain fun n m => m ∈ n.children) : (n :: path).length ≤ k := by
  induction h generalizing path with
  | @mk k n _ ih =>
    cases path with
    | nil => exact Nat.succ_le_succ (Nat.zero_le _)
    | cons m path =>
      obtain ⟨hm, hpath⟩ := List.isChain_cons_cons.1 hpath
      have hlength := ih m hm hpath
      rw [List.length_cons]
      omega

/-- A walk goes no deeper than there are levels. -/
theorem depth_lt (h : n.AtMost k) (parent? : Option Node) (depth : Nat) :
    ∀ v ∈ n.visits parent? depth, v.2.1 < depth + k := by
  induction h generalizing parent? depth with
  | @mk k n _ ih =>
    obtain ⟨kind, l, children⟩ := n
    rw [visits, visitsAll_eq_flatMap]
    refine List.forall_mem_cons.2 ⟨by show depth < _; omega, fun v hv => ?_⟩
    obtain ⟨m, hm, hv⟩ := List.mem_flatMap.1 hv
    have hdepth := ih m hm _ _ v hv
    omega

end AtMost

end Node

namespace ParseM
open Lookahead Node
variable {c : Cursor} {k : Nat} {nested : Nested} {start : Mark}

/-- What `p` yields has at most `k` levels. -/
def Levels (p : ParseM Node) (k : Nat) : Prop := ∀ c, wp p (fun n _ => n.AtMost k) c

theorem Levels.mono {p : ParseM Node} {l : Nat} (h : Levels p k) (hk : k ≤ l) : Levels p l :=
  fun c => wp_mono (h c) fun _ _ hn => hn.mono hk

theorem levels_close {kind : Node.Kind} {ns : List Node} (h : ∀ n ∈ ns, n.AtMost k) :
    Levels (close kind start ns) (k + 1) :=
  fun _ => .mk h

theorem levels_close_nil {kind : Node.Kind} : Levels (close kind start []) 1 := fun _ => .leaf

theorem levels_gather {turn : ParseM (Option Node × Bool)}
    (h : ∀ c, wp turn (fun r _ => ∀ n ∈ r.1, n.AtMost k) c) :
    wp (gather turn) (fun ns _ => ∀ n ∈ ns, n.AtMost k) c := by
  refine wp_gather_of_invariant (I := fun ns _ => ∀ n ∈ ns, n.AtMost k) (fun ns c hns => ?_)
    (by simp)
  refine wp_mono (h c) fun r c' hr => List.forall_mem_append.2 ⟨hns, ?_⟩
  simpa using hr

theorem levels_missing (expected : String) :
    Levels (do reportMissing expected; close .error (← peek).start []) 1 := by
  intro c
  simp only [wp_bind]
  exact wp_of_forall fun _ c₁ => wp_of_forall fun t c₂ => .mk nofun

theorem levels_header (flavour : Flavour) : Levels (header flavour) 2 := by
  intro c
  unfold header
  simp -zeta only [wp_bind]
  refine wp_of_forall fun t c₁ => ?_
  extract_lets start children close name
  have hclose (u : Unit) (ns : List Node) (hns : ∀ n ∈ ns, n.AtMost 1) (c : Cursor) :
      wp (close u ns) (fun n _ => n.AtMost 2) c := by
    simp only [close, wp_bind]
    exact wp_of_forall fun _ c₁ => levels_close hns c₁
  have hname (u : Unit) (c : Cursor) : wp (name u) (fun n _ => n.AtMost 2) c := by
    simp only [name, wp_bind, wp_ite]
    refine wp_of_forall fun _ c₁ => wp_of_forall fun _ c₂ => ?_
    split
    · exact wp_of_forall fun t c₃ => hclose () _ (List.forall_mem_singleton.2 .leaf) c₃
    · exact wp_of_forall fun u c₃ => hclose u [] nofun c₃
  simp only [wp_bind, wp_ite]
  split
  · exact wp_of_forall fun _ c₂ => hname () c₂
  · exact hname () c₁

theorem levels_optionValue : wp optionValue (fun v? _ => ∀ v ∈ v?, v.AtMost 1) c := by
  have hclose {kind : Node.Kind} {l : Location} :
      ∀ v ∈ some (⟨kind, l, []⟩ : Node), v.AtMost 1 := by
    simpa using AtMost.leaf
  unfold optionValue
  simp only [wp_bind]
  refine wp_of_forall fun t c₁ => ?_
  split
  · simp only [wp_bind, wp_get, wp_close, wp_pure]
    exact wp_of_forall fun _ c₂ => wp_of_forall fun parts c₃ => hclose
  · simp only [wp_bind, wp_get, wp_close, wp_pure]
    exact wp_of_forall fun _ c₂ => wp_of_forall fun parts c₃ => hclose
  · simp only [wp_bind, wp_pure]
    exact wp_of_forall fun _ c₂ => hclose
  · simp only [wp_bind, wp_pure]
    exact wp_of_forall fun _ c₂ => hclose
  · simp only [wp_bind, wp_close, wp_pure]
    exact wp_of_forall fun _ c₂ => hclose
  · simp only [wp_bind, wp_pure]
    exact wp_of_forall fun _ c₂ => nofun

theorem levels_optionEntry : wp optionEntry (fun n? _ => ∀ n ∈ n?, n.AtMost 2) c := by
  unfold optionEntry
  simp only [wp_bind, wp_ite, wp_pure]
  refine wp_of_forall fun key c₁ => ?_
  split
  · exact wp_of_forall fun _ c₂ => by simp
  refine wp_of_forall fun _ c₂ => wp_of_forall fun _ c₃ => ?_
  split
  · simp
  refine wp_mono levels_optionValue fun value? c₄ hvalue => ?_
  split
  · simp only [wp_bind, wp_pure]
    refine wp_of_forall fun _ c₅ => ?_
    refine wp_mono (levels_close (List.forall_mem_singleton.2 (hvalue _ rfl)) c₅) fun n c₆ hn => ?_
    simpa using hn
  · simp [wp_pure]

theorem levels_options : Levels options 3 := by
  intro c
  unfold options
  simp only [wp_bind]
  refine wp_of_forall fun _ c₁ => wp_of_forall fun _ c₂ => ?_
  refine wp_mono (levels_gather (k := 2) fun c => ?_) fun ns c₃ hns => ?_
  · simp only [wp_bind, wp_ite, wp_pure]
    refine wp_of_forall fun _ c₁ => ?_
    split
    · simp
    · refine wp_mono levels_optionEntry fun option? c₂ hoption => ?_
      split
      · exact wp_of_forall fun _ c₃ => hoption
      · exact hoption
  · exact wp_of_forall fun _ c₄ => levels_close hns c₄

theorem levels_delegate (first : Token) : Levels (delegate first) 1 := by
  intro c
  unfold delegate
  simp only [wp_bind, wp_ite]
  refine wp_of_forall fun _ c₁ => wp_of_forall fun _ c₂ => ?_
  split
  · refine wp_of_forall fun second c₃ => ?_
    split
    · exact wp_of_forall fun _ c₄ => .leaf
    · exact wp_of_forall fun _ c₄ => .leaf
  · exact .leaf

theorem levels_delegates : Levels delegates 2 := by
  intro c
  unfold delegates
  simp only [wp_bind]
  refine wp_of_forall fun _ c₁ => ?_
  refine wp_mono (levels_gather (k := 1) fun c => ?_) fun ns c₂ hns => ?_
  · simp only [wp_bind, wp_ite, wp_pure]
    refine wp_of_forall fun first c₁ => ?_
    split
    · refine wp_mono (levels_delegate first c₁) fun n c₂ hn => ?_
      exact wp_of_forall fun _ c₃ => by simpa using hn
    · exact wp_of_forall fun _ c₂ => by simp
  · exact wp_of_forall fun _ c₃ => levels_close hns c₃

theorem levels_nameList (kind : Node.Kind) : Levels (nameList kind) 2 := by
  intro c
  unfold nameList
  simp only [wp_bind]
  refine wp_of_forall fun _ c₁ => wp_of_forall fun _ c₂ => ?_
  refine wp_mono (levels_gather (k := 1) fun c => ?_) fun ns c₃ hns => ?_
  · simp only [wp_bind, wp_ite, wp_pure]
    refine wp_of_forall fun _ c₁ => ?_
    split
    · refine wp_of_forall fun t c₂ => wp_of_forall fun _ c₃ => ?_
      simp [identifier, Node.leaf, AtMost.leaf]
    · simp
  · exact wp_of_forall fun _ c₄ => levels_close hns c₄

theorem levels_namedAction : Levels namedAction 1 := by
  intro c
  unfold namedAction
  simp -zeta only [wp_bind]
  refine wp_of_forall fun _ c₁ => ?_
  extract_lets start close
  have hclose (u : Unit) (name : String) (c : Cursor) :
      wp (close u name) (fun n _ => n.AtMost 1) c := by
    simp only [close, wp_bind]
    exact wp_of_forall fun _ c₁ => .leaf
  simp only [wp_bind, wp_ite]
  refine wp_of_forall fun name? c₂ => wp_of_forall fun _ c₃ => ?_
  split
  · refine wp_of_forall fun part? c₄ => ?_
    split
    · exact hclose () _ c₄
    · exact hclose () _ c₄
  · exact hclose () _ c₃

theorem levels_prequel : wp prequel (fun n? _ => ∀ n ∈ n?, n.AtMost 3) c := by
  unfold prequel
  simp only [wp_bind, wp_ite, wp_pure, Option.mem_some_iff, forall_eq']
  refine wp_of_forall fun _ c₁ => ?_
  split
  · exact levels_options c₁
  refine wp_of_forall fun _ c₂ => ?_
  split
  · exact (levels_nameList _).mono (by omega) c₂
  refine wp_of_forall fun _ c₃ => ?_
  split
  · exact (levels_nameList _).mono (by omega) c₃
  refine wp_of_forall fun _ c₄ => ?_
  split
  · exact levels_delegates.mono (by omega) c₄
  refine wp_of_forall fun _ c₅ => ?_
  split
  · exact levels_namedAction.mono (by omega) c₅
  · simp

/-! ## Bodies of rules -/

theorem levels_command (name : Token) : Levels (command name) 2 := by
  intro c
  unfold command
  simp -zeta only [wp_bind]
  refine wp_of_forall fun _ c₁ => ?_
  extract_lets arguments close argued
  have hclose (u : Unit) (ns : List Node) (hns : ∀ n ∈ ns, n.AtMost 1) (c : Cursor) :
      wp (close u ns) (fun n _ => n.AtMost 2) c :=
    levels_close hns c
  have hargued (u : Unit) (ns : List Node) (hns : ∀ n ∈ ns, n.AtMost 1) (c : Cursor) :
      wp (argued u ns) (fun n _ => n.AtMost 2) c := by
    simp only [argued, wp_bind]
    exact wp_of_forall fun _ c₁ => hclose () ns hns c₁
  simp only [wp_bind, wp_ite]
  refine wp_of_forall fun paren? c₂ => ?_
  split
  · refine wp_of_forall fun argument c₃ => ?_
    split
    · refine wp_of_forall fun _ c₄ => hargued () _ (List.forall_mem_singleton.2 .leaf) c₄
    · split
      · refine wp_of_forall fun _ c₄ => hargued () _ (List.forall_mem_singleton.2 .leaf) c₄
      · exact wp_of_forall fun u c₄ => hargued u [] nofun c₄
  · exact hclose () [] nofun c₂

theorem levels_commands : Levels commands 3 := by
  intro c
  unfold ParseM.commands
  simp only [wp_bind]
  refine wp_of_forall fun _ c₁ => ?_
  refine wp_mono (levels_gather (k := 2) fun c => ?_) fun ns c₂ hns => levels_close hns c₂
  simp only [wp_bind, wp_ite, wp_pure]
  refine wp_of_forall fun name c₁ => ?_
  split
  · refine wp_mono (levels_command name c₁) fun n c₂ hn => ?_
    exact wp_of_forall fun _ c₃ => by simpa using hn
  · exact wp_of_forall fun _ c₂ => by simp

theorem levels_repeated {e : Node} (he : e.AtMost k) : Levels (repeated start e) (k + 1) := by
  intro c
  unfold repeated
  simp only [wp_bind]
  refine wp_of_forall fun t c₁ => ?_
  split
  · exact he.mono (by omega)
  · simp only [wp_bind]
    refine wp_of_forall fun _ c₂ => wp_of_forall fun _ c₃ => ?_
    exact levels_close (List.forall_mem_singleton.2 he) c₃

theorem levels_skipGarbage : Levels skipGarbage 1 := by
  intro c
  unfold skipGarbage
  simp only [wp_bind]
  refine wp_of_forall fun _ c₁ => wp_of_forall fun _ c₂ => wp_of_forall fun _ c₃ => ?_
  exact wp_of_forall fun _ c₄ => .mk nofun

theorem levels_deepBlock : Levels deepBlock 1 := by
  intro c
  unfold deepBlock
  simp only [wp_bind]
  refine wp_of_forall fun _ c₁ => wp_of_forall fun _ c₂ => ?_
  exact wp_of_forall fun _ c₃ => .mk nofun

/-- Both productions yield at most `k` levels. -/
structure Nested.Bounded (nested : Nested) (k : Nat) : Prop where
  pos : 1 ≤ k
  block : Levels nested.block k
  atom : Levels nested.atom k

namespace Nested.Bounded

theorem labelTarget (h : nested.Bounded k) : Levels (labelTarget nested) k := by
  intro c
  unfold ParseM.labelTarget
  simp only [wp_bind, wp_ite]
  refine wp_of_forall fun _ c₁ => ?_
  split
  · exact h.block c₁
  refine wp_of_forall fun _ c₂ => ?_
  split
  · exact h.atom c₂
  · exact (levels_missing _).mono h.pos c₂

/-- A label and a repetition add one level each. -/
theorem element (h : nested.Bounded k) : Levels (element nested) (k + 2) := by
  intro c
  unfold ParseM.element
  simp only [wp_bind, wp_peek, wp_sees, wp_seesKind, wp_ite]
  split
  · refine wp_of_forall fun _ c₁ => wp_of_forall fun _ c₂ => ?_
    refine wp_mono (h.labelTarget c₂) fun target c₃ ht => ?_
    exact levels_repeated (.mk (List.forall_mem_singleton.2 ht)) c₃
  split
  · refine wp_mono (h.block c) fun e c₁ he => (levels_repeated he).mono (by omega) c₁
  refine wp_of_forall fun _ c₁ => ?_
  split
  · refine wp_of_forall fun _ c₂ => ?_
    split
    · exact wp_of_forall fun _ c₃ => AtMost.leaf.mono (by omega)
    · exact AtMost.leaf.mono (by omega)
  · refine wp_mono (h.atom c₁) fun e c₂ he => (levels_repeated he).mono (by omega) c₂

theorem alternative (h : nested.Bounded k) : Levels (alternative nested) (k + 3) := by
  intro c
  unfold ParseM.alternative
  simp -zeta only [wp_bind, wp_peek]
  extract_lets start children label? elements
  have helements (u : Unit) (ns : List Node) (hns : ∀ n ∈ ns, n.AtMost (k + 2)) (c : Cursor) :
      wp (elements u ns) (fun n _ => n.AtMost (k + 3)) c := by
    simp -zeta only [elements, wp_bind]
    refine wp_mono (levels_gather (k := k + 2) fun c => ?element) fun ms c₁ hms => ?label
    case element =>
      simp only [wp_bind, wp_sees, wp_ite, wp_pure]
      split
      · split
        · exact wp_mono (h.element c) fun n c₁ hn => by simpa using hn
        · have hskip : Levels skipGarbage (k + 2) := levels_skipGarbage.mono (by omega)
          exact wp_mono (hskip c) fun n c₁ hn => by simpa using hn
      · simp
    case label =>
      have hall := List.forall_mem_append.2 ⟨hns, hms⟩
      extract_lets all commanded
      have hcommanded (u : Unit) (label? : Option String) (c : Cursor) :
          wp (commanded u label?) (fun n _ => n.AtMost (k + 3)) c := by
        simp only [commanded, wp_bind, wp_seesKind, wp_ite]
        split
        · have hpos := h.pos
          refine wp_mono (levels_commands c) fun node c₁ hnode => levels_close ?_ c₁
          exact List.forall_mem_append.2 ⟨hall, List.forall_mem_singleton.2 (hnode.mono (by omega))⟩
        · exact levels_close hall c
      simp only [wp_bind, wp_ite]
      refine wp_of_forall fun _ c₂ => ?_
      split
      · refine wp_of_forall fun _ c₃ => ?_
        split
        · exact wp_of_forall fun t c₄ => hcommanded () (some t.text) c₄
        · exact wp_of_forall fun u c₄ => hcommanded u none c₄
      · exact hcommanded () none c₂
  simp only [wp_bind]
  refine wp_of_forall fun options? c₁ => ?_
  split
  · simp only [wp_bind]
    refine wp_mono (levels_close_nil c₁) fun n c₂ hn => ?_
    exact helements () [n] (List.forall_mem_singleton.2 (AtMost.mono hn (by omega))) c₂
  · exact helements () [] nofun c₁

theorem alternativeList (h : nested.Bounded k) :
    wp (alternativeList nested) (fun ns _ => ∀ n ∈ ns, n.AtMost (k + 3)) c := by
  refine levels_gather fun c => ?_
  simp only [wp_bind, wp_pure]
  refine wp_mono (h.alternative c) fun n c₁ hn => wp_of_forall fun _ c₂ => ?_
  simpa using hn

theorem levels_block (h : nested.Bounded k) : Levels (ParseM.block nested) (k + 4) := by
  intro c
  unfold ParseM.block
  simp -zeta only [wp_bind]
  refine wp_of_forall fun opening c₁ => ?_
  extract_lets start body
  have hbody (u : Unit) (c : Cursor) : wp (body u) (fun n _ => n.AtMost (k + 4)) c := by
    simp only [body, wp_bind]
    refine wp_mono h.alternativeList fun ns c₁ hns => wp_of_forall fun _ c₂ => ?_
    exact levels_close hns c₂
  simp only [wp_bind, wp_ite]
  refine wp_of_forall fun _ c₂ => ?_
  split
  · exact wp_of_forall fun _ c₃ => wp_of_forall fun _ c₄ => hbody () c₄
  · exact hbody () c₂

end Nested.Bounded

theorem levels_negand {nested? : Option Nested} (sign : Token) (hk : 1 ≤ k)
    (h : ∀ nested ∈ nested?, nested.Bounded k) : Levels (negand sign nested?) k := by
  intro c
  unfold negand
  split
  · simp only [wp_bind]
    refine wp_of_forall fun _ c₁ => wp_of_forall fun _ c₂ => ?_
    exact levels_close_nil.mono hk c₂
  · rename_i nested
    simp only [wp_bind, wp_ite]
    refine wp_of_forall fun _ c₁ => ?_
    split
    · exact (h nested rfl).block c₁
    refine wp_of_forall fun _ c₂ => ?_
    split
    · exact (h nested rfl).atom c₂
    · exact (levels_missing _).mono hk c₂

theorem levels_atom {nested? : Option Nested} (hk : 1 ≤ k)
    (h : ∀ nested ∈ nested?, nested.Bounded k) : Levels (ParseM.atom nested?) (k + 1) := by
  intro c
  have hleaf {kind : Node.Kind} {l : Location} : AtMost (k + 1) (.leaf kind l) :=
    AtMost.leaf.mono (by omega)
  have hclose {kind : Node.Kind} {start : Mark} : Levels (close kind start []) (k + 1) :=
    levels_close_nil.mono (by omega)
  have hrange {start : Mark} {ns : List Node} (hns : ∀ n ∈ ns, n.AtMost 1) :
      Levels (close .range start ns) (k + 1) := (levels_close hns).mono (by omega)
  unfold ParseM.atom
  simp only [wp_bind, wp_peek]
  split
  · simp only [wp_bind, wp_pure]
    exact wp_of_forall fun _ c₁ => wp_of_forall fun _ c₂ => hleaf
  · simp only [wp_bind, wp_pure]
    exact wp_of_forall fun _ c₁ => wp_of_forall fun _ c₂ => wp_of_forall fun _ c₃ => hleaf
  · simp only [wp_bind, wp_ite, wp_pure]
    refine wp_of_forall fun _ c₁ => wp_of_forall fun _ c₂ => ?_
    split
    · refine wp_of_forall fun last? c₃ => ?_
      split
      · exact hrange (by simp [literal, AtMost.leaf, Node.leaf]) c₃
      · simp only [wp_bind]
        exact wp_of_forall fun _ c₄ => hrange (by simp [literal, AtMost.leaf, Node.leaf]) c₄
    · exact wp_of_forall fun _ c₃ => hleaf
  · simp only [wp_bind, wp_pure]
    exact wp_of_forall fun _ c₁ => hleaf
  · simp only [wp_bind]
    exact wp_of_forall fun _ c₁ => wp_of_forall fun _ c₂ => hclose c₂
  · simp only [wp_bind]
    refine wp_of_forall fun _ c₁ => ?_
    refine wp_mono (levels_negand _ hk h c₁) fun n c₂ hn => ?_
    exact levels_close (List.forall_mem_singleton.2 hn) c₂
  · simp only [wp_bind]
    exact wp_of_forall fun _ c₁ => hclose c₁

/-- A level more makes a body five levels higher at most. -/
theorem Nested.levels_within (room : Nat) :
    Levels (within room).block (5 * room + 1) ∧ Levels (within room).atom (5 * room + 2) := by
  induction room with
  | zero => exact ⟨levels_deepBlock, levels_atom le_rfl (by simp)⟩
  | succ room ih =>
    obtain ⟨hblock, hatom⟩ := ih
    have hinner : (within room).Bounded (5 * room + 2) :=
      ⟨by omega, hblock.mono (by omega), hatom⟩
    have houter : Nested.Bounded ⟨ParseM.block (within room), (within room).atom⟩
        (5 * (room + 1) + 1) :=
      ⟨by omega, hinner.levels_block, hatom.mono (by omega)⟩
    refine ⟨hinner.levels_block, levels_atom (by omega) ?_⟩
    simpa using houter

theorem levels_alternatives : Levels alternatives (5 * nestingLimit + 6) := by
  intro c
  unfold ParseM.alternatives
  simp only [wp_bind]
  obtain ⟨hblock, hatom⟩ := Nested.levels_within nestingLimit
  have hbounded : (Nested.within nestingLimit).Bounded (5 * nestingLimit + 2) :=
    ⟨by omega, hblock.mono (by omega), hatom⟩
  refine wp_of_forall fun t c₁ => wp_mono hbounded.alternativeList fun ns c₂ hns => ?_
  exact levels_close hns c₂

/-! ## Rules, modes and the whole grammar -/

theorem levels_clause (w : String) : wp (clause w) (fun ns _ => ∀ n ∈ ns, n.AtMost 1) c := by
  unfold clause
  simp only [wp_bind, wp_ite, wp_pure]
  refine wp_of_forall fun _ c₁ => ?_
  split
  · refine wp_of_forall fun _ c₂ => wp_of_forall fun argument c₃ => ?_
    exact List.forall_mem_singleton.2 .leaf
  · simp

theorem levels_rulePrequel : wp rulePrequel (fun ns _ => ∀ n ∈ ns, n.AtMost 3) c := by
  unfold rulePrequel
  extract_lets children rest
  have hrest (u : Unit) (ns : List Node) (hns : ∀ n ∈ ns, n.AtMost 1) (c : Cursor) :
      wp (rest u ns) (fun ns _ => ∀ n ∈ ns, n.AtMost 3) c := by
    simp only [rest, wp_bind, wp_pure]
    refine wp_mono (levels_clause _) fun returns c₁ hreturns => wp_of_forall fun _ c₂ => ?_
    refine wp_mono (levels_clause _) fun locals c₃ hlocals => ?_
    refine wp_mono (levels_gather (k := 3) fun c => ?_) fun declarations c₄ hdeclarations => ?_
    · simp only [wp_bind, wp_ite, wp_pure, Option.mem_some_iff, forall_eq']
      refine wp_of_forall fun _ c₁ => ?_
      split
      · exact levels_options c₁
      refine wp_of_forall fun _ c₂ => ?_
      split
      · exact levels_namedAction.mono (by omega) c₂
      · simp
    · have hclauses := List.forall_mem_append.2 ⟨List.forall_mem_append.2 ⟨hns, hreturns⟩, hlocals⟩
      refine List.forall_mem_append.2 ⟨fun n hn => ?_, hdeclarations⟩
      exact (hclauses n hn).mono (by omega)
  simp only [wp_bind]
  refine wp_of_forall fun arguments? c₁ => ?_
  split
  · simp only [wp_bind, wp_close]
    exact hrest () _ (List.forall_mem_singleton.2 .leaf) c₁
  · exact hrest () [] nofun c₁

theorem levels_handler : Levels handler 1 := by
  intro c
  unfold ParseM.handler
  simp only [wp_bind, wp_ite]
  refine wp_of_forall fun word c₁ => ?_
  split
  · exact wp_of_forall fun _ c₂ => wp_of_forall fun _ c₃ => .leaf
  · exact wp_of_forall fun _ c₂ => .leaf

theorem levels_gatherWhile {condition : List Token → Bool} {p : ParseM Node} (h : Levels p k) :
    wp (gatherWhile condition p) (fun ns _ => ∀ n ∈ ns, n.AtMost k) c := by
  refine levels_gather fun c => ?_
  simp only [wp_bind, wp_ite, wp_pure]
  refine wp_of_forall fun _ c₁ => ?_
  split
  · exact wp_mono (h c₁) fun n c₂ hn => by simpa using hn
  · simp

section
variable (flavour : Flavour)

theorem levels_tokenRule (start : Mark) (fragment : Bool) (name : Token) :
    Levels (tokenRule flavour start fragment name) (5 * nestingLimit + 7) := by
  intro c
  unfold ParseM.tokenRule
  extract_lets children close body options
  have hbody (u : Unit) (ns : List Node) (hns : ∀ n ∈ ns, n.AtMost 3) (c : Cursor) :
      wp (body u ns) (fun n _ => n.AtMost (5 * nestingLimit + 7)) c := by
    have hns' : ∀ n ∈ ns, n.AtMost (5 * nestingLimit + 6) := fun n hn => (hns n hn).mono (by omega)
    simp only [body, wp_bind, wp_ite]
    refine wp_of_forall fun colon? c₁ => ?_
    split
    · exact wp_of_forall fun _ c₂ => levels_close hns' c₂
    · refine wp_mono (levels_alternatives c₁) fun n c₂ hn => wp_of_forall fun _ c₃ => ?_
      exact levels_close (List.forall_mem_append.2 ⟨hns', List.forall_mem_singleton.2 hn⟩) c₃
  have hname : ∀ n ∈ children, n.AtMost 3 :=
    List.forall_mem_singleton.2 (AtMost.leaf.mono (by omega))
  have hoptions (u : Unit) (c : Cursor) :
      wp (options u) (fun n _ => n.AtMost (5 * nestingLimit + 7)) c := by
    simp only [options, wp_bind, wp_ite]
    refine wp_of_forall fun _ c₁ => ?_
    split
    · refine wp_mono (levels_options c₁) fun n c₂ hn => hbody () _ ?_ c₂
      exact List.forall_mem_append.2 ⟨hname, List.forall_mem_singleton.2 hn⟩
    · exact hbody () _ hname c₁
  simp only [wp_bind, wp_ite]
  refine wp_of_forall fun _ c₁ => ?_
  split
  · exact wp_of_forall fun u c₂ => hoptions u c₂
  · exact hoptions () c₁

theorem levels_parserRule (start : Mark) (name : Token) :
    Levels (parserRule flavour start name) (5 * nestingLimit + 7) := by
  intro c
  unfold ParseM.parserRule
  extract_lets close prequel
  have hprequel (u : Unit) (c : Cursor) :
      wp (prequel u) (fun n _ => n.AtMost (5 * nestingLimit + 7)) c := by
    simp only [prequel, wp_bind, wp_ite]
    refine wp_mono levels_rulePrequel fun ns c₁ hns => ?_
    have hhead : ∀ n ∈ identifier name :: ns, n.AtMost (5 * nestingLimit + 6) :=
      List.forall_mem_cons.2
        ⟨AtMost.leaf.mono (by omega), fun n hn => (hns n hn).mono (by omega)⟩
    refine wp_of_forall fun colon? c₂ => ?_
    split
    · exact wp_of_forall fun _ c₃ => levels_close hhead c₃
    · refine wp_mono (levels_alternatives c₂) fun n c₃ hn => wp_of_forall fun _ c₄ => ?_
      refine wp_mono (levels_gatherWhile levels_handler) fun handlers c₅ hhandlers => ?_
      have hbody := List.forall_mem_append.2 ⟨hhead, List.forall_mem_singleton.2 hn⟩
      refine levels_close (List.forall_mem_append.2 ⟨hbody, fun n hn => ?_⟩) c₅
      exact (hhandlers n hn).mono (by omega)
  simp only [wp_bind, wp_ite]
  refine wp_of_forall fun _ c₁ => ?_
  split
  · exact wp_of_forall fun u c₂ => hprequel u c₂
  · exact hprequel () c₁

theorem levels_rule : Levels (rule flavour) (5 * nestingLimit + 7) := by
  intro c
  unfold rule
  simp only [wp_bind]
  refine wp_of_forall fun _ c₁ => wp_of_forall fun _ c₂ => wp_of_forall fun fragment c₃ => ?_
  refine wp_of_forall fun name c₄ => ?_
  split
  · exact levels_tokenRule flavour _ _ _ c₄
  · exact levels_parserRule flavour _ _ c₄
  · simp only [wp_bind]
    refine wp_of_forall fun _ c₅ => wp_of_forall fun _ c₆ => ?_
    exact levels_close_nil.mono (by omega) c₆

theorem levels_modeSection : Levels (modeSection flavour) (5 * nestingLimit + 8) := by
  intro c
  unfold ParseM.modeSection
  simp -zeta only [wp_bind]
  refine wp_of_forall fun _ c₁ => ?_
  extract_lets start
  simp -zeta only [wp_bind]
  refine wp_of_forall fun name c₂ => ?_
  extract_lets rules
  have hrules (u : Unit) (c : Cursor) :
      wp (rules u) (fun n _ => n.AtMost (5 * nestingLimit + 8)) c := by
    simp only [rules, wp_bind]
    refine wp_of_forall fun _ c₁ => ?_
    refine wp_mono (levels_gatherWhile (levels_rule flavour)) fun ns c₂ hns => ?_
    exact levels_close (List.forall_mem_cons.2 ⟨AtMost.leaf.mono (by omega), hns⟩) c₂
  simp only [wp_bind, wp_ite]
  split
  · exact wp_of_forall fun u c₃ => hrules u c₃
  · exact hrules () c₂

theorem levels_grammarPart : Levels (grammarPart flavour) (5 * nestingLimit + 8) := by
  intro c
  unfold grammarPart
  simp only [wp_bind]
  refine wp_mono levels_prequel fun n? c₁ hn => ?_
  split
  · exact (hn _ rfl).mono (by omega)
  · simp only [wp_bind, wp_ite]
    refine wp_of_forall fun _ c₂ => ?_
    split
    · exact levels_modeSection flavour c₂
    · exact (levels_rule flavour).mono (by omega) c₂

end

theorem levels_grammarHeader : wp grammarHeader (fun r _ => ∀ n ∈ r.1, n.AtMost 2) c := by
  unfold grammarHeader
  simp only [wp_bind]
  refine wp_of_forall fun _ c₁ => ?_
  split
  · simp only [wp_bind, wp_pure]
    exact wp_mono (levels_header _ c₁) fun n c₂ hn => List.forall_mem_singleton.2 hn
  · simp only [wp_bind, wp_pure]
    exact wp_of_forall fun _ c₂ => wp_of_forall fun _ c₃ => nofun

theorem levels_grammar : Levels grammar (5 * nestingLimit + 9) := by
  intro c
  unfold ParseM.grammar
  simp only [wp_bind]
  refine wp_mono levels_grammarHeader fun (first, flavour) c₁ hfirst => ?_
  refine wp_mono (levels_gatherWhile (levels_grammarPart flavour)) fun parts c₂ hparts => ?_
  refine .mk (List.forall_mem_append.2 ⟨fun n hn => ?_, hparts⟩)
  exact (hfirst n hn).mono (by omega)

end ParseM

/-- However deep a text nests, its tree does not. -/
theorem Grammar.parse_atMost (text : String) :
    (parse text).tree.AtMost (5 * nestingLimit + 9) := by
  rw [parse_eq]
  exact ParseM.levels_grammar _

end GrammarAtlas
