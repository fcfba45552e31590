import GrammarAtlas.Proofs.TreeShape

/-! # Two ways to find what a text defines

A symbol table is made from the parts of a tree, a resolution from a walk over all of its nodes. On
a tree of the parser both see the same definitions in the same order (`definitions_parse`): the walk
finds no definition below a node that declares nothing, and each declaring node has the one name
that stands first. -/

namespace GrammarAtlas

namespace Occurrence

def isDefinition (o : Occurrence) : Bool := o.role == .definition

/-- The definition at the identifier `n` below `parent`, if it is one. -/
def definition? (parent n : Node) : Option Occurrence :=
  n.identifier?.bind fun name =>
    match role? parent n name with
    | some (.definition, ns) => some ⟨name, n.location, .definition, ns, .own⟩
    | _ => none

/-- The definition at a node that a walk visits. -/
def definitionAt (visit : Option Node × Nat × Node) : Option Occurrence :=
  visit.1.bind fun parent => definition? parent visit.2.2

end Occurrence

/-- The definition that a declaration of a symbol is. -/
def Declaration.occurrence? : Declaration → Option Occurrence
  | symbol kind name location _ =>
    kind.namespace?.map fun ns => ⟨name, location, .definition, ns, .own⟩
  | grammar _ => none

theorem Declaration.location_of_occurrence? {d : Declaration} {o : Occurrence}
    (h : d.occurrence? = some o) : o.location = d.location := by
  cases d with
  | symbol kind name l mode? =>
    obtain ⟨ns, -, rfl⟩ := Option.map_eq_some_iff.1 h
    rfl
  | grammar i => cases h

namespace Node

/-- Kinds of nodes below which identifiers are definitions. -/
def Kind.declares : Kind → Bool
  | .parserRule | .tokenRule _ | .modeSection | .tokenList | .channelList => true
  | _ => false

open Occurrence Declaration

theorem declares_of_role? {parent n : Node} {name : String} {ns : Namespace}
    (h : role? parent n name = some (.definition, ns)) : parent.kind.declares := by
  unfold role? at h
  split at h
  case h_1 hk | h_2 hk | h_3 hk | h_4 hk | h_5 hk => rw [hk]; rfl
  all_goals cases h

theorem definition?_eq_none {parent n : Node} (h : parent.kind.declares = false) :
    definition? parent n = none := by
  unfold definition?
  rw [Option.bind_eq_none_iff]
  intro name _
  split
  · rename_i hr
    rw [declares_of_role? hr] at h
    cases h
  · rfl

theorem definitionAt_of_not_isIdentifier {n : Node} (h : n.kind.isIdentifier = false)
    (parent? : Option Node) (depth : Nat) : definitionAt (parent?, depth, n) = none := by
  obtain ⟨kind, l, children⟩ := n
  cases parent? with
  | none => rfl
  | some parent =>
    cases kind with
    | identifier => cases h
    | _ => rfl

theorem visitsAll_eq_flatMap (parent? : Option Node) (depth : Nat) (ns : List Node) :
    visitsAll parent? depth ns = ns.flatMap (visits parent? depth) := by
  induction ns with
  | nil => simp [visitsAll]
  | cons n ns ih => simp [visitsAll, ih]

theorem filterMap_visitsAll {α : Type} (f : Option Node × Nat × Node → Option α)
    (parent? : Option Node) (depth : Nat) (ns : List Node) :
    (visitsAll parent? depth ns).filterMap f =
      ns.flatMap fun n => (visits parent? depth n).filterMap f := by
  rw [visitsAll_eq_flatMap, List.filterMap_flatMap]

theorem occurrences_ofPart {n : Node} (h : n.kind.declares = false) (mode? : Option String) :
    (ofPart mode? n).filterMap occurrence? = [] := by
  obtain ⟨kind, l, children⟩ := n
  have himport {f : Node → Option Declaration} (hf : ∀ n d, f n = some d → d.occurrence? = none) :
      (children.filterMap f).filterMap occurrence? = [] := by
    rw [List.filterMap_eq_nil_iff]
    intro d hd
    obtain ⟨n, -, hn⟩ := List.mem_filterMap.1 hd
    exact hf n d hn
  cases kind with
  | parserRule | tokenRule | modeSection | tokenList | channelList => cases h
  | delegates =>
    refine himport fun n d hd => ?_
    unfold ofDelegate at hd
    split at hd
    · cases hd; rfl
    · cases hd
  | options =>
    refine himport fun n d hd => ?_
    unfold ofOption at hd
    split at hd
    · split at hd
      · cases hd; rfl
      · cases hd; rfl
      · cases hd
    · cases hd
  | _ => rfl

theorem Kind.declares_of_admits {parent child : Kind} (hp : parent.declares = false)
    (h : parent.admits child) : child.declares = false := by
  cases child with
  | parserRule | tokenRule | modeSection | tokenList | channelList =>
    cases parent with
    | parserRule | tokenRule | modeSection | tokenList | channelList => cases hp
    | _ => cases h
  | _ => rfl

theorem Kind.isClause_declares {kind : Kind} (h : kind.isClause) :
    kind.isIdentifier = false ∧ kind.declares = false := by
  cases kind with
  | options | namedAction | action | alternatives | handler => exact ⟨rfl, rfl⟩
  | _ => cases h

theorem Kind.isRule_isIdentifier {kind : Kind} (h : kind.isRule) : kind.isIdentifier = false := by
  cases kind with
  | identifier => cases h
  | _ => rfl

theorem filterMap_visits_leaf (name : String) (l : Location) (parent : Node) (depth : Nat) :
    (visits (some parent) depth (.leaf (.identifier name) l)).filterMap definitionAt =
      (definition? parent (.leaf (.identifier name) l)).toList := by
  have hvisits : visits (some parent) depth (.leaf (.identifier name) l) =
      [(some parent, depth, .leaf (.identifier name) l)] := by
    simp [leaf, visits, visitsAll]
  have hat : definitionAt (some parent, depth, .leaf (.identifier name) l) =
      definition? parent (.leaf (.identifier name) l) := rfl
  rw [hvisits, List.filterMap_cons, hat]
  cases definition? parent (.leaf (.identifier name) l) <;> rfl

theorem definition?_named {kind : Kind} (hk : kind.isNamed) (name : String) (l l' : Location)
    (rest : List Node) :
    definition? ⟨kind, l, .leaf (.identifier name) l' :: rest⟩ (.leaf (.identifier name) l') =
      match kind with
      | .parserRule => some ⟨name, l', .definition, .rule, .own⟩
      | .tokenRule _ => some ⟨name, l', .definition, .token, .own⟩
      | _ => some ⟨name, l', .definition, .mode, .own⟩ := by
  have hname : isNameOf (.leaf (.identifier name) l')
      ⟨kind, l, .leaf (.identifier name) l' :: rest⟩ := by
    simp [isNameOf, nameNode?, isIdentifier, identifier?, leaf]
  rw [leaf] at hname ⊢
  cases kind with
  | parserRule | tokenRule | modeSection => simp [definition?, identifier?, role?, hname]
  | _ => cases hk

/-- The walk finds in `n` what `n` declares, wherever `n` stands. -/
def Finds (n : Node) : Prop :=
  ∀ (mode? : Option String) (parent? : Option Node) (depth : Nat),
    (visits parent? depth n).filterMap definitionAt = (ofPart mode? n).filterMap occurrence?

namespace Finds
variable {kind : Kind} {l : Location} {name : Node} {children rest : List Node}

theorem word (hw : kind.isWord) (hn : kind.isIdentifier = false) : Finds ⟨kind, l, []⟩ := by
  intro mode? parent? depth
  rw [visits, visitsAll, List.filterMap_cons, definitionAt_of_not_isIdentifier hn]
  cases kind with
  | literal | charSet | delegate => rfl
  | identifier => cases hn
  | _ => cases hw

/-- Below a node that declares nothing there is no definition. -/
theorem plain (hn : kind.isIdentifier = false) (hd : kind.declares = false)
    (hall : ∀ m ∈ children, kind.admits m.kind) (hc : ∀ m ∈ children, m.Conforms)
    (hf : ∀ m ∈ children, m.kind.isIdentifier = false → m.Finds) : Finds ⟨kind, l, children⟩ := by
  intro mode? parent? depth
  rw [visits, List.filterMap_cons, definitionAt_of_not_isIdentifier hn]
  simp only [filterMap_visitsAll]
  rw [occurrences_ofPart hd, List.flatMap_eq_nil_iff]
  intro m hm
  cases hm' : m.kind.isIdentifier with
  | true =>
    obtain ⟨name, heq⟩ := (hc m hm).identifier hm'
    rw [heq, filterMap_visits_leaf, definition?_eq_none hd]
    rfl
  | false => rw [hf m hm hm' none, occurrences_ofPart (Kind.declares_of_admits hd (hall m hm))]

/-- A rule or a mode is defined at the name that stands first. -/
theorem named (hkind : kind.isNamed) (hname : name.kind.isName) (hc : name.Conforms)
    (hrest : ∀ m ∈ rest, kind.admits m.kind)
    (hf : ∀ m ∈ rest, m.kind.isIdentifier = false → m.Finds) : Finds ⟨kind, l, name :: rest⟩ := by
  intro mode? parent? depth
  have hn : kind.isIdentifier = false := by
    cases kind with
    | identifier => cases hkind
    | _ => rfl
  obtain ⟨text, heq⟩ := hc.identifier (Kind.isIdentifier_of_isName hname)
  generalize name.location = l' at heq
  subst heq
  rw [visits, List.filterMap_cons, definitionAt_of_not_isIdentifier hn]
  simp only [filterMap_visitsAll]
  rw [List.flatMap_cons, filterMap_visits_leaf, definition?_named hkind]
  have hclauses (hrest : ∀ m ∈ rest, m.kind.isClause) (parent? : Option Node) (depth : Nat) :
      (rest.flatMap fun m => (visits parent? depth m).filterMap definitionAt) = [] := by
    rw [List.flatMap_eq_nil_iff]
    intro m hm
    obtain ⟨hi, hd⟩ := Kind.isClause_declares (hrest m hm)
    rw [hf m hm hi none, occurrences_ofPart hd]
  cases kind with
  | parserRule => rw [hclauses hrest]; rfl
  | tokenRule fragment => rw [hclauses hrest]; cases fragment <;> rfl
  | modeSection =>
    show (_ :: rest.flatMap _) = _ :: (ofParts (some text) rest).filterMap occurrence?
    rw [ofParts_eq_flatMap, List.filterMap_flatMap]
    congr 1
    exact List.flatMap_congr fun m hm => hf m hm (Kind.isRule_isIdentifier (hrest m hm)) _ _ _
  | _ => cases hkind

/-- Each child of a list of names is a definition. -/
theorem names {sk : Symbol.Kind} {ns : Namespace} (hn : kind.isIdentifier = false)
    (hids : ∀ m ∈ children, m.kind.isName) (hc : ∀ m ∈ children, m.Conforms)
    (hns : sk.namespace? = some ns)
    (hpart : ∀ mode?, ofPart mode? ⟨kind, l, children⟩ = children.filterMap (ofName sk none))
    (hdef : ∀ name l', definition? ⟨kind, l, children⟩ (.leaf (.identifier name) l') =
      some ⟨name, l', .definition, ns, .own⟩) : Finds ⟨kind, l, children⟩ := by
  intro mode? parent? depth
  rw [visits, List.filterMap_cons, definitionAt_of_not_isIdentifier hn]
  simp only [filterMap_visitsAll]
  rw [hpart, List.filterMap_filterMap, List.filterMap_eq_flatMap_toList]
  refine List.flatMap_congr fun m hm => ?_
  obtain ⟨name, heq⟩ := (hc m hm).identifier (Kind.isIdentifier_of_isName (hids m hm))
  rw [heq, filterMap_visits_leaf, hdef, ofName_leaf]
  simp [occurrence?, hns]

end Finds

/-- The walk finds in a part of a grammar what the part declares. -/
theorem Conforms.finds {n : Node} (h : n.Conforms) (hn : n.kind.isIdentifier = false) : n.Finds := by
  induction h with
  | word hw => exact .word hw hn
  | @node kind l children hk hc ih =>
    cases hk with
    | named hkind hname _ hrest =>
      exact .named hkind hname (hc _ (.head _)) hrest fun m hm => ih m (.tail _ hm)
    | plain hnamed hword hall =>
      cases hd : kind.declares with
      | false => exact .plain hn hd hall hc ih
      | true =>
        cases kind with
        | tokenList => exact .names hn hall hc rfl (fun _ => rfl) fun _ _ => rfl
        | channelList => exact .names hn hall hc rfl (fun _ => rfl) fun _ _ => rfl
        | parserRule | tokenRule | modeSection => cases hnamed
        | _ => cases hd

end Node

/-! ## Definitions of a resolution -/

namespace Resolution
open Occurrence
variable {known : Known} {own : SymbolTable} {tree : Node} {warn : Bool} {r : Resolution}

theorem occurrence?_filter {parent n : Node} {found? : Option Occurrence}
    (h : occurrence? known own parent n = .ok found?) :
    found?.toList.filter isDefinition = (definition? parent n).toList := by
  rcases occurrence?_ok h with ⟨rfl, hnone⟩ | ⟨name, role, ns, place, hi, hr, rfl, horigin⟩
  · have hdef : definition? parent n = none := by
      rw [definition?, Option.bind_eq_none_iff]
      intro name hn
      rw [hnone name hn]
    rw [hdef]
    rfl
  · rw [definition?, hi, Option.bind_some, hr]
    rcases horigin with ⟨rfl, rfl⟩ | ⟨rfl, -⟩ <;> rfl

/-- Which occurrences are definitions does not depend on the imported tables. -/
theorem occurrencesAt_filter {ids : List (Node × Node)} {os : List Occurrence}
    (h : occurrencesAt known own ids = .ok os) :
    os.filter isDefinition = ids.filterMap fun e => definition? e.1 e.2 := by
  induction ids generalizing os with
  | nil => cases h; rfl
  | cons e ids ih =>
    obtain ⟨found?, rest, hf, hrest, rfl⟩ := occurrencesAt_cons_ok h
    rw [List.filter_append, occurrence?_filter hf, ih hrest, List.filterMap_cons]
    cases definition? e.1 e.2 <;> rfl

theorem filterMap_identifiers (tree : Node) :
    (tree.identifiers.filterMap fun e => definition? e.1 e.2) = tree.walk.filterMap definitionAt := by
  rw [Node.identifiers, List.filterMap_filterMap]
  refine List.filterMap_congr fun (parent?, depth, n) _ => ?_
  cases parent? with
  | none => rfl
  | some parent =>
    show (if n.isIdentifier then some (parent, n) else none).bind _ = definition? parent n
    unfold Node.isIdentifier definition?
    cases hi : n.identifier? with
    | none => simp
    | some name => simp [hi]

theorem attempt_filter (h : attempt known tree own warn = .ok r) :
    r.occurrences.filter isDefinition = tree.walk.filterMap definitionAt :=
  (occurrencesAt_filter (occurrencesAt_of_attempt h)).trans (filterMap_identifiers tree)

theorem Settles.filter {P : String → Option SymbolTable} (h : Settles P tree own warn known r) :
    r.occurrences.filter isDefinition = tree.walk.filterMap definitionAt := by
  induction h with
  | done h => exact attempt_filter h
  | ask _ _ ih => exact ih

end Resolution

/-- On a tree of the parser the walk finds the declarations of its parts, in their order. -/
theorem definitions_parse (text : String) :
    (Grammar.parse text).tree.walk.filterMap Occurrence.definitionAt =
      (Declaration.ofTree (Grammar.parse text).tree).filterMap Declaration.occurrence? := by
  have h := Grammar.parse_assembled text
  generalize (Grammar.parse text).tree = tree at h
  obtain ⟨kind, l, children⟩ := tree
  have hroot : Occurrence.definitionAt (none, 0, ⟨kind, l, children⟩) = none := rfl
  rw [Node.walk, Node.visits, List.filterMap_cons, hroot, Declaration.ofTree]
  simp only [Node.filterMap_visitsAll, Declaration.ofParts_eq_flatMap, List.filterMap_flatMap]
  exact List.flatMap_congr fun n hn =>
    (h.conforms n hn).finds (h.not_isIdentifier hn) none _ _

end GrammarAtlas
