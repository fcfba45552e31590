import GrammarAtlas.Proofs.References

/-! # The schema of trees

A symbol table takes the first child of a rule for its name, and a resolution tells from the node
above an identifier what the identifier is there. Neither checks that the tree is made that way.
`Node.Schema` says how it is made: which nodes stand below which, and how many.

The table of kinds already says so for all that is read (`Reading.conforms`), recovery from faults
included; a walk carries it to every visited node and the node above it. Main statement:
`Grammar.parse_schema`, by which the identifiers of a tree are its occurrences, those apart that the
schema leaves without a role. -/

namespace GrammarAtlas

namespace Node

namespace Kind
variable {parent child kind : Kind}

/-- Kinds of nodes that stand right below the root. -/
def isTopLevel : Kind → Bool
  | .header _ | .modeSection | .tokenList | .channelList | .delegates => true
  | _ => false

/-- Kinds of nodes that declare a rule. -/
def declaresRule : Kind → Bool
  | .parserRule | .tokenRule _ => true
  | _ => false

/-- Kinds of nodes that are about the one below them. -/
def isSingle : Kind → Bool
  | .labeled _ _ | .repeated _ _ | .negated | .option _ => true
  | _ => false

/-- Kinds of nodes below which identifiers stand. -/
def holdsNames : Kind → Bool
  | .header _ | .option _ | .tokenList | .channelList | .modeSection | .parserRule | .tokenRule _
  | .alternative _ | .labeled _ _ | .repeated _ _ | .negated | .command _ => true
  | _ => false

/-- Kinds of nodes below which an identifier neither declares a name nor refers to one. -/
def ignoresNames : Kind → Bool
  | .header _ | .option _ => true
  | .command name => !(["pushMode", "mode", "type", "channel"].contains name)
  | _ => false

theorem eq_identifier (h : kind.isIdentifier) : ∃ name, kind = .identifier name := by
  cases kind with
  | identifier name => exact ⟨name, rfl⟩
  | _ => cases h

theorem not_isTopLevel_of_admits (h : parent.admits child) : child.isTopLevel = false := by
  cases child with
  | header | modeSection | tokenList | channelList | delegates => cases parent <;> cases h
  | _ => rfl

theorem eq_modeSection_of_admits (h : parent.admits child) (hc : child.declaresRule) :
    parent = .modeSection := by
  cases child with
  | parserRule | tokenRule =>
    cases parent with
    | modeSection => rfl
    | _ => cases h
  | _ => cases hc

theorem holdsNames_of_admits (h : parent.admits child) (hc : child.isIdentifier) :
    parent.holdsNames := by
  cases child with
  | identifier =>
    cases parent with
    | header | option | tokenList | channelList | alternative | labeled | repeated | negated
    | command => rfl
    | _ => cases h
  | _ => cases hc

theorem not_isIdentifier_of_admits (hk : parent.isNamed) (h : parent.admits child) :
    child.isIdentifier = false := by
  cases child with
  | identifier =>
    cases parent with
    | modeSection | parserRule | tokenRule => cases h
    | _ => cases hk
  | _ => rfl

theorem holdsNames_of_isNamed (hk : kind.isNamed) : kind.holdsNames := by
  cases kind with
  | modeSection | parserRule | tokenRule => rfl
  | _ => cases hk

end Kind

theorem isTopLevel_of_isHeader {n : Node} (hh : n.isHeader) : n.kind.isTopLevel := by
  cases hk : n.kind with
  | header => rfl
  | _ => simp [isHeader, hk] at hh

/-- What a node has below it, by its kind. -/
structure Shaped (n : Node) : Prop where
  /-- A mode or a rule has its name first, capitalized as the kind asks, and no other identifier. -/
  named : n.kind.isNamed → ∃ name l rest, n.children = .leaf (.identifier name) l :: rest ∧
    n.kind.calls name ∧ ∀ m ∈ rest, m.isIdentifier = false
  choices : n.kind = .alternatives ∨ n.kind = .block →
    n.children ≠ [] ∧ ∀ m ∈ n.children, m.kind.isAlternative
  single : n.kind.isSingle → ∃ m, n.children = [m]
  command : ∀ name, n.kind = .command name → n.children.length ≤ 1

namespace Conforms
variable {n parent : Node}

theorem shaped (h : n.Conforms) : n.Shaped := by
  cases h with
  | @word kind l hw =>
    cases kind with
    | identifier | literal | charSet | delegate => exact ⟨nofun, nofun, nofun, nofun⟩
    | _ => cases hw
  | @node kind l children hk hc =>
    cases hk with
    | @named name rest hkind hname hcalls hrest =>
      refine ⟨fun _ => ?_, ?_, fun hs => ?_, ?_⟩
      · obtain ⟨text, heq⟩ := (hc name (.head _)).identifier (Kind.isIdentifier_of_isName hname)
        refine ⟨text, name.location, rest, by rw [← heq], ?_, fun m hm => ?_⟩
        · rw [heq] at hcalls
          exact hcalls
        · rw [isIdentifier_eq]
          exact Kind.not_isIdentifier_of_admits hkind (hrest m hm)
      · rintro (rfl | rfl) <;> cases hkind
      · cases kind with
        | modeSection | parserRule | tokenRule => cases hs
        | _ => cases hkind
      · rintro _ rfl
        cases hkind
    | plain hnamed hword hall hcount =>
      refine ⟨fun hkind => ?_, ?_, fun hs => ?_, ?_⟩
      · rw [hnamed] at hkind
        cases hkind
      · rintro (rfl | rfl)
        · exact ⟨List.ne_nil_of_length_pos (of_decide_eq_true hcount), hall⟩
        · exact ⟨List.ne_nil_of_length_pos (of_decide_eq_true hcount), hall⟩
      · refine List.length_eq_one_iff.1 ?_
        cases kind with
        | labeled | repeated | negated | option => exact beq_iff_eq.1 hcount
        | _ => cases hs
      · rintro name rfl
        exact of_decide_eq_true hcount

/-- A child of a node is one that the kind admits, or the name. -/
theorem admits_or (h : parent.Conforms) (hn : n ∈ parent.children) :
    parent.kind.admits n.kind ∨ parent.kind.isNamed ∧ n.kind.isName := by
  cases h with
  | word => cases hn
  | node hk =>
    cases hk with
    | named hkind hname _ hrest =>
      rcases List.mem_cons.1 hn with rfl | hn
      · exact .inr ⟨hkind, hname⟩
      · exact .inl (hrest n hn)
    | plain _ _ hall => exact .inl (hall n hn)

theorem not_isTopLevel (h : parent.Conforms) (hn : n ∈ parent.children) :
    n.kind.isTopLevel = false := by
  rcases h.admits_or hn with ha | ⟨-, hi⟩
  · exact Kind.not_isTopLevel_of_admits ha
  · obtain ⟨name, hk⟩ := Kind.eq_identifier (Kind.isIdentifier_of_isName hi)
    rw [hk]
    rfl

theorem eq_modeSection (h : parent.Conforms) (hn : n ∈ parent.children) (hr : n.kind.declaresRule) :
    parent.kind = .modeSection := by
  rcases h.admits_or hn with ha | ⟨-, hi⟩
  · exact Kind.eq_modeSection_of_admits ha hr
  · obtain ⟨name, hk⟩ := Kind.eq_identifier (Kind.isIdentifier_of_isName hi)
    rw [hk] at hr
    cases hr

theorem holdsNames (h : parent.Conforms) (hn : n ∈ parent.children) (hi : n.kind.isIdentifier) :
    parent.kind.holdsNames := by
  rcases h.admits_or hn with ha | ⟨hk, -⟩
  · exact Kind.holdsNames_of_admits ha hi
  · exact Kind.holdsNames_of_isNamed hk

/-- In the walk over a part there is no header but the part itself. -/
theorem filter_isHeader (h : n.Conforms) (parent? : Option Node) (depth : Nat) :
    ((visits parent? depth n).filter fun v => v.2.2.isHeader) =
      if n.isHeader then [(parent?, depth, n)] else [] := by
  have hnone : ((visitsAll (some n) (depth + 1) n.children).filter fun v => v.2.2.isHeader) = [] := by
    refine List.filter_eq_nil_iff.2 fun v hv hh => ?_
    obtain ⟨-, parent, -, hparent, hv⟩ :=
      forall_visitsAll (fun _ hm => hm.children) (depth + 1) h n.children (fun _ hm => hm) v hv
    have htop := isTopLevel_of_isHeader hh
    rw [hparent.not_isTopLevel hv] at htop
    cases htop
  obtain ⟨kind, l, children⟩ := n
  rw [visits, List.filter_cons, hnone]

end Conforms

/-! ## Trees -/

/-- How the nodes of a tree stand to each other. -/
structure Schema (root : Node) : Prop where
  /-- A header is the first child of the root, and there is no other. -/
  header : (root.walk.filter fun v => v.2.2.isHeader) =
    (root.children.head?.filter isHeader).toList.map fun n => (some root, 1, n)
  sections : ∀ parent? depth n, (parent?, depth, n) ∈ root.walk → n.kind.isTopLevel →
    parent? = some root
  rules : ∀ parent? depth n, (parent?, depth, n) ∈ root.walk → n.kind.declaresRule →
    ∃ parent, parent? = some parent ∧ (parent = root ∨ parent.kind = .modeSection)
  identifiers : ∀ parent? depth n, (parent?, depth, n) ∈ root.walk → n.isIdentifier →
    ∃ parent, parent? = some parent ∧ parent.kind.holdsNames
  shaped : ∀ parent? depth n, (parent?, depth, n) ∈ root.walk → n.Shaped

namespace Assembled
variable {root n parent : Node} {parent? : Option Node} {depth : Nat}

/-- All but the root stands below the root or below a conforming node. -/
theorem above (h : root.Assembled) (hv : (parent?, depth, n) ∈ root.walk) :
    (parent? = none ∧ n = root) ∨ ∃ parent, parent? = some parent ∧ n ∈ parent.children ∧
      n.Conforms ∧ (parent = root ∨ parent.Conforms) := by
  have hbelow : ∀ k : Node, k = root ∨ k.Conforms → ∀ m ∈ k.children, m.Conforms := by
    rintro k (rfl | hk)
    · exact h.conforms
    · exact hk.children
  obtain ⟨-, heq | ⟨parent, heq, hparent, hn⟩⟩ := forall_visits (P := fun k => k = root ∨ k.Conforms)
    (fun k hk m hm => .inr (hbelow k hk m hm)) none 0 (.inl rfl) _ hv
  · cases heq
    exact .inl ⟨rfl, rfl⟩
  · exact .inr ⟨parent, heq, hn, hbelow parent hparent n hn, hparent⟩

/-- An identifier stands below a conforming node. -/
theorem above_identifier (h : root.Assembled) (hv : (parent?, depth, n) ∈ root.walk)
    (hi : n.kind.isIdentifier) :
    ∃ parent, parent? = some parent ∧ n ∈ parent.children ∧ parent.Conforms := by
  rcases h.above hv with ⟨-, rfl⟩ | ⟨parent, hp, hn, -, rfl | hparent⟩
  · rw [h.kind] at hi
    cases hi
  · rw [h.not_isIdentifier hn] at hi
    cases hi
  · exact ⟨parent, hp, hn, hparent⟩

theorem header (h : root.Assembled) :
    (root.walk.filter fun v => v.2.2.isHeader) =
      (root.children.head?.filter isHeader).toList.map fun n => (some root, 1, n) := by
  have hroot : root.isHeader = false := by simp [isHeader, h.kind]
  have hwalk : root.walk = (none, 0, root) :: root.children.flatMap (visits (some root) 1) := by
    rw [walk, ← visitsAll_eq_flatMap]
    obtain ⟨kind, l, children⟩ := root
    rw [visits]
  have hparts : (root.children.flatMap (visits (some root) 1)).filter (fun v => v.2.2.isHeader) =
      root.children.flatMap fun n => if n.isHeader then [(some root, 1, n)] else [] := by
    rw [List.filter_flatMap]
    exact List.flatMap_congr fun n hn => (h.conforms n hn).filter_isHeader _ _
  rw [hwalk, List.filter_cons_of_neg (by simp [hroot]), hparts]
  have htail := h.tail
  generalize root.children = children at htail ⊢
  cases children with
  | nil => rfl
  | cons first rest =>
    have hrest : (rest.flatMap fun n => if n.isHeader then [(some root, 1, n)] else []) = [] := by
      refine List.flatMap_eq_nil_iff.2 fun n hn => ?_
      rw [ParseM.not_isHeader_of_isPart (htail n hn)]
      rfl
    rw [List.flatMap_cons, hrest, List.append_nil]
    cases hf : first.isHeader <;> simp [Option.filter, hf]

theorem schema (h : root.Assembled) : root.Schema where
  header := h.header
  sections := by
    intro parent? depth n hv ht
    rcases h.above hv with ⟨-, rfl⟩ | ⟨parent, rfl, hn, -, rfl | hparent⟩
    · rw [h.kind] at ht
      cases ht
    · rfl
    · rw [hparent.not_isTopLevel hn] at ht
      cases ht
  rules := by
    intro parent? depth n hv hr
    rcases h.above hv with ⟨-, rfl⟩ | ⟨parent, hp, hn, -, hparent⟩
    · rw [h.kind] at hr
      cases hr
    exact ⟨parent, hp, hparent.imp id fun hparent => hparent.eq_modeSection hn hr⟩
  identifiers := by
    intro parent? depth n hv hi
    rw [isIdentifier_eq] at hi
    obtain ⟨parent, hp, hn, hparent⟩ := h.above_identifier hv hi
    exact ⟨parent, hp, hparent.holdsNames hn hi⟩
  shaped := by
    intro parent? depth n hv
    rcases h.above hv with ⟨-, rfl⟩ | ⟨parent, -, -, hn, -⟩
    · exact ⟨by simp [h.kind, Kind.isNamed], by simp [h.kind], by simp [h.kind, Kind.isSingle],
        by simp [h.kind]⟩
    · exact hn.shaped

end Assembled

end Node

namespace Occurrence
open Node
variable {parent n : Node} {name word : String}

theorem role?_command (hk : parent.kind = .command word) :
    (role? parent n name).isSome = ["pushMode", "mode", "type", "channel"].contains word := by
  unfold role?
  rw [hk]
  split
  case h_10 hc | h_11 hc | h_12 hc | h_13 hc => cases hc; rfl
  case h_14 => simp_all
  all_goals contradiction

/-- The one identifier below a mode or a rule is the name. -/
theorem isNameOf_of_isNamed (h : parent.Shaped) (hk : parent.kind.isNamed)
    (hn : n ∈ parent.children) (hi : n.isIdentifier) : isNameOf n parent := by
  obtain ⟨text, l, rest, hchildren, -, hrest⟩ := h.named hk
  rw [hchildren] at hn
  rcases List.mem_cons.1 hn with rfl | hn
  · simp [isNameOf, nameNode?, hchildren, Node.isIdentifier, identifier?, leaf]
  · rw [hrest n hn] at hi
    cases hi

/-- An identifier has a role below every node that holds names and does not ignore them. -/
theorem role?_isSome (h : parent.Conforms) (hn : n ∈ parent.children) (hi : n.isIdentifier) :
    (role? parent n name).isSome = !parent.kind.ignoresNames := by
  have hholds := h.holdsNames hn (by rwa [← isIdentifier_eq])
  cases hk : parent.kind with
  | parserRule | tokenRule | modeSection =>
    have hname := isNameOf_of_isNamed h.shaped (by rw [hk]; rfl) hn hi
    simp [role?, hk, hname, Kind.ignoresNames]
  | command word => rw [role?_command hk, Kind.ignoresNames, Bool.not_not]
  | header | option | tokenList | channelList | alternative | labeled | repeated | negated =>
    simp [role?, hk, Kind.ignoresNames]
  | _ =>
    rw [hk] at hholds
    cases hholds

/-- The name and the place of an identifier, unless names are ignored below the node above it. -/
def mention? (parent? : Option Node) (n : Node) : Option (String × Location) :=
  if parent?.any (·.kind.ignoresNames) then none else n.identifier?.map (·, n.location)

end Occurrence

namespace Resolution
open Occurrence
variable {known : Known} {own : SymbolTable} {tree : Node} {warn : Bool} {r : Resolution}

theorem occurrence?_mention {parent n : Node} {found? : Option Occurrence} (hparent : parent.Conforms)
    (hn : n ∈ parent.children) (h : occurrence? known own parent n = .ok found?) :
    found?.map (fun o => (o.name, o.location)) = mention? (some parent) n := by
  have hrole {name : String} (hi : n.identifier? = some name) :
      (role? parent n name).isSome = !parent.kind.ignoresNames :=
    role?_isSome hparent hn (by rw [Node.isIdentifier, hi]; rfl)
  rw [mention?, Option.any_some]
  rcases occurrence?_ok h with ⟨rfl, hnone⟩ | ⟨name, role, ns, place, hi, hr, rfl, -⟩
  · cases hi : n.identifier? with
    | none => simp
    | some name =>
      have hignored := hrole hi
      rw [hnone name hi, Option.isSome_none, Bool.false_eq, Bool.not_eq_false'] at hignored
      rw [if_pos hignored]
      rfl
  · have hkept := hrole hi
    rw [hr, Option.isSome_some, Bool.true_eq, Bool.not_eq_true'] at hkept
    rw [hkept, hi]
    rfl

theorem occurrencesAt_mention {ids : List (Node × Node)} {os : List Occurrence}
    (hids : ∀ e ∈ ids, e.1.Conforms ∧ e.2 ∈ e.1.children)
    (h : occurrencesAt known own ids = .ok os) :
    os.map (fun o => (o.name, o.location)) = ids.filterMap fun e => mention? (some e.1) e.2 := by
  induction ids generalizing os with
  | nil => cases h; rfl
  | cons e ids ih =>
    obtain ⟨found?, rest, hf, hrest, rfl⟩ := occurrencesAt_cons_ok h
    obtain ⟨hparent, hn⟩ := hids e (.head _)
    rw [List.map_append, ih (fun e he => hids e (.tail _ he)) hrest, List.filterMap_cons,
      ← occurrence?_mention hparent hn hf]
    cases found? <;> rfl

theorem filterMap_mention (h : tree.Assembled) :
    (tree.identifiers.filterMap fun e => mention? (some e.1) e.2) =
      tree.walk.filterMap fun v => mention? v.1 v.2.2 := by
  rw [Node.identifiers, List.filterMap_filterMap]
  refine List.filterMap_congr fun v hv => ?_
  obtain ⟨parent?, depth, n⟩ := v
  by_cases hi : n.isIdentifier
  · obtain ⟨parent, rfl, -, -⟩ := h.above_identifier hv (by rwa [← Node.isIdentifier_eq])
    simp [hi]
  · have hnone : mention? parent? n = none := by
      rw [Node.isIdentifier, Option.not_isSome_iff_eq_none] at hi
      simp [mention?, hi]
    rw [hnone]
    cases parent? <;> simp [hi]

/-- Resolving accounts for each identifier once, where names are not ignored. -/
theorem occurrences_mention (h : tree.Assembled) (ha : attempt known tree own warn = .ok r) :
    r.occurrences.map (fun o => (o.name, o.location)) =
      tree.walk.filterMap fun v => mention? v.1 v.2.2 := by
  rw [← filterMap_mention h]
  refine occurrencesAt_mention (fun (parent, n) he => ?_) (occurrencesAt_of_attempt ha)
  obtain ⟨⟨parent?, depth, m⟩, hv, heq⟩ := List.mem_filterMap.1 he
  cases parent? with
  | none => cases heq
  | some q =>
    simp only [Option.ite_none_right_eq_some, Option.some.injEq, Prod.mk.injEq] at heq
    obtain ⟨hi, rfl, rfl⟩ := heq
    rw [Node.isIdentifier_eq] at hi
    obtain ⟨_, hp, hn, hparent⟩ := h.above_identifier hv hi
    cases hp
    exact ⟨hparent, hn⟩

end Resolution

/-- The tree of every text keeps to the schema, and in every resolution the occurrences are the
identifiers of the tree, in their order, but for those that stand where names are ignored. -/
theorem Grammar.parse_schema (text : String) :
    let tree := (parse text).tree
    let mentions := tree.walk.filterMap fun v => Occurrence.mention? v.1 v.2.2
    tree.Schema ∧ ∀ (own : SymbolTable) (warn : Bool),
      (∀ library, ∃ r asked, Resolution.inquire library tree own warn = some (r, asked) ∧
        r.occurrences.map (fun o => (o.name, o.location)) = mentions) ∧
      ∀ known r, Resolution.attempt known tree own warn = .ok r →
        r.occurrences.map (fun o => (o.name, o.location)) = mentions := by
  intro tree mentions
  have htree := parse_assembled text
  refine ⟨htree.schema, fun own warn => ⟨fun library => ?_, fun known r h => ?_⟩⟩
  · obtain ⟨r, asked, ha, hok⟩ := Resolution.exists_inquire library tree own warn
    exact ⟨r, asked, ha, Resolution.occurrences_mention htree hok⟩
  · exact Resolution.occurrences_mention htree h

/-- With a block that is never closed: of ten names in the tree, those of the header, of the option
and of a command that takes none are ignored. -/
theorem Grammar.parse_schema_unclosed :
    let text := "lexer grammar L; options \x7b tokenVocab = V; \x7d tokens \x7b T \x7d " ++
      "A : (b -> pushMode(M), more(X) ; mode M; C : ~A ;"
    let tree := (parse text).tree
    ∃ r, Resolution.attempt [("V", none)] tree (.ofTree tree) true = .ok r ∧ tree.Schema ∧
      tree.walk.filterMap (·.2.2.identifier?) =
        ["L", "V", "T", "A", "b", "M", "X", "M", "C", "A"] ∧
      r.occurrences.map Occurrence.name = ["T", "A", "b", "M", "M", "C", "A"] ∧
      r.occurrences.map (fun o => (o.name, o.location)) =
        tree.walk.filterMap fun v => Occurrence.mention? v.1 v.2.2 := by
  intro text tree
  have hok : ∃ r, r ∈ (Resolution.attempt [("V", none)] tree (.ofTree tree) true).toOption ∧
      tree.walk.filterMap (·.2.2.identifier?) =
        ["L", "V", "T", "A", "b", "M", "X", "M", "C", "A"] ∧
      r.occurrences.map Occurrence.name = ["T", "A", "b", "M", "M", "C", "A"] := by
    decide +kernel
  obtain ⟨r, hr, hall, hnames⟩ := hok
  have hr' : Resolution.attempt [("V", none)] tree (.ofTree tree) true = .ok r := by
    cases ha : Resolution.attempt [("V", none)] tree (.ofTree tree) true with
    | error g => rw [ha] at hr; cases hr
    | ok r' => rw [ha] at hr; cases hr; rfl
  obtain ⟨hschema, hresolved⟩ := parse_schema text
  exact ⟨r, hr', hschema, hall, hnames, (hresolved _ true).2 _ r hr'⟩

end GrammarAtlas
