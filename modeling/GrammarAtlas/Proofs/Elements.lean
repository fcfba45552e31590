import GrammarAtlas.Proofs.Resumption
import GrammarAtlas.Proofs.Schema

/-! # Elements refer to what the tree declares

The first letter of a name is looked at twice. The kind of a token makes a rule a parser rule or a
token rule, which puts its name into one namespace or the other. A reference has the name only, and
looks in the namespace that `Namespace.ofElement` takes from it. Names reach a table in one of two
ways, as the name of a part or as an entry of a list (`Node.Declares`); for the names of elements
this comes down to `Node.Provides`, because both tests are the same
(`TokenStream.ofChars_ofElement`) and no rule has a name that its kind does not call for.

Main statement: `Grammar.parse_elements`. -/

namespace GrammarAtlas

theorem Namespace.ofElement_eq (name : String) :
    ofElement name = if isCapitalized name then .token else .rule := by
  unfold ofElement isCapitalized
  cases name.toList <;> rfl

theorem Namespace.ofElement_eq_token_iff {name : String} :
    ofElement name = .token ↔ isCapitalized name := by
  rw [ofElement_eq]
  split <;> simp_all

/-- Names are of the kind for token rules just if references by them look among the tokens. -/
theorem TokenStream.ofChars_ofElement (cs : List Char) : ∀ t ∈ (ofChars cs).1.tokens, t.isName →
    (t.kind = .upperName ↔ Namespace.ofElement t.text = .token) := by
  intro t ht hn
  rw [ofChars_capitalized cs t ht hn, Namespace.ofElement_eq_token_iff]

namespace Node

namespace Kind

/-- The namespace in which a part of the kind declares its own name. -/
def partNamespace? : Kind → Option Namespace
  | .parserRule => some .rule
  | .tokenRule _ => some .token
  | .modeSection => some .mode
  | _ => none

/-- The namespace in which a list of the kind declares its entries. -/
def listNamespace? : Kind → Option Namespace
  | .tokenList => some .token
  | .channelList => some .channel
  | _ => none

theorem isNamed_of_partNamespace? {kind : Kind} {ns : Namespace}
    (h : kind.partNamespace? = some ns) : kind.isNamed := by
  cases kind with
  | parserRule | tokenRule | modeSection => rfl
  | _ => cases h

/-- Elements refer to what a part declares if it is a rule, of the kind that its name calls for. -/
theorem partNamespace?_eq_ofElement_iff {kind : Kind} {name : String} :
    kind.partNamespace? = some (.ofElement name) ↔ kind.declaresRule ∧ kind.calls name := by
  rw [Namespace.ofElement_eq]
  cases kind with
  | parserRule | tokenRule | modeSection =>
    cases hcap : isCapitalized name <;> simp [partNamespace?, declaresRule, calls, hcap]
  | _ => simp [partNamespace?, declaresRule]

theorem listNamespace?_eq_ofElement_iff {kind : Kind} {name : String} :
    kind.listNamespace? = some (.ofElement name) ↔ kind = .tokenList ∧ isCapitalized name := by
  rw [Namespace.ofElement_eq]
  cases kind with
  | tokenList | channelList =>
    cases hcap : isCapitalized name <;> simp [listNamespace?]
  | _ => simp [listNamespace?]

theorem isNamed_of_declaresRule {kind : Kind} (h : kind.declaresRule) : kind.isNamed := by
  cases kind with
  | parserRule | tokenRule => rfl
  | _ => cases h

/-- Kinds of nodes below which a name is an element of the body of a rule. -/
def holdsElements : Kind → Bool
  | .alternative _ | .labeled _ _ | .repeated _ _ | .negated => true
  | _ => false

end Kind

/-- Somewhere in the tree a part or an entry of a list declares `name` in `ns`. -/
def Declares (root : Node) (ns : Namespace) (name : String) : Prop :=
  (∃ v ∈ root.walk, v.2.2.kind.partNamespace? = some ns ∧ v.2.2.name? = some name) ∨
    ∃ v ∈ root.walk, v.1.bind (·.kind.listNamespace?) = some ns ∧ v.2.2.identifier? = some name

/-- Somewhere in the tree there is a rule called `name`, or an entry of a list of tokens that has
that name and a capital at its head. -/
def Provides (root : Node) (name : String) : Prop :=
  (∃ v ∈ root.walk, v.2.2.kind.declaresRule ∧ v.2.2.name? = some name) ∨
    isCapitalized name ∧
      ∃ v ∈ root.walk, v.1.any (·.kind == .tokenList) ∧ v.2.2.identifier? = some name

theorem role?_eq_definition_iff {parent n : Node} {name : String} {ns : Namespace} :
    Occurrence.role? parent n name = some (.definition, ns) ↔
      parent.kind.partNamespace? = some ns ∧ Occurrence.isNameOf n parent ∨
        parent.kind.listNamespace? = some ns := by
  unfold Occurrence.role?
  split <;> simp_all [Kind.partNamespace?, Kind.listNamespace?, and_comm]

theorem exists_definition?_iff {parent n : Node} {name : String} {ns : Namespace} :
    (∃ o, Occurrence.definition? parent n = some o ∧ o.key = (ns, name)) ↔
      n.identifier? = some name ∧ Occurrence.role? parent n name = some (.definition, ns) := by
  unfold Occurrence.definition?
  constructor
  · rintro ⟨o, ho, hkey⟩
    obtain ⟨name', hi, ho⟩ := Option.bind_eq_some_iff.1 ho
    split at ho
    · cases ho
      cases hkey
      exact ⟨hi, ‹_›⟩
    · cases ho
  · rintro ⟨hi, hr⟩
    rw [hi, Option.bind_some, hr]
    exact ⟨_, rfl, rfl⟩

/-- A part has one identifier below it: its name, which its kind calls for. -/
theorem Shaped.exists_name {n : Node} (h : n.Shaped) (hk : n.kind.isNamed) :
    ∃ name l, n.name? = some name ∧ n.kind.calls name ∧ .leaf (.identifier name) l ∈ n.children ∧
      ∀ m ∈ n.children, m.isIdentifier → m = .leaf (.identifier name) l := by
  obtain ⟨name, l, rest, hchildren, hcalls, hrest⟩ := h.named hk
  refine ⟨name, l, ?_, hcalls, by simp [hchildren], fun m hm hi => ?_⟩
  · rw [name?, nameNode?, hchildren]
    rfl
  · rw [hchildren] at hm
    rcases List.mem_cons.1 hm with rfl | hm
    · rfl
    · rw [hrest m hm] at hi
      cases hi

namespace Assembled
variable {root : Node} {ns : Namespace} {name : String}

/-- The definitions that a walk finds are of the names that the tree declares. -/
theorem exists_definition_iff (h : root.Assembled) :
    (∃ o ∈ root.walk.filterMap Occurrence.definitionAt, o.key = (ns, name)) ↔
      root.Declares ns name := by
  have hschema := h.schema
  constructor
  · rintro ⟨o, ho, hkey⟩
    obtain ⟨⟨parent?, depth, n⟩, hv, hdef⟩ := List.mem_filterMap.1 ho
    obtain ⟨parent, rfl, hdef⟩ := Option.bind_eq_some_iff.1 hdef
    obtain ⟨hi, hr⟩ := exists_definition?_iff.1 ⟨o, hdef, hkey⟩
    rcases role?_eq_definition_iff.1 hr with ⟨hns, -⟩ | hns
    · obtain ⟨hparent, hn⟩ := (within_of_mem_walk hv).2 parent rfl
      obtain ⟨parent?, depth', hvisits⟩ := hparent.visits none 0
      have hvisit := hvisits (parent.mem_visits parent? depth')
      obtain ⟨name', l, hname, -, -, honly⟩ :=
        (hschema.shaped _ _ _ hvisit).exists_name (Kind.isNamed_of_partNamespace? hns)
      obtain rfl := honly n hn (by rw [isIdentifier, hi]; rfl)
      exact .inl ⟨_, hvisit, hns, hname.trans hi⟩
    · exact .inr ⟨_, hv, hns, hi⟩
  · have hfound {parent n : Node} {depth : Nat} (hv : (some parent, depth, n) ∈ root.walk)
        (hi : n.identifier? = some name)
        (hr : Occurrence.role? parent n name = some (.definition, ns)) :
        ∃ o ∈ root.walk.filterMap Occurrence.definitionAt, o.key = (ns, name) := by
      obtain ⟨o, ho, hkey⟩ := exists_definition?_iff.2 ⟨hi, hr⟩
      exact ⟨o, List.mem_filterMap.2 ⟨_, hv, ho⟩, hkey⟩
    rintro (⟨⟨parent?, depth, n⟩, hv, hns, hname⟩ | ⟨⟨parent?, depth, n⟩, hv, hns, hi⟩)
    · have hk := Kind.isNamed_of_partNamespace? hns
      have hshaped := hschema.shaped _ _ _ hv
      obtain ⟨name', l, hname', -, hleaf, -⟩ := hshaped.exists_name hk
      obtain rfl := Option.some.inj (hname'.symm.trans hname)
      obtain ⟨depth', hvisit⟩ := (within_of_mem_walk hv).1.child_mem_walk hleaf
      have hisName := Occurrence.isNameOf_of_isNamed hshaped hk hleaf rfl
      exact hfound hvisit rfl (role?_eq_definition_iff.2 (.inl ⟨hns, hisName⟩))
    · obtain ⟨parent, rfl, hns⟩ := Option.bind_eq_some_iff.1 hns
      exact hfound hv hi (role?_eq_definition_iff.2 (.inr hns))

/-- Where elements look for a name, the tree declares it just if it has a rule of that name, or a
token with a capital: no rule has a name that its kind does not call for. -/
theorem declares_ofElement_iff (h : root.Assembled) :
    root.Declares (.ofElement name) name ↔ root.Provides name := by
  refine or_congr ⟨fun ⟨v, hv, hns, hname⟩ => ?_, fun ⟨v, hv, hk, hname⟩ => ?_⟩
    ⟨fun ⟨v, hv, hns, hi⟩ => ?_, fun ⟨hcap, v, hv, hlist, hi⟩ => ?_⟩
  · exact ⟨v, hv, (Kind.partNamespace?_eq_ofElement_iff.1 hns).1, hname⟩
  · obtain ⟨name', -, hname', hcalls, -⟩ :=
      (h.schema.shaped _ _ _ hv).exists_name (Kind.isNamed_of_declaresRule hk)
    obtain rfl := Option.some.inj (hname'.symm.trans hname)
    exact ⟨v, hv, Kind.partNamespace?_eq_ofElement_iff.2 ⟨hk, hcalls⟩, hname⟩
  · obtain ⟨parent, hparent, hns⟩ := Option.bind_eq_some_iff.1 hns
    obtain ⟨hk, hcap⟩ := Kind.listNamespace?_eq_ofElement_iff.1 hns
    exact ⟨hcap, v, hv, by simp [hparent, hk], hi⟩
  · obtain ⟨parent?, depth, n⟩ := v
    cases parent? with
    | none => cases hlist
    | some parent =>
      exact ⟨_, hv, Kind.listNamespace?_eq_ofElement_iff.2 ⟨beq_iff_eq.1 hlist, hcap⟩, hi⟩

end Assembled

end Node

theorem SymbolTable.Agrees.defines_iff {table : SymbolTable} {os : List Occurrence} {ns : Namespace}
    {name : String} (h : table.Agrees os) :
    table.defines ns name ↔ ∃ o ∈ os, o.key = (ns, name) := by
  have hlookup := congrArg Option.isSome (h.lookup ns name)
  rw [Option.isSome_map, Option.isSome_map] at hlookup
  rw [defines, hlookup, List.find?_isSome]
  simp only [beq_iff_eq]

/-- A table has the names that the tree declares. -/
theorem Grammar.defines_iff (text : String) (ns : Namespace) (name : String) :
    (SymbolTable.ofTree (parse text).tree).defines ns name ↔ (parse text).tree.Declares ns name :=
  (SymbolTable.agrees_parse text).defines_iff.trans (parse_assembled text).exists_definition_iff

namespace Resolution
variable {known : Known} {own : SymbolTable} {tree : Node} {warn : Bool} {r : Resolution}

/-- What is found at an identifier is among the occurrences. -/
theorem exists_occurrence? {parent n : Node} {ids : List (Node × Node)} {os : List Occurrence}
    (h : occurrencesAt known own ids = .ok os) (he : (parent, n) ∈ ids) :
    ∃ found?, occurrence? known own parent n = .ok found? ∧ ∀ o ∈ found?, o ∈ os := by
  induction ids generalizing os with
  | nil => cases he
  | cons e ids ih =>
    obtain ⟨found?, rest, hf, hrest, rfl⟩ := occurrencesAt_cons_ok h
    rcases List.mem_cons.1 he with rfl | he
    · exact ⟨found?, hf, fun o ho => List.mem_append_left _ (Option.mem_toList.2 ho)⟩
    · obtain ⟨found?', hf', hmem⟩ := ih hrest he
      exact ⟨found?', hf', fun o ho => List.mem_append_right _ (hmem o ho)⟩

theorem filter_location_eq {os : List Occurrence} {o : Occurrence}
    (hos : (os.map Occurrence.location).Nodup) (ho : o ∈ os) :
    os.filter (·.location = o.location) = [o] := by
  obtain ⟨before, after, rfl⟩ := List.append_of_mem ho
  rw [List.map_append, List.map_cons, List.nodup_middle, List.nodup_cons, ← List.map_append] at hos
  have hothers : (before ++ after).filter (·.location = o.location) = [] := by
    refine List.filter_eq_nil_iff.2 fun p hp heq => hos.1 ?_
    exact of_decide_eq_true heq ▸ List.mem_map_of_mem hp
  obtain ⟨hbefore, hafter⟩ := List.append_eq_nil_iff.1 (List.filter_append .. ▸ hothers)
  rw [List.filter_append, List.filter_cons_of_pos (by simp), hbefore, hafter, List.nil_append]

/-- At the name of an element there is one occurrence. It refers to the name in the namespace that
the first letter calls for, and to the grammar itself just if the tree provides the name. -/
def FindsElements (r : Resolution) (tree : Node) : Prop :=
  ∀ parent depth n name, (some parent, depth, n) ∈ tree.walk → parent.kind.holdsElements →
    n.identifier? = some name →
      ∃ place, r.occurrences.filter (·.location = n.location) =
        [⟨name, n.location, .reference, .ofElement name, place⟩] ∧
        (place = .own ↔ tree.Provides name)

theorem finds_elements {text : String} (h : attempt known (Grammar.parse text).tree
      (.ofTree (Grammar.parse text).tree) warn = .ok r) :
    r.FindsElements (Grammar.parse text).tree := by
  intro parent depth n name hv hk hi
  have hids : (parent, n) ∈ (Grammar.parse text).tree.identifiers :=
    List.mem_filterMap.2 ⟨_, hv, by simp [Node.isIdentifier, hi]⟩
  obtain ⟨found?, hf, hmem⟩ := exists_occurrence? (occurrencesAt_of_attempt h) hids
  have hrole : Occurrence.role? parent n name = some (.reference, .ofElement name) := by
    unfold Occurrence.role?
    cases hkind : parent.kind with
    | alternative | labeled | repeated | negated => rfl
    | _ => rw [hkind] at hk; cases hk
  rcases occurrence?_ok hf with ⟨-, hnone⟩ | ⟨name', role, ns, place, hi', hr, rfl, hplace⟩
  · rw [hnone name hi] at hrole
    cases hrole
  obtain rfl := Option.some.inj (hi.symm.trans hi')
  cases hrole.symm.trans hr
  obtain ⟨hdef, -⟩ | ⟨-, horigin⟩ := hplace
  · cases hdef
  refine ⟨place, ?_, ?_⟩
  · exact filter_location_eq (nodup_locations h) (hmem _ rfl)
  · have hown : place = .own ↔ (SymbolTable.ofTree (Grammar.parse text).tree).defines
        (.ofElement name) name := by
      rw [← origin_eq_own_iff, horigin, Except.ok.injEq]
    exact hown.trans ((Grammar.defines_iff text _ _).trans
      (Grammar.parse_assembled text).declares_ofElement_iff)

end Resolution

/-- Elements find the rules of their own grammar by name, whatever imported tables there are. The
tokens of every text and the rules of every tree are of the kinds that the letters of their names
call for, by the test that references go by; and at the name of an element there is one reference,
to the grammar itself just if the tree has a rule of that name, or a token with a capital. -/
theorem Grammar.parse_elements (text : String) (warn : Bool) :
    let tree := (parse text).tree
    let table := SymbolTable.ofTree tree
    (∀ t ∈ (TokenStream.ofChars text.toList).1.tokens, t.isName →
      (t.kind = .upperName ↔ Namespace.ofElement t.text = .token)) ∧
    (∀ v ∈ tree.walk, v.2.2.kind.declaresRule → ∃ name, v.2.2.name? = some name ∧
      v.2.2.kind.partNamespace? = some (.ofElement name)) ∧
    (∀ library, ∃ r asked, Resolution.inquire library tree table warn = some (r, asked) ∧
      r.FindsElements tree) ∧
    ∀ known r, Resolution.attempt known tree table warn = .ok r → r.FindsElements tree := by
  intro tree table
  refine ⟨TokenStream.ofChars_ofElement _, fun v hv hk => ?_, fun library => ?_,
    fun known r h => Resolution.finds_elements h⟩
  · have hshaped := (parse_assembled text).schema.shaped _ _ _ hv
    obtain ⟨name, -, hname, hcalls, -⟩ :=
      hshaped.exists_name (Node.Kind.isNamed_of_declaresRule hk)
    exact ⟨name, hname, Node.Kind.partNamespace?_eq_ofElement_iff.2 ⟨hk, hcalls⟩⟩
  · obtain ⟨r, asked, ha, hok⟩ := Resolution.exists_inquire library tree table warn
    exact ⟨r, asked, ha, Resolution.finds_elements hok⟩

/-- A letter in title case is no capital, nor is an underscore: a rule called `ǅ` is a parser rule, and
found as one. The token `u` is declared where no element looks for it. -/
theorem Grammar.parse_elements_titlecase :
    let text := "grammar G; tokens \x7b T, u \x7d ǅ : x=ǅ u T* | _x ; É : ~b ; mode M; b : É"
    let tree := (parse text).tree
    ∃ r, Resolution.attempt [] tree (.ofTree tree) true = .ok r ∧
      (r.occurrences.filter Occurrence.isReference).map (fun o => (o.name, o.ns, o.origin)) =
        [("ǅ", .rule, .own), ("u", .rule, .unresolved), ("T", .token, .own),
          ("_x", .rule, .unresolved), ("b", .rule, .own), ("É", .token, .own)] ∧
      r.FindsElements tree := by
  intro text tree
  have hok : ∃ r, r ∈ (Resolution.attempt [] tree (.ofTree tree) true).toOption ∧
      (r.occurrences.filter Occurrence.isReference).map (fun o => (o.name, o.ns, o.origin)) =
        [("ǅ", .rule, .own), ("u", .rule, .unresolved), ("T", .token, .own),
          ("_x", .rule, .unresolved), ("b", .rule, .own), ("É", .token, .own)] := by
    decide +kernel
  obtain ⟨r, hr, hreferences⟩ := hok
  have hr := Resolution.eq_ok_of_mem_toOption hr
  exact ⟨r, hr, hreferences, (parse_elements text true).2.2.2 [] r hr⟩

end GrammarAtlas
