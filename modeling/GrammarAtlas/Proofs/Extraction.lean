import GrammarAtlas.Proofs.Definitions

/-! # Tables and resolutions agree

A table keeps the first definition of each name and reports the others (`Saw.foldl_declare`), and it
keeps them in the order of the text. `Agrees` says what that means for the definitions that
resolution finds, and `agrees_with_resolution` that it is so for every text. -/

namespace GrammarAtlas

namespace Occurrence

def key (o : Occurrence) : Namespace × String := (o.ns, o.name)

/-- The occurrences of names that occurred before (`again`), or those of names that did not. The
names in `seen` have occurred. -/
def sift (again : Bool) : List (Namespace × String) → List Occurrence → List Occurrence
  | _, [] => []
  | seen, o :: os =>
    if seen.contains o.key = again then o :: sift again (o.key :: seen) os
    else sift again (o.key :: seen) os

/-- The first occurrence of each name. -/
def firsts (os : List Occurrence) : List Occurrence := sift false [] os

/-- All occurrences but the first of each name. -/
def repeats (os : List Occurrence) : List Occurrence := sift true [] os

variable {seen : List (Namespace × String)} {os : List Occurrence}

theorem sift_cons (again : Bool) (o : Occurrence) :
    sift again seen (o :: os) = sift again seen [o] ++ sift again (o.key :: seen) os := by
  simp only [sift]
  split <;> rfl

theorem keys_sift_false : (∀ o ∈ sift false seen os, o.key ∉ seen) ∧
    ((sift false seen os).map key).Nodup := by
  induction os generalizing seen with
  | nil => simp [sift]
  | cons o os ih =>
    obtain ⟨hnew, hnodup⟩ := @ih (o.key :: seen)
    have hnew' : ∀ p ∈ sift false (o.key :: seen) os, p.key ∉ seen :=
      fun p hp hs => hnew p hp (.tail _ hs)
    unfold sift
    split
    · rename_i ho
      have ho' : o.key ∉ seen := by simpa using ho
      refine ⟨List.forall_mem_cons.2 ⟨ho', hnew'⟩, List.nodup_cons.2 ⟨?_, hnodup⟩⟩
      intro hmem
      obtain ⟨p, hp, heq⟩ := List.mem_map.1 hmem
      exact hnew p hp (heq ▸ .head _)
    · exact ⟨hnew', hnodup⟩

/-- Looking among the first occurrences is looking among all. -/
theorem find?_sift_false {k : Namespace × String} (hk : k ∉ seen) :
    (sift false seen os).find? (·.key == k) = os.find? (·.key == k) := by
  induction os generalizing seen with
  | nil => rfl
  | cons o os ih =>
    cases ho : o.key == k with
    | true =>
      have heq : o.key = k := by simpa using ho
      simp [sift, heq, hk]
    | false =>
      have hk' : k ∉ o.key :: seen := by
        intro hmem
        rcases List.mem_cons.1 hmem with rfl | hmem
        · simp at ho
        · exact hk hmem
      rw [List.find?_cons_of_neg (by simp [ho]), ← ih hk', sift]
      split
      · exact List.find?_cons_of_neg (by simp [ho])
      · rfl

end Occurrence

/-- What a symbol and the definition of its name have in common. -/
def Symbol.entry (s : Symbol) : String × Option Namespace × Option Location :=
  (s.name, s.kind.namespace?, s.definition?)

@[inherit_doc Symbol.entry]
def Occurrence.entry (o : Occurrence) : String × Option Namespace × Option Location :=
  (o.name, some o.ns, some o.location)

/-- The symbol that a declaration enters into a table, unless its name is there. -/
def Declaration.entered : Declaration → Symbol
  | symbol kind name location mode? => ⟨name, kind, some location, mode?, .own⟩
  | grammar i => i.symbol

theorem Declaration.definition?_entered (d : Declaration) :
    d.entered.definition? = some d.location := by
  cases d <;> rfl

/-- The report of a later definition. -/
def Occurrence.duplicate (o : Occurrence) : Diagnostic := ⟨.duplicate o.ns o.name, o.location⟩

namespace SymbolTable
open Occurrence
variable {table : SymbolTable} {ds : List Declaration} {seen : List (Namespace × String)}

/-- The symbols that are not imported grammars. -/
def named (table : SymbolTable) : List Symbol := table.symbols.filter fun s => !s.isImport

theorem defines_push (s : Symbol) (ns : Namespace) (name : String) :
    (table.push s).defines ns name = (table.defines ns name || s.denotes ns name) := by
  unfold defines find? push
  rw [List.find?_append]
  cases table.symbols.find? (·.denotes ns name) with
  | some => rfl
  | none => cases hs : s.denotes ns name <;> simp [hs]

theorem denotes_of_isImport {s : Symbol} (h : s.isImport) (ns : Namespace) (name : String) :
    s.denotes ns name = false := by
  have hnone : s.kind.namespace? = none := by simpa [Symbol.isImport] using h
  simp [Symbol.denotes, hnone]

/-- An imported grammar is never what a name denotes. -/
theorem find?_eq_find?_named (table : SymbolTable) (ns : Namespace) (name : String) :
    table.find? ns name = table.named.find? (·.denotes ns name) := by
  rw [named, List.find?_filter, find?]
  congr 1
  funext s
  cases hi : s.isImport with
  | true => simp [denotes_of_isImport hi]
  | false => simp

theorem defines_iff_exists_named {ns : Namespace} {name : String} :
    table.defines ns name ↔ ∃ s ∈ table.named, s.denotes ns name := by
  rw [defines, find?_eq_find?_named, List.find?_isSome]

/-- The names that a table defines are those in `seen`. -/
def Saw (table : SymbolTable) (seen : List (Namespace × String)) : Prop :=
  ∀ ns name, (ns, name) ∈ seen ↔ table.defines ns name

theorem Saw.declare_grammar (h : table.Saw seen) (i : Import) :
    (table.declare (.grammar i)).Saw seen := by
  intro ns name
  show _ ↔ (table.push i.symbol).defines ns name
  rw [defines_push, denotes_of_isImport i.isImport_symbol, Bool.or_false]
  exact h ns name

theorem named_declare_grammar (i : Import) : (table.declare (.grammar i)).named = table.named := by
  show (table.symbols ++ [i.symbol]).filter _ = table.symbols.filter _
  simp [i.isImport_symbol]

section
variable {kind : Symbol.Kind} {ns : Namespace} (name : String) (l : Location) (mode? : Option String)

theorem declare_symbol_of_defines (hns : kind.namespace? = some ns) (hd : table.defines ns name) :
    table.declare (.symbol kind name l mode?) =
      { table with diagnostics := table.diagnostics ++ [⟨.duplicate ns name, l⟩] } := by
  simp [declare, hns, hd]

theorem declare_symbol_of_not_defines (hns : kind.namespace? = some ns)
    (hd : table.defines ns name = false) :
    table.declare (.symbol kind name l mode?) = table.push ⟨name, kind, some l, mode?, .own⟩ := by
  simp [declare, hns, hd]

theorem Saw.declare_symbol (h : table.Saw seen) (hns : kind.namespace? = some ns) :
    (table.declare (.symbol kind name l mode?)).Saw ((ns, name) :: seen) := by
  intro ns' name'
  rw [List.mem_cons, h]
  cases hd : table.defines ns name with
  | true =>
    rw [declare_symbol_of_defines name l mode? hns hd]
    refine ⟨fun hor => ?_, .inr⟩
    rcases hor with heq | hor
    · cases heq; exact hd
    · exact hor
  | false =>
    rw [declare_symbol_of_not_defines name l mode? hns hd, defines_push, Bool.or_eq_true, or_comm]
    refine or_congr_right ?_
    simp only [Symbol.denotes, hns, Bool.and_eq_true, beq_iff_eq, Option.some.injEq, Prod.mk.injEq]
    exact and_congr eq_comm eq_comm

/-- One definition is entered or reported, as it is the first of its name or not. -/
theorem Saw.declare_symbol_sift (h : table.Saw seen) (hns : kind.namespace? = some ns) :
    (table.declare (.symbol kind name l mode?)).named.map Symbol.entry =
        table.named.map Symbol.entry ++
          (sift false seen [⟨name, l, .definition, ns, .own⟩]).map entry ∧
      (table.declare (.symbol kind name l mode?)).diagnostics = table.diagnostics ++
          (sift true seen [⟨name, l, .definition, ns, .own⟩]).map duplicate := by
  cases hd : table.defines ns name with
  | true =>
    have hmem : (ns, name) ∈ seen := (h ns name).2 hd
    rw [declare_symbol_of_defines name l mode? hns hd]
    simp [sift, key, hmem, named, duplicate]
  | false =>
    have hmem : (ns, name) ∉ seen := fun hmem => by simp [(h ns name).1 hmem] at hd
    rw [declare_symbol_of_not_defines name l mode? hns hd]
    simp [sift, key, hmem, named, push, Symbol.isImport, hns, Symbol.entry, entry]

end

/-- A table that has seen some names enters the first definition of every other one, and reports
the rest. -/
theorem Saw.foldl_declare (h : table.Saw seen) (hp : ∀ d ∈ ds, d.Placed) :
    (ds.foldl declare table).named.map Symbol.entry = table.named.map Symbol.entry ++
        (sift false seen (ds.filterMap Declaration.occurrence?)).map entry ∧
      (ds.foldl declare table).diagnostics = table.diagnostics ++
        (sift true seen (ds.filterMap Declaration.occurrence?)).map duplicate := by
  induction ds generalizing table seen with
  | nil => simp [sift]
  | cons d ds ih =>
    have hp' : ∀ d ∈ ds, d.Placed := fun d hd => hp d (.tail _ hd)
    rw [List.foldl_cons]
    cases d with
    | grammar i =>
      have hrest := ih (h.declare_grammar i) hp'
      rwa [named_declare_grammar] at hrest
    | symbol kind name l mode? =>
      obtain ⟨ns, hns⟩ := Option.isSome_iff_exists.1 (hp _ (.head _))
      have hocc : (Declaration.symbol kind name l mode?).occurrence? =
          some ⟨name, l, .definition, ns, .own⟩ := by
        simp [Declaration.occurrence?, hns]
      obtain ⟨hnamed, hdiag⟩ := h.declare_symbol_sift name l mode? hns
      obtain ⟨hnamed', hdiag'⟩ := ih (h.declare_symbol name l mode? hns) hp'
      rw [List.filterMap_cons_some hocc]
      refine ⟨?_, ?_⟩
      · rw [sift_cons, List.map_append, hnamed', hnamed, List.append_assoc]
        rfl
      · rw [sift_cons, List.map_append, hdiag', hdiag, List.append_assoc]
        rfl

theorem declare_symbols (d : Declaration) :
    (table.declare d).symbols.Sublist (table.symbols ++ [d.entered]) := by
  cases d with
  | grammar i => exact List.Sublist.refl _
  | symbol kind name l mode? =>
    simp only [declare]
    split
    · split
      · exact List.sublist_append_left _ _
      · exact List.Sublist.refl _
    · exact List.Sublist.refl _

theorem foldl_declare_symbols :
    (ds.foldl declare table).symbols.Sublist (table.symbols ++ ds.map Declaration.entered) := by
  induction ds generalizing table with
  | nil => simp
  | cons d ds ih =>
    rw [List.foldl_cons, List.map_cons, List.append_cons]
    exact ih.trans ((declare_symbols d).append_right _)

/-- The symbols of a table are what the declarations of the tree would enter, but for repetitions. -/
theorem symbols_ofTree (root : Node) :
    (ofTree root).symbols.Sublist ((Declaration.ofTree root).map Declaration.entered) :=
  foldl_declare_symbols

theorem definitions_ofTree (root : Node) :
    ((ofTree root).symbols.map Symbol.definition?).Sublist
      ((Declaration.ofTree root).map fun d => some d.location) := by
  have hsymbols := (symbols_ofTree root).map Symbol.definition?
  rw [List.map_map] at hsymbols
  have hentered : Symbol.definition? ∘ Declaration.entered = fun d => some d.location := by
    funext d
    exact d.definition?_entered
  rwa [hentered] at hsymbols

theorem isDefined_of_mem_ofTree {root : Node} {s : Symbol} (h : s ∈ (ofTree root).symbols) :
    s.isDefined := by
  obtain ⟨d, -, hd⟩ := List.mem_map.1 ((definitions_ofTree root).subset (List.mem_map_of_mem h))
  rw [Symbol.isDefined, ← hd]
  rfl

theorem starts_ofTree (root : Node) :
    ((ofTree root).symbols.filterMap fun s => s.definition?.map (·.start)).Sublist
      ((Declaration.ofTree root).map Declaration.start) := by
  have hstarts := (definitions_ofTree root).filterMap fun l? => l?.map (·.start)
  rw [List.filterMap_map, List.filterMap_map] at hstarts
  have hall : (Declaration.ofTree root).filterMap
      ((fun l? => l?.map (·.start)) ∘ fun d => some d.location) =
        (Declaration.ofTree root).map Declaration.start :=
    congrFun List.filterMap_eq_map _
  rwa [hall] at hstarts

/-! ## Agreement -/

/-- A table holds what the given definitions define, each name where it is defined first. -/
structure Agrees (table : SymbolTable) (definitions : List Occurrence) : Prop where
  /-- The symbols other than imported grammars are the first definitions, in order. -/
  firsts : table.named.map Symbol.entry = (firsts definitions).map entry
  /-- The others are reported, in order. -/
  repeats : table.diagnostics = (repeats definitions).map duplicate
  /-- A name is looked up to its first definition. -/
  lookup : ∀ ns name, (table.find? ns name).map Symbol.entry =
    (definitions.find? (·.key == (ns, name))).map entry
  unique : (table.named.map fun s => (s.kind.namespace?, s.name)).Nodup
  /-- Definitions come in the order of the text. -/
  sourceOrder : definitions.Pairwise fun o p => o.location.start.offset < p.location.start.offset
  defined : ∀ s ∈ table.symbols, s.isDefined
  /-- Symbols come in the order of the text, imported grammars among them. -/
  ascending : (table.symbols.filterMap fun s => s.definition?.map (·.start.offset)).Pairwise (· < ·)
  /-- The imports are, in order, the symbols of imported grammars. -/
  imports : table.symbols.filter Symbol.isImport = table.imports.map Import.symbol

section
variable {definitions : List Occurrence}

theorem find?_of_firsts
    (h : table.named.map Symbol.entry = (Occurrence.firsts definitions).map entry)
    (ns : Namespace) (name : String) :
    (table.find? ns name).map Symbol.entry =
      (definitions.find? (·.key == (ns, name))).map entry := by
  -- Both searches ask the same of what symbols and definitions have in common.
  let asks (e : String × Option Namespace × Option Location) : Bool := e.2.1 == some ns && e.1 == name
  have hsymbols : (table.named.find? (·.denotes ns name)).map Symbol.entry =
      (table.named.map Symbol.entry).find? asks := by
    rw [List.find?_map]
    rfl
  have hdefinitions : ((Occurrence.firsts definitions).map entry).find? asks =
      ((Occurrence.firsts definitions).find? (·.key == (ns, name))).map entry := by
    rw [List.find?_map]
    rfl
  rw [find?_eq_find?_named, hsymbols, h, hdefinitions, Occurrence.firsts, find?_sift_false (by simp)]

theorem unique_of_firsts
    (h : table.named.map Symbol.entry = (Occurrence.firsts definitions).map entry) :
    (table.named.map fun s => (s.kind.namespace?, s.name)).Nodup := by
  have hkeys : (table.named.map fun s => (s.kind.namespace?, s.name)) =
      ((Occurrence.firsts definitions).map key).map fun k => (some k.1, k.2) := by
    have := congrArg (List.map fun e => (e.2.1, e.1)) h
    simpa [Symbol.entry, entry, key, Function.comp_def] using this
  rw [hkeys]
  refine keys_sift_false.2.map fun k k' heq => ?_
  simpa [Prod.ext_iff] using heq

end

theorem agrees_parse (text : String) :
    (ofTree (Grammar.parse text).tree).Agrees
      ((Grammar.parse text).tree.walk.filterMap Occurrence.definitionAt) := by
  rw [definitions_parse]
  have horder := List.pairwise_map.1 (Declaration.ofTree_ascending text)
  have hstarts := (Declaration.ofTree_ascending text).sublist
    (starts_ofTree (Grammar.parse text).tree)
  generalize (Grammar.parse text).tree = root at horder hstarts ⊢
  have hempty : Saw { empty with grammarName? := root.grammarName?, flavour := root.flavour } [] := by
    intro ns name
    simp [defines, find?, empty]
  obtain ⟨hfirsts, hrepeats⟩ := hempty.foldl_declare fun d hd => Declaration.placed_of_mem_ofTree hd
  exact {
    firsts := hfirsts
    repeats := hrepeats
    lookup := find?_of_firsts hfirsts
    unique := unique_of_firsts hfirsts
    sourceOrder := by
      refine List.pairwise_filterMap.2 (horder.imp fun {d e} hlt o ho p hp => ?_)
      rwa [Declaration.location_of_occurrence? ho, Declaration.location_of_occurrence? hp]
    defined := fun s hs => isDefined_of_mem_ofTree hs
    ascending := by
      have hoffsets := List.pairwise_map.2 hstarts
      rw [List.map_filterMap] at hoffsets
      simpa [Option.map_map, Function.comp_def] using hoffsets
    imports := filter_symbols_eq_imports root }

/-- Extraction and resolution agree on what a text defines, whatever imported tables resolution is
given. -/
theorem agrees_with_resolution (text : String) (warn : Bool) :
    let tree := (Grammar.parse text).tree
    (∀ library, ∃ r known, Resolution.inquire library tree (ofTree tree) warn = some (r, known) ∧
        (ofTree tree).Agrees (r.occurrences.filter isDefinition)) ∧
      ∀ known r, Resolution.attempt known tree (ofTree tree) warn = .ok r →
        (ofTree tree).Agrees (r.occurrences.filter isDefinition) := by
  intro tree
  refine ⟨fun library => ?_, fun known r h => ?_⟩
  · obtain ⟨r, hr⟩ := Resolution.Progress.exists_settles
      (Resolution.within_library library (ofTree tree)) .nil
    obtain ⟨known, hknown⟩ := Resolution.inquire_of_settles hr
    refine ⟨r, known, hknown, ?_⟩
    rw [hr.filter]
    exact agrees_parse text
  · rw [Resolution.attempt_filter h]
    exact agrees_parse text

/-- A rule defined twice is entered once and reported once. -/
theorem agrees_with_resolution_twice :
    let tree := (Grammar.parse "grammar G; a : B ; a : B ; B : 'b' ;").tree
    ∃ r, Resolution.attempt [] tree (ofTree tree) true = .ok r ∧
      (Occurrence.firsts (r.occurrences.filter isDefinition)).map key =
        [(.rule, "a"), (.token, "B")] ∧
      (Occurrence.repeats (r.occurrences.filter isDefinition)).map key = [(.rule, "a")] ∧
      (ofTree tree).Agrees (r.occurrences.filter isDefinition) := by
  intro tree
  have hok : ∃ r, r ∈ (Resolution.attempt [] tree (ofTree tree) true).toOption ∧
      (Occurrence.firsts (r.occurrences.filter isDefinition)).map key =
        [(.rule, "a"), (.token, "B")] ∧
      (Occurrence.repeats (r.occurrences.filter isDefinition)).map key = [(.rule, "a")] := by
    decide +kernel
  obtain ⟨r, hr, hfirsts, hrepeats⟩ := hok
  have hr' : Resolution.attempt [] tree (ofTree tree) true = .ok r := by
    cases ha : Resolution.attempt [] tree (ofTree tree) true with
    | error g => rw [ha] at hr; cases hr
    | ok r' => rw [ha] at hr; cases hr; rfl
  exact ⟨r, hr', hfirsts, hrepeats, (agrees_with_resolution _ true).2 [] r hr'⟩

end SymbolTable

end GrammarAtlas
