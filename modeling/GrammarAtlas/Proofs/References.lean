import GrammarAtlas.Analysis
import GrammarAtlas.Proofs.Extraction
import GrammarAtlas.Proofs.ImportSearch
import Mathlib.Data.List.Perm.Basic

/-! # Every reference is listed once

A listing of symbols has an entry for each name that a grammar declares, and one for each name that
it refers to and nobody declares. A reference to the grammar's own names, or to nobody's, belongs to
one entry: that of its namespace and name. Three things have to fit for that.

* References to one name have one origin (`origin_of_attempt`), so no entry mixes them.
* The names of the table differ from each other, and from the undeclared ones, which are the first
  occurrences among the unresolved references (`undeclaredSymbols_eq`).
* Identifiers stand at different places (`Grammar.identifiers_spread`), so a place tells which
  reference is meant.

Main statement: `Analysis.list_accounts`. -/

namespace GrammarAtlas

namespace Node

theorem isIdentifier_eq (n : Node) : n.isIdentifier = n.kind.isIdentifier := by
  obtain ⟨kind, l, children⟩ := n
  cases kind <;> rfl

theorem Kind.isWord_of_isIdentifier {kind : Kind} (h : kind.isIdentifier) : kind.isWord := by
  cases kind with
  | identifier => rfl
  | _ => cases h

/-- Where the identifier at a visited node stands, if it is one. -/
def identifierPlace? (visit : Option Node × Nat × Node) : Option Location :=
  if visit.2.2.isIdentifier then some visit.2.2.location else none

/-- The identifiers of a conforming tree are words of it. -/
theorem Conforms.identifierPlaces {n : Node} (h : n.Conforms) (parent? : Option Node) (depth : Nat) :
    ((visits parent? depth n).filterMap identifierPlace?).Sublist n.words := by
  induction h generalizing parent? depth with
  | @word kind l hw =>
    have hvisits : visits parent? depth ⟨kind, l, []⟩ = [(parent?, depth, ⟨kind, l, []⟩)] := by
      simp [visits, visitsAll]
    rw [hvisits, words_of_isWord hw, List.filterMap_cons]
    unfold identifierPlace?
    split
    · exact List.nil_sublist _
    · rename_i hm
      split at hm
      · cases hm
        exact List.Sublist.refl _
      · cases hm
  | @node kind l children hk hc ih =>
    have hplain : identifierPlace? (parent?, depth, ⟨kind, l, children⟩) = none := by
      rw [identifierPlace?, if_neg]
      rw [isIdentifier_eq]
      intro hi
      have hword := Kind.isWord_of_isIdentifier hi
      rw [hk.not_isWord] at hword
      cases hword
    rw [visits, List.filterMap_cons, hplain, words_of_fits hk]
    simp only [filterMap_visitsAll]
    exact flatMap_sublist_wordsAll fun m hm => ih m hm _ _

theorem identifiers_places (root : Node) :
    (root.identifiers.map (·.2.location)).Sublist (root.walk.filterMap identifierPlace?) := by
  rw [identifiers, List.map_filterMap]
  induction root.walk with
  | nil => exact List.nil_sublist _
  | cons visit visits ih =>
    obtain ⟨parent?, depth, n⟩ := visit
    by_cases hn : n.isIdentifier
    · have hplace : identifierPlace? (parent?, depth, n) = some n.location := by
        simp [identifierPlace?, hn]
      rw [List.filterMap_cons_some hplace]
      cases parent? with
      | none => exact List.Sublist.cons _ ih
      | some parent => simpa [hn] using ih
    · have hplace : identifierPlace? (parent?, depth, n) = none := by
        simp [identifierPlace?, hn]
      rw [List.filterMap_cons_none hplace]
      cases parent? with
      | none => exact ih
      | some parent => simpa [hn] using ih

end Node

/-- All identifiers of a tree of the parser stand one behind the other. -/
theorem Grammar.identifierPlaces_spread (text : String) :
    ∃ c c', Reading.Spread c ((parse text).tree.walk.filterMap Node.identifierPlace?) c' := by
  obtain ⟨c', h, -⟩ := parse_reading text
  have hconforms := h.conforms
  have hspread := h.words_spread
  have hkind : (parse text).tree.kind = .grammar := rfl
  generalize (parse text).tree = tree at hspread hconforms hkind
  obtain ⟨kind, l, children⟩ := tree
  have hroot : Node.identifierPlace? (none, 0, ⟨kind, l, children⟩) = none := by
    rw [show kind = .grammar from hkind]
    rfl
  have hwords : ((Node.walk ⟨kind, l, children⟩).filterMap Node.identifierPlace?).Sublist
      (Node.wordsAll children) := by
    rw [Node.walk, Node.visits, List.filterMap_cons_none hroot, Node.filterMap_visitsAll]
    exact Node.flatMap_sublist_wordsAll fun m hm => (hconforms m hm).identifierPlaces _ _
  exact ⟨_, _, hspread.sublist hwords⟩

theorem Grammar.identifiers_spread (text : String) :
    ∃ c c', Reading.Spread c ((parse text).tree.identifiers.map (·.2.location)) c' := by
  obtain ⟨c, c', hspread⟩ := identifierPlaces_spread text
  exact ⟨c, c', hspread.sublist (Node.identifiers_places _)⟩

/-- Groups by distinct keys that cover all of a list hold its members once each. -/
theorem perm_flatMap_filter {α κ : Type} [DecidableEq κ] {key : α → κ} {ks : List κ} {l : List α}
    (hks : ks.Nodup) (h : ∀ a ∈ l, key a ∈ ks) :
    (ks.flatMap fun k => l.filter fun a => key a = k).Perm l := by
  induction ks generalizing l with
  | nil =>
    obtain rfl : l = [] := List.eq_nil_iff_forall_not_mem.2 fun a ha => by simpa using h a ha
    exact .refl _
  | cons k ks ih =>
    obtain ⟨hk, hks⟩ := List.nodup_cons.1 hks
    have hrest : (ks.flatMap fun k => l.filter fun a => key a = k).Perm
        (l.filter fun a => !decide (key a = k)) := by
      have hgroups : (ks.flatMap fun k => l.filter fun a => key a = k) =
          ks.flatMap fun k' => (l.filter fun a => !decide (key a = k)).filter fun a => key a = k' := by
        refine List.flatMap_congr fun k' hk' => ?_
        rw [List.filter_filter]
        refine List.filter_congr fun a _ => ?_
        have hne : k' ≠ k := fun heq => hk (heq ▸ hk')
        by_cases ha : key a = k' <;> simp [ha, hne]
      rw [hgroups]
      refine ih hks fun a ha => ?_
      obtain ⟨hmem, hne⟩ := List.mem_filter.1 ha
      simpa [show key a ≠ k by simpa using hne] using h a hmem
    rw [List.flatMap_cons]
    exact (hrest.append_left _).trans (List.filter_append_perm _ l)

namespace Occurrence

theorem sift_sublist (again : Bool) (seen : List (Namespace × String)) (os : List Occurrence) :
    (sift again seen os).Sublist os := by
  induction os generalizing seen with
  | nil => exact List.nil_sublist _
  | cons o os ih =>
    unfold sift
    split
    · exact (ih _).cons_cons o
    · exact (ih _).cons o

theorem key_mem_firsts {os : List Occurrence} {o : Occurrence} (ho : o ∈ os) :
    o.key ∈ (firsts os).map key := by
  have hfound : (os.find? (·.key == o.key)).isSome := List.find?_isSome.2 ⟨o, ho, by simp⟩
  rw [← @find?_sift_false [] _ _ (by simp), List.find?_isSome] at hfound
  obtain ⟨p, hp, heq⟩ := hfound
  exact List.mem_map.2 ⟨p, hp, by simpa using heq⟩

end Occurrence

namespace Resolution
open Occurrence
variable {known : Known} {own : SymbolTable} {tree : Node} {warn : Bool} {r : Resolution}
  {ns : Namespace} {name : String}

theorem namespace?_ofUndeclared (ns : Namespace) :
    (Symbol.Kind.ofUndeclared ns).namespace? = some ns := by
  cases ns <;> rfl

theorem undeclared_eq_iff {o p : Occurrence} : undeclared o = undeclared p ↔ o.key = p.key := by
  refine ⟨fun h => ?_, fun h => ?_⟩
  · have hns := congrArg (fun s : Symbol => s.kind.namespace?) h
    have hname := congrArg Symbol.name h
    simp only [undeclared, namespace?_ofUndeclared, Option.some.injEq] at hns hname
    rw [key, key, hns, hname]
  · rw [key, key, Prod.mk.injEq] at h
    rw [undeclared, undeclared, h.1, h.2]

theorem foldl_undeclared {found : List Symbol} {seen : List (Namespace × String)}
    {os : List Occurrence} (h : ∀ o, undeclared o ∈ found ↔ o.key ∈ seen) :
    os.foldl (fun found o =>
      if found.contains (undeclared o) then found else found ++ [undeclared o]) found =
        found ++ (sift false seen os).map undeclared := by
  induction os generalizing found seen with
  | nil => simp [sift]
  | cons o os ih =>
    rw [List.foldl_cons, sift]
    by_cases ho : o.key ∈ seen
    · have hfound : found.contains (undeclared o) = true := by simpa using (h o).2 ho
      rw [if_pos hfound, if_neg (by simpa using ho)]
      refine ih fun p => ?_
      rw [h p, List.mem_cons]
      refine ⟨.inr, fun hp => ?_⟩
      rcases hp with hp | hp
      · rwa [hp]
      · exact hp
    · have hfound : ¬ (found.contains (undeclared o) = true) := by
        simpa using fun hmem => ho ((h o).1 hmem)
      rw [if_neg hfound, if_pos (by simpa using ho), @ih _ (o.key :: seen)]
      · simp
      · intro p
        rw [List.mem_append, List.mem_singleton, List.mem_cons, h p, undeclared_eq_iff, or_comm]

/-- The undeclared symbols are the first of the unresolved references, in their order. -/
theorem undeclaredSymbols_eq (os : List Occurrence) :
    undeclaredSymbols os = (firsts (os.filter isUnresolved)).map undeclared := by
  rw [undeclaredSymbols, @foldl_undeclared _ [] _ (by simp), List.nil_append, firsts]

theorem reference_or_own {parent m : Node} {o : Occurrence}
    (h : occurrence? known own parent m = .ok (some o)) :
    o.location = m.location ∧ (o.isReference ∨ o.origin = .own) := by
  rcases occurrence?_ok h with ⟨hnone, -⟩ | ⟨name, role, ns, place, -, -, heq, horigin⟩
  · cases hnone
  cases heq
  rcases horigin with ⟨-, hown⟩ | ⟨rfl, -⟩
  · exact ⟨rfl, .inr hown⟩
  · exact ⟨rfl, .inl rfl⟩

theorem occurrencesAt_ok {ids : List (Node × Node)} {os : List Occurrence}
    (h : occurrencesAt known own ids = .ok os) :
    (os.map Occurrence.location).Sublist (ids.map (·.2.location)) ∧
      ∀ o ∈ os, o.isReference ∨ o.origin = .own := by
  induction ids generalizing os with
  | nil =>
    cases h
    exact ⟨List.nil_sublist _, by simp⟩
  | cons e ids ih =>
    obtain ⟨found?, rest, hf, hrest, rfl⟩ := occurrencesAt_cons_ok h
    obtain ⟨hsub, hroles⟩ := ih hrest
    cases found? with
    | none => exact ⟨hsub.cons _, hroles⟩
    | some o =>
      obtain ⟨hl, hrole⟩ := reference_or_own hf
      refine ⟨?_, List.forall_mem_cons.2 ⟨hrole, hroles⟩⟩
      show (o.location :: rest.map Occurrence.location).Sublist _
      rw [hl]
      exact hsub.cons_cons _

/-- What occurs in a text stands one behind the other. -/
theorem occurrences_spread {text : String}
    (h : attempt known (Grammar.parse text).tree own warn = .ok r) :
    ∃ c c', Reading.Spread c (r.occurrences.map Occurrence.location) c' := by
  obtain ⟨c, c', hspread⟩ := Grammar.identifiers_spread text
  exact ⟨c, c', hspread.sublist (occurrencesAt_ok (occurrencesAt_of_attempt h)).1⟩

theorem nodup_locations {text : String}
    (h : attempt known (Grammar.parse text).tree own warn = .ok r) :
    (r.occurrences.map Occurrence.location).Nodup := by
  obtain ⟨c, c', hspread⟩ := occurrences_spread h
  refine hspread.ascending.imp fun hlt heq => ?_
  rw [heq] at hlt
  omega

theorem isReference_of_isUnresolved (h : attempt known tree own warn = .ok r) {o : Occurrence}
    (ho : o ∈ r.occurrences) (hu : o.isUnresolved) : o.isReference := by
  rcases (occurrencesAt_ok (occurrencesAt_of_attempt h)).2 o ho with hr | hown
  · exact hr
  · simp [isUnresolved, hown] at hu

theorem origin_eq_own_iff : origin known own ns name = .ok .own ↔ own.defines ns name := by
  refine ⟨fun h => ?_, fun h => by rw [origin, if_pos h]; rfl⟩
  by_contra hd
  rw [origin, if_neg hd] at h
  split at h
  · cases h
  obtain ⟨found?, -, h⟩ := bind_ok h
  cases found? <;> cases h

end Resolution

/-! ## Entries -/

namespace Occurrence

/-- A reference to a name of the grammar itself, or to one that nobody declares. -/
def isListed (o : Occurrence) : Bool := o.isReference && (o.origin == .own || o.isUnresolved)

/-- The name of an occurrence as symbols have it. -/
def fullName (o : Occurrence) : Option Namespace × String := (some o.ns, o.name)

end Occurrence

def Symbol.fullName (s : Symbol) : Option Namespace × String := (s.kind.namespace?, s.name)

theorem Occurrence.fullName_eq_key (o : Occurrence) : o.fullName = (some o.key.1, o.key.2) := rfl

theorem Occurrence.nodup_fullNames (os : List Occurrence) : ((firsts os).map fullName).Nodup := by
  have hkeys : (firsts os).map fullName = ((firsts os).map key).map fun k => (some k.1, k.2) := by
    rw [List.map_map]
    rfl
  rw [hkeys]
  refine keys_sift_false.2.map fun k k' heq => ?_
  simpa [Prod.ext_iff] using heq

theorem fullName_undeclared (o : Occurrence) : (Resolution.undeclared o).fullName = o.fullName := by
  rw [Symbol.fullName, Resolution.undeclared, Resolution.namespace?_ofUndeclared]
  rfl

theorem Symbol.denotes_iff {s : Symbol} {o : Occurrence} :
    s.denotes o.ns o.name ↔ s.fullName = o.fullName := by
  simp [denotes, fullName, Occurrence.fullName]

namespace Resolution
open Occurrence
variable {known : Known} {tree : Node} {own : SymbolTable} {warn : Bool} {r : Resolution}

theorem unresolved_eq (h : attempt known tree own warn = .ok r) :
    r.unresolved = (firsts (r.occurrences.filter isUnresolved)).map undeclared := by
  obtain ⟨unknown, -, -, hunresolved, -⟩ := exists_of_attempt h
  rw [hunresolved, undeclaredSymbols_eq]

/-- An unresolved symbol has the name of a reference that leads nowhere. -/
theorem exists_of_mem_unresolved (h : attempt known tree own warn = .ok r) {s : Symbol}
    (hs : s ∈ r.unresolved) :
    ∃ o ∈ r.occurrences, o.isReference ∧ o.origin = .unresolved ∧ s.fullName = o.fullName := by
  rw [unresolved_eq h] at hs
  obtain ⟨o, ho, rfl⟩ := List.mem_map.1 hs
  obtain ⟨hmem, hu⟩ := List.mem_filter.1 ((sift_sublist _ _ _).subset ho)
  exact ⟨o, hmem, isReference_of_isUnresolved h hmem hu, by simpa [isUnresolved] using hu,
    fullName_undeclared o⟩

theorem fullName_mem_unresolved (h : attempt known tree own warn = .ok r) {o : Occurrence}
    (ho : o ∈ r.occurrences) (hu : o.isUnresolved) : o.fullName ∈ r.unresolved.map Symbol.fullName := by
  obtain ⟨p, hp, heq⟩ := List.mem_map.1 (key_mem_firsts (List.mem_filter.2 ⟨ho, hu⟩))
  rw [unresolved_eq h]
  refine List.mem_map.2 ⟨undeclared p, List.mem_map_of_mem hp, ?_⟩
  rw [fullName_undeclared, fullName_eq_key, heq, fullName_eq_key]

end Resolution

namespace Analysis
open Occurrence

/-- The entries of a listing account for the references of an analysis. -/
structure Accounts (a : Analysis) (entries : List SymbolEntry) : Prop where
  /-- The references of an entry are those to its symbol. -/
  references : ∀ e ∈ entries, e.references =
    (a.occurrences.filter fun o => o.isReference && e.symbol.denotes o.ns o.name).map location
  counted : ∀ e ∈ entries, e.referenceCount = e.references.length
  /-- No two entries are for one name of one namespace. -/
  distinct : (entries.map fun e => (e.symbol.kind.namespace?, e.symbol.name)).Nodup
  places : (a.occurrences.map location).Nodup
  /-- Together the entries hold the places of the listed references, each once. -/
  partition : (entries.flatMap SymbolEntry.references).Perm
    ((a.occurrences.filter isListed).map location)
  /-- A listed reference is in the entry of its namespace and name, and in no other. -/
  placed : ∀ o ∈ a.occurrences, o.isListed → ∃ e ∈ entries, e.symbol.denotes o.ns o.name ∧
    ∀ e' ∈ entries, o.location ∈ e'.references ↔ e' = e
  /-- The entries without a definition are the unresolved names, in the order of their first use. -/
  undeclared : (entries.filter fun e => !e.symbol.isDefined).map
      (fun e => (e.symbol.kind.namespace?, e.symbol.name)) =
    (firsts (a.occurrences.filter isUnresolved)).map fun o => (some o.ns, o.name)
  /-- The count of a name is over all namespaces and origins. -/
  total : ∀ name, a.referenceCount name =
    a.occurrences.countP fun o => o.isReference && o.name == name

/-- The names of `symbols` are those that the listed ones among the references `os` use. -/
structure Covers (symbols : List Symbol) (os : List Occurrence) : Prop where
  named : ∀ s ∈ symbols, s.isImport = false
  distinct : (symbols.map Symbol.fullName).Nodup
  covers : ∀ o ∈ os, o.isListed → o.fullName ∈ symbols.map Symbol.fullName
  only : ∀ s ∈ symbols, ∀ o ∈ os, o.isReference → s.denotes o.ns o.name → o.isListed

theorem referencesTo_eq (a : Analysis) {s : Symbol} (hs : s.isImport = false) :
    a.referencesTo s =
      (a.occurrences.filter fun o => o.isReference && s.denotes o.ns o.name).map location := by
  obtain ⟨ns, hns⟩ : ∃ ns, s.kind.namespace? = some ns := by
    rw [← Option.isSome_iff_exists]
    simpa [Symbol.isImport] using hs
  rw [referencesTo, hns]
  show (a.occurrences.filter (·.refersTo ns s.name)).map location = _
  congr 1
  refine List.filter_congr fun o _ => ?_
  simp only [refersTo, Symbol.denotes, hns, Bool.and_assoc]
  congr 1
  rw [Bool.eq_iff_iff]
  simp only [Bool.and_eq_true, beq_iff_eq, Option.some.injEq]
  exact and_congr eq_comm eq_comm

section
variable {a : Analysis} {symbols : List Symbol}

theorem Covers.referencesTo (h : Covers symbols a.occurrences) {s : Symbol} (hs : s ∈ symbols) :
    a.referencesTo s =
      ((a.occurrences.filter isListed).filter fun o => o.fullName = s.fullName).map location := by
  rw [referencesTo_eq a (h.named s hs), List.filter_filter]
  congr 1
  refine List.filter_congr fun o ho => ?_
  rw [Bool.eq_iff_iff]
  simp only [Bool.and_eq_true, decide_eq_true_eq, Symbol.denotes_iff]
  constructor
  · rintro ⟨hr, heq⟩
    exact ⟨heq.symm, h.only s hs o ho hr (Symbol.denotes_iff.2 heq)⟩
  · rintro ⟨heq, hl⟩
    rw [isListed, Bool.and_eq_true] at hl
    exact ⟨hl.1, heq.symm⟩

theorem Covers.partition (h : Covers symbols a.occurrences) :
    (symbols.flatMap a.referencesTo).Perm ((a.occurrences.filter isListed).map location) := by
  have hgroups : symbols.flatMap a.referencesTo =
      ((symbols.map Symbol.fullName).flatMap fun k =>
        (a.occurrences.filter isListed).filter fun o => o.fullName = k).map location := by
    rw [List.map_flatMap, List.flatMap_map]
    exact List.flatMap_congr fun s hs => h.referencesTo hs
  rw [hgroups]
  refine (perm_flatMap_filter h.distinct fun o ho => ?_).map location
  obtain ⟨hmem, hl⟩ := List.mem_filter.1 ho
  exact h.covers o hmem hl

theorem Covers.placed (h : Covers symbols a.occurrences) (hplaces : (a.occurrences.map location).Nodup)
    {o : Occurrence} (ho : o ∈ a.occurrences) (hl : o.isListed) :
    ∃ s ∈ symbols, s.denotes o.ns o.name ∧ ∀ s' ∈ symbols, o.location ∈ a.referencesTo s' ↔ s' = s := by
  obtain ⟨s, hs, heq⟩ := List.mem_map.1 (h.covers o ho hl)
  refine ⟨s, hs, Symbol.denotes_iff.2 heq, fun s' hs' => ?_⟩
  rw [h.referencesTo hs']
  constructor
  · intro hmem
    obtain ⟨o', ho', hplace⟩ := List.mem_map.1 hmem
    obtain ⟨ho', heq'⟩ := List.mem_filter.1 ho'
    obtain rfl : o' = o := List.inj_on_of_nodup_map hplaces (List.mem_filter.1 ho').1 ho hplace
    refine List.inj_on_of_nodup_map h.distinct hs' hs ?_
    rw [heq, of_decide_eq_true heq']
  · rintro rfl
    refine List.mem_map_of_mem (List.mem_filter.2 ⟨List.mem_filter.2 ⟨ho, hl⟩, ?_⟩)
    simp [heq]

theorem Covers.accounts (h : Covers symbols a.occurrences)
    (hplaces : (a.occurrences.map location).Nodup)
    (hundeclared : (symbols.filter fun s => !s.isDefined).map Symbol.fullName =
      (firsts (a.occurrences.filter isUnresolved)).map fullName) :
    a.Accounts (symbols.map (a.describe true)) where
  references := by
    intro e he
    obtain ⟨s, hs, rfl⟩ := List.mem_map.1 he
    exact referencesTo_eq a (h.named s hs)
  counted := by
    intro e he
    obtain ⟨s, hs, rfl⟩ := List.mem_map.1 he
    rfl
  distinct := by
    rw [List.map_map]
    exact h.distinct
  places := hplaces
  partition := by
    rw [List.flatMap_map]
    exact h.partition
  placed := by
    intro o ho hl
    obtain ⟨s, hs, hd, honly⟩ := h.placed hplaces ho hl
    refine ⟨a.describe true s, List.mem_map_of_mem hs, hd, fun e he => ?_⟩
    obtain ⟨s', hs', rfl⟩ := List.mem_map.1 he
    show o.location ∈ a.referencesTo s' ↔ _
    rw [honly s' hs']
    exact ⟨fun heq => by rw [heq], fun heq => congrArg SymbolEntry.symbol heq⟩
  undeclared := by
    rw [List.filter_map, List.map_map]
    exact hundeclared
  total := by
    intro name
    rw [referenceCount, Analysis.references, List.countP_eq_length_filter]

end

/-! ## Listings of a text -/

section
variable {text : String} {known : Known} {warn : Bool} {r : Resolution}

theorem covers_of_attempt
    (h : Resolution.attempt known (Grammar.parse text).tree (.ofTree (Grammar.parse text).tree) warn =
      .ok r) :
    Covers ((SymbolTable.ofTree (Grammar.parse text).tree).named ++ r.unresolved) r.occurrences := by
  have hagrees := SymbolTable.agrees_parse text
  have horigin := fun {o} => Resolution.origin_of_attempt h (o := o)
  have hundeclared := fun {s} => Resolution.exists_of_mem_unresolved h (s := s)
  generalize SymbolTable.ofTree (Grammar.parse text).tree = table at hagrees horigin
  -- A reference to what a named symbol denotes is to the text itself.
  have hown {s : Symbol} (hs : s ∈ table.named) {o : Occurrence} (ho : o ∈ r.occurrences)
      (hr : o.isReference) (hd : s.denotes o.ns o.name) : o.origin = .own := by
    have hdefines := SymbolTable.defines_iff_exists_named.2 ⟨s, hs, hd⟩
    have := horigin ho hr
    rw [Resolution.origin_eq_own_iff.2 hdefines] at this
    exact (Except.ok.inj this).symm
  exact {
    named := by
      intro s hs
      rcases List.mem_append.1 hs with hs | hs
      · simpa using (List.mem_filter.1 hs).2
      · obtain ⟨o, -, -, -, heq⟩ := hundeclared hs
        have hns : s.kind.namespace? = some o.ns := congrArg Prod.fst heq
        simp [Symbol.isImport, hns]
    distinct := by
      rw [List.map_append]
      refine hagrees.unique.append ?_ fun k hk hk' => ?_
      · rw [Resolution.unresolved_eq h, List.map_map]
        simpa only [Function.comp_def, fullName_undeclared] using nodup_fullNames _
      · obtain ⟨s, hs, rfl⟩ := List.mem_map.1 hk
        obtain ⟨s', hs', heq⟩ := List.mem_map.1 hk'
        obtain ⟨o, ho, hr, hu, heq'⟩ := hundeclared hs'
        have := hown hs ho hr (Symbol.denotes_iff.2 (heq.symm.trans heq'))
        rw [hu] at this
        cases this
    covers := by
      intro o ho hl
      rw [isListed, Bool.and_eq_true, Bool.or_eq_true, beq_iff_eq] at hl
      rw [List.map_append, List.mem_append]
      obtain ⟨hr, ho' | hu⟩ := hl
      · have hd := horigin ho hr
        rw [ho', Resolution.origin_eq_own_iff, SymbolTable.defines_iff_exists_named] at hd
        obtain ⟨s, hs, hd⟩ := hd
        exact .inl (List.mem_map.2 ⟨s, hs, Symbol.denotes_iff.1 hd⟩)
      · exact .inr (Resolution.fullName_mem_unresolved h ho hu)
    only := by
      intro s hs o ho hr hd
      rcases List.mem_append.1 hs with hs | hs
      · simp [isListed, hr, hown hs ho hr hd]
      · obtain ⟨p, hp, hrp, hu, heq⟩ := hundeclared hs
        -- Both references are to one name, which has one origin.
        have hname : p.fullName = o.fullName := heq.symm.trans (Symbol.denotes_iff.1 hd)
        have horigin_p := horigin hp hrp
        rw [fullName, fullName, Prod.mk.injEq, Option.some.injEq] at hname
        rw [hname.1, hname.2, horigin ho hr, hu] at horigin_p
        simp [isListed, hr, isUnresolved, Except.ok.inj horigin_p] }

theorem list_eq {a : Analysis} (h : ∀ s ∈ a.unresolved, s.isImport = false) :
    a.list { withoutImports := true, withReferences := true } =
      (a.table.named ++ a.unresolved).map (a.describe true) := by
  have haccepts : (fun s : Symbol => SymbolFilter.accepts
      { withoutImports := true, withReferences := true } s.kind) = fun s => !s.isImport := by
    funext s
    simp [SymbolFilter.accepts, Symbol.isImport]
  have hunresolved : a.unresolved.filter (fun s => !s.isImport) = a.unresolved :=
    List.filter_eq_self.2 fun s hs => by simp [h s hs]
  rw [list, haccepts]
  simp only [Bool.false_eq_true, if_false, List.filter_append, hunresolved]
  rfl

theorem accounts_of_attempt (version epoch : Nat)
    (h : Resolution.attempt known (Grammar.parse text).tree (.ofTree (Grammar.parse text).tree) warn =
      .ok r) :
    let a := assemble ⟨text, version⟩ epoch (Grammar.parse text)
      (.ofTree (Grammar.parse text).tree) r
    a.Accounts (a.list { withoutImports := true, withReferences := true }) := by
  intro a
  have hcovers := covers_of_attempt h
  have hunresolved := Resolution.unresolved_eq h
  rw [list_eq fun s hs => hcovers.named s (List.mem_append_right _ hs)]
  refine Covers.accounts hcovers (Resolution.nodup_locations h) ?_
  have hdefined : a.table.named.filter (fun s => !s.isDefined) = [] := by
    refine List.filter_eq_nil_iff.2 fun s hs => ?_
    simp [SymbolTable.isDefined_of_mem_ofTree (List.mem_filter.1 hs).1]
  have hundeclared : a.unresolved.filter (fun s => !s.isDefined) = a.unresolved := by
    refine List.filter_eq_self.2 fun s hs => ?_
    have hs' : s ∈ r.unresolved := hs
    rw [hunresolved] at hs'
    obtain ⟨o, -, rfl⟩ := List.mem_map.1 hs'
    rfl
  rw [List.filter_append, hdefined, hundeclared, List.nil_append]
  show r.unresolved.map Symbol.fullName = _
  rw [hunresolved, List.map_map]
  exact List.map_congr_left fun o _ => fullName_undeclared o

/-- In every analysis of a text the entries of all names account for the references. -/
theorem list_accounts (text : String) (version epoch : Nat) (warn : Bool) :
    let grammar := Grammar.parse text
    let table := SymbolTable.ofTree grammar.tree
    let all : SymbolFilter := { withoutImports := true, withReferences := true }
    (∀ library, ∃ r asked, Resolution.inquire library grammar.tree table warn = some (r, asked) ∧
        let a := assemble ⟨text, version⟩ epoch grammar table r
        a.Accounts (a.list all)) ∧
      ∀ known r, Resolution.attempt known grammar.tree table warn = .ok r →
        let a := assemble ⟨text, version⟩ epoch grammar table r
        a.Accounts (a.list all) := by
  intro grammar table all
  refine ⟨fun library => ?_, fun known r h => accounts_of_attempt version epoch h⟩
  have hU := Resolution.within_library library table
  obtain ⟨r, hr⟩ : ∃ r, Resolution.Settles library.table? grammar.tree table warn [] r :=
    Resolution.Progress.nil.exists_settles hU
  obtain ⟨asked, ha⟩ := Resolution.inquire_of_settles hr
  obtain ⟨-, hok⟩ := Resolution.Progress.nil.inquireFrom hU ha
  exact ⟨r, asked, ha, accounts_of_attempt version epoch hok⟩

/-- A mode and a token of one name are counted apart. -/
theorem list_accounts_shared :
    let text := "lexer grammar L; A : b -> mode(A), type(A) ; mode A; B : A c b ;"
    let grammar := Grammar.parse text
    let table := SymbolTable.ofTree grammar.tree
    let all : SymbolFilter := { withoutImports := true, withReferences := true }
    ∃ r, Resolution.attempt [] grammar.tree table true = .ok r ∧
      let a := assemble ⟨text, 1⟩ 0 grammar table r
      ((a.list all).map fun e => (e.symbol.kind.namespace?, e.symbol.name, e.referenceCount)) =
        [(some .token, "A", 2), (some .mode, "A", 1), (some .token, "B", 0), (some .rule, "b", 2),
          (some .rule, "c", 1)] ∧
      a.referenceCount "A" = 3 ∧ a.Accounts (a.list all) := by
  intro text grammar table all
  have hok : ∃ r, r ∈ (Resolution.attempt [] grammar.tree table true).toOption ∧
      let a := assemble ⟨text, 1⟩ 0 grammar table r
      ((a.list all).map fun e => (e.symbol.kind.namespace?, e.symbol.name, e.referenceCount)) =
        [(some .token, "A", 2), (some .mode, "A", 1), (some .token, "B", 0), (some .rule, "b", 2),
          (some .rule, "c", 1)] ∧
      a.referenceCount "A" = 3 := by
    decide +kernel
  obtain ⟨r, hr, hlist, hcount⟩ := hok
  have hr' : Resolution.attempt [] grammar.tree table true = .ok r := by
    cases ha : Resolution.attempt [] grammar.tree table true with
    | error g => rw [ha] at hr; cases hr
    | ok r' => rw [ha] at hr; cases hr; rfl
  exact ⟨r, hr', hlist, hcount, (list_accounts text 1 0 true).2 [] r hr'⟩

end

end Analysis

end GrammarAtlas
