import GrammarAtlas.Atlas.Graph
import GrammarAtlas.Proofs.Directory

/-! # What an import graph records

`ImportGraph.Imports g d grammar`: by the graph, `d` imports `grammar`; each change of the recorded
imports (`importsOf`) is read off here.

`ImportGraph.Mirrors g declared`: the graph files exactly the names that `declared` gives to the
documents, and under each name the documents of that name in ascending order. -/

namespace GrammarAtlas

namespace ImportGraph
variable {g : ImportGraph} {origin d grammar : String} {grammars : List String}

/-- The graph has it that `d` imports `grammar`. -/
def Imports (g : ImportGraph) (d grammar : String) : Prop :=
  ∃ l, g.imports.get? d = some l ∧ grammar ∈ l

/-- The graph files the names that `declared` gives to the documents, and nothing else. -/
structure Mirrors (g : ImportGraph) (declared : String → Option String) : Prop where
  name : ∀ d, g.name? d = declared d
  mem : ∀ n d, d ∈ (g.providers.get? n).getD [] ↔ declared d = some n
  ascends : ∀ n, ((g.providers.get? n).getD []).Pairwise (· < ·)
  nonempty : ∀ n, g.providers.get? n ≠ some []

namespace Mirrors
variable {declared : String → Option String}

theorem provider?_eq_some_iff (h : g.Mirrors declared) :
    g.provider? grammar = some d ↔
      declared d = some grammar ∧ ∀ e, declared e = some grammar → d ≤ e := by
  have heq : g.provider? grammar = ((g.providers.get? grammar).getD []).head? := by
    rw [provider?]
    cases g.providers.get? grammar <;> rfl
  rw [heq, head?_eq_some_iff_least (h.ascends grammar)]
  simp only [h.mem]

theorem declared_of_provider? (h : g.Mirrors declared) (hp : g.provider? grammar = some d) :
    declared d = some grammar :=
  (h.provider?_eq_some_iff.1 hp).1

/-- Other documents and grammars do not matter to who provides a grammar. -/
theorem provider?_congr {g' : ImportGraph} {declared' : String → Option String}
    (h : g.Mirrors declared) (h' : g'.Mirrors declared')
    (heq : ∀ e, declared' e = some grammar ↔ declared e = some grammar) :
    g'.provider? grammar = g.provider? grammar := by
  ext d
  rw [h'.provider?_eq_some_iff, h.provider?_eq_some_iff]
  simp only [heq]

theorem empty : ImportGraph.empty.Mirrors fun _ => none := by
  constructor <;> simp [ImportGraph.empty, name?, Directory.get?]

theorem of_replace {g' : ImportGraph} {declared' : String → Option String}
    (h : g.Mirrors declared) (grammar : String) (l : List String) (hname : ∀ e, g'.name? e = declared' e)
    (hself : g'.providers.get? grammar = if l = [] then none else some l)
    (hother : ∀ n, n ≠ grammar → g'.providers.get? n = g.providers.get? n)
    (hmem : ∀ e, e ∈ l ↔ declared' e = some grammar)
    (hkeep : ∀ n e, n ≠ grammar → (declared' e = some n ↔ declared e = some n))
    (hl : l.Pairwise (· < ·)) : g'.Mirrors declared' := by
  have hget : (g'.providers.get? grammar).getD [] = l := by
    rw [hself]; split <;> simp_all
  refine ⟨hname, fun n e => ?_, fun n => ?_, fun n => ?_⟩ <;> by_cases hn : n = grammar
  · rw [hn, hget]; exact hmem e
  · rw [hother n hn, h.mem, hkeep n e hn]
  · rw [hn, hget]; exact hl
  · rw [hother n hn]; exact h.ascends n
  · rw [hn, hself]; split <;> simp_all
  · rw [hother n hn]; exact h.nonempty n

theorem eraseName (h : g.Mirrors declared) (d : String) :
    (g.eraseName d).Mirrors (Function.update declared d none) := by
  rw [ImportGraph.eraseName]
  cases hd : g.name? d with
  | none =>
    rw [Function.update_eq_self_iff.2 (by rw [← h.name d, hd])]
    exact h
  | some n =>
    have hdn : declared d = some n := by rw [← h.name d, hd]
    refine h.of_replace n (((g.providers.get? n).getD []).filter (· != d)) (fun e => ?_) ?_
      (fun m hm => ?_) (fun e => ?_) (fun m e hm => ?_) ((h.ascends n).filter _)
    · by_cases he : e = d
      · subst he; simp [name?, Directory.get?_erase_self]
      · rw [Function.update_of_ne he, ← h.name e]
        exact Directory.get?_erase_of_ne he
    · by_cases hl : ((g.providers.get? n).getD []).filter (· != d) = []
      · simp [hl, Directory.get?_erase_self]
      · simp only [List.isEmpty_iff, hl, ↓reduceIte]; exact Directory.get?_insert_self
    · by_cases hl : ((g.providers.get? n).getD []).filter (· != d) = []
      · simp [hl, Directory.get?_erase_of_ne hm]
      · simp only [List.isEmpty_iff, hl, ↓reduceIte]; exact Directory.get?_insert_of_ne hm
    · rw [List.mem_filter, h.mem]
      by_cases he : e = d
      · subst he; simp
      · simp [he]
    · by_cases he : e = d
      · subst he; simp [hdn, Ne.symm hm]
      · rw [Function.update_of_ne he]

theorem insertName (h : g.Mirrors declared) {d : String} (hd : declared d = none) (n : String) :
    (g.insertName d n).Mirrors (Function.update declared d (some n)) := by
  refine h.of_replace n (insertAscending d ((g.providers.get? n).getD [])) (fun e => ?_) ?_
    (fun m hm => ?_) (fun e => ?_) (fun m e hm => ?_) (pairwise_insertAscending (h.ascends n))
  · by_cases he : e = d
    · subst he; simp [name?, ImportGraph.insertName, Directory.get?_insert_self]
    · rw [Function.update_of_ne he, ← h.name e]
      exact Directory.get?_insert_of_ne he
  · have hne : insertAscending d ((g.providers.get? n).getD []) ≠ [] :=
      List.ne_nil_of_mem (mem_insertAscending.2 (.inl rfl))
    rw [if_neg hne]; exact Directory.get?_insert_self
  · exact Directory.get?_insert_of_ne hm
  · rw [mem_insertAscending, h.mem]
    by_cases he : e = d
    · subst he; simp
    · simp [he]
  · by_cases he : e = d
    · subst he; simp [hd, Ne.symm hm]
    · rw [Function.update_of_ne he]

theorem setName (h : g.Mirrors declared) (d : String) (n? : Option String) :
    (g.setName d n?).Mirrors (Function.update declared d n?) := by
  rw [ImportGraph.setName]
  split
  · rename_i heq
    rw [Function.update_eq_self_iff.2 (by rw [← heq, h.name d])]
    exact h
  · have he := h.eraseName d
    cases n? with
    | none => exact he
    | some n =>
      have := he.insertName (d := d) (by simp) n
      rwa [Function.update_idem] at this

theorem congr_graph {g' : ImportGraph} (h : g.Mirrors declared) (hn : g'.names = g.names)
    (hp : g'.providers = g.providers) : g'.Mirrors declared := by
  refine ⟨fun d => ?_, fun n d => ?_, fun n => ?_, fun n => ?_⟩
  · rw [name?, hn]; exact h.name d
  · rw [hp]; exact h.mem n d
  · rw [hp]; exact h.ascends n
  · rw [hp]; exact h.nonempty n

theorem erase (h : g.Mirrors declared) (d : String) :
    (g.erase d).Mirrors (Function.update declared d none) :=
  (h.eraseName d).congr_graph rfl rfl

end Mirrors

theorem mem_affected {grammar? : Option String} :
    grammar ∈ g.affected d grammar? ↔ g.name? d = some grammar ∨ grammar? = some grammar := by
  rw [affected]
  split
  · rename_i heq
    rw [heq, Option.mem_toList, or_self]
  · rw [List.mem_append, Option.mem_toList, Option.mem_toList]

/-- The grammars that a document imports by the graph. -/
def importsOf (g : ImportGraph) (d : String) : List String := (g.imports.get? d).getD []

theorem imports_iff : g.Imports d grammar ↔ grammar ∈ g.importsOf d := by
  rw [Imports, importsOf]
  cases g.imports.get? d <;> simp

theorem eraseName_imports (g : ImportGraph) (d : String) : (g.eraseName d).imports = g.imports := by
  rw [eraseName]; split <;> rfl

theorem setName_imports (g : ImportGraph) (d : String) (n? : Option String) :
    (g.setName d n?).imports = g.imports := by
  rw [setName]
  split
  · rfl
  · cases n? with
    | none => exact g.eraseName_imports d
    | some n => exact g.eraseName_imports d

theorem importsOf_setName (d : String) (n? : Option String) (e : String) :
    (g.setName d n?).importsOf e = g.importsOf e := by
  rw [importsOf, setName_imports, importsOf]

theorem importsOf_setImports_self (d : String) (l : List String) :
    (g.setImports d l).importsOf d = l := by
  rw [importsOf, setImports]
  by_cases hl : l = []
  · simp [hl, Directory.get?_erase_self]
  · simp [hl, Directory.get?_insert_self]

theorem importsOf_setImports_of_ne {e : String} (h : e ≠ d) (l : List String) :
    (g.setImports d l).importsOf e = g.importsOf e := by
  rw [importsOf, importsOf, setImports]
  by_cases hl : l = []
  · simp [hl, Directory.get?_erase_of_ne h]
  · simp [hl, Directory.get?_insert_of_ne h]

theorem importsOf_erase_self : (g.erase d).importsOf d = [] := by
  simp [importsOf, erase, Directory.get?_erase_self]

theorem importsOf_erase_of_ne {e : String} (h : e ≠ d) :
    (g.erase d).importsOf e = g.importsOf e := by
  simp [importsOf, erase, Directory.get?_erase_of_ne h]

theorem distinct_setImports (hd : g.imports.Distinct) (d : String) (l : List String) :
    (g.setImports d l).imports.Distinct := by
  simp only [setImports]
  split
  · exact hd.erase
  · exact hd.insert

end ImportGraph

end GrammarAtlas
