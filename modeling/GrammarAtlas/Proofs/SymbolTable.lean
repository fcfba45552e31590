import GrammarAtlas.Proofs.Inquiry

/-! # What a table is made of

A table is built by entering declarations one after the other. Its imports are those that the tree
declares, and they stand among its symbols as well (`filter_symbols_eq_imports`). So the symbols of
a table tell all that other grammars see of it (`alike_of_symbols_eq`). -/

namespace GrammarAtlas

/-- The symbol under which a table lists an import. -/
def Import.symbol (i : Import) : Symbol :=
  ⟨i.grammar, if i.tokensOnly then .tokenVocabulary else .importedGrammar, some i.location, none, .own⟩

/-- Whether a symbol stands for an imported grammar. -/
def Symbol.isImport (s : Symbol) : Bool := s.kind.namespace?.isNone

theorem Import.isImport_symbol (i : Import) : i.symbol.isImport = true := by
  rw [Symbol.isImport, Import.symbol]
  split <;> rfl

theorem Import.link_eq_of_symbol_eq {i j : Import} (h : i.symbol = j.symbol) : i.link = j.link := by
  rw [Import.symbol, Import.symbol, Symbol.mk.injEq] at h
  obtain ⟨hg, hk, -⟩ := h
  rw [Import.link, Import.link, hg]
  cases hi : i.tokensOnly <;> cases hj : j.tokensOnly <;> simp_all

namespace Declaration

def import? : Declaration → Option Import
  | symbol _ _ _ _ => none
  | grammar i => some i

/-- A declared symbol has a namespace; only imports have none. -/
def Placed : Declaration → Prop
  | symbol kind _ _ _ => kind.namespace?.isSome
  | grammar _ => True

variable {kind : Symbol.Kind} {mode? : Option String} {n : Node} {d : Declaration}

theorem placed_of_ofName (hk : kind.namespace?.isSome) (h : ofName kind mode? n = some d) :
    d.Placed := by
  obtain ⟨name, -, rfl⟩ := Option.map_eq_some_iff.1 h
  exact hk

theorem placed_of_mem_ofNamed (hk : kind.namespace?.isSome) (h : d ∈ ofNamed kind mode? n) :
    d.Placed := by
  rw [ofNamed, Option.mem_toList] at h
  obtain ⟨m, -, h⟩ := Option.bind_eq_some_iff.1 h
  exact placed_of_ofName hk h

theorem placed_of_ofDelegate (h : ofDelegate n = some d) : d.Placed := by
  rw [ofDelegate] at h
  split at h
  · cases h; trivial
  · cases h

theorem placed_of_ofOption (h : ofOption n = some d) : d.Placed := by
  rw [ofOption] at h
  split at h
  · split at h
    · cases h; trivial
    · cases h; trivial
    · cases h
  · cases h

mutual

theorem placed_of_mem_ofPart (mode? : Option String) :
    ∀ n : Node, ∀ d ∈ ofPart mode? n, d.Placed
  | ⟨kind, location, children⟩ => by
    intro d hd
    cases kind with
    | parserRule => exact placed_of_mem_ofNamed rfl hd
    | tokenRule fragment => exact placed_of_mem_ofNamed (by cases fragment <;> rfl) hd
    | modeSection =>
      rw [ofPart] at hd
      split at hd
      · rcases List.mem_append.1 hd with hd | hd
        · exact placed_of_mem_ofNamed rfl hd
        · exact placed_of_mem_ofParts _ children d hd
      · simp at hd
    | tokenList =>
      obtain ⟨m, -, h⟩ := List.mem_filterMap.1 hd
      exact placed_of_ofName rfl h
    | channelList =>
      obtain ⟨m, -, h⟩ := List.mem_filterMap.1 hd
      exact placed_of_ofName rfl h
    | delegates =>
      obtain ⟨m, -, h⟩ := List.mem_filterMap.1 hd
      exact placed_of_ofDelegate h
    | options =>
      obtain ⟨m, -, h⟩ := List.mem_filterMap.1 hd
      exact placed_of_ofOption h
    | _ => simp [ofPart] at hd

theorem placed_of_mem_ofParts (mode? : Option String) :
    ∀ ns : List Node, ∀ d ∈ ofParts mode? ns, d.Placed
  | [] => by simp [ofParts]
  | n :: ns => by
    intro d hd
    rw [ofParts] at hd
    rcases List.mem_append.1 hd with hd | hd
    · exact placed_of_mem_ofPart mode? n d hd
    · exact placed_of_mem_ofParts mode? ns d hd

end

theorem placed_of_mem_ofTree {root : Node} (h : d ∈ ofTree root) : d.Placed :=
  placed_of_mem_ofParts none root.children d h

end Declaration

namespace SymbolTable
variable {table : SymbolTable} {d : Declaration} {ds : List Declaration}

theorem foldl_declare_imports (h : ∀ d ∈ ds, d.Placed)
    (ht : table.symbols.filter Symbol.isImport = table.imports.map Import.symbol) :
    (ds.foldl declare table).imports = table.imports ++ ds.filterMap Declaration.import? ∧
      (ds.foldl declare table).symbols.filter Symbol.isImport =
        (ds.foldl declare table).imports.map Import.symbol := by
  induction ds generalizing table with
  | nil => simpa using ht
  | cons d ds ih =>
    have hd := h d (.head _)
    have hstep : (table.declare d).imports = table.imports ++ (Declaration.import? d).toList ∧
        (table.declare d).symbols.filter Symbol.isImport =
          (table.declare d).imports.map Import.symbol := by
      cases d with
      | symbol kind name location mode? =>
        obtain ⟨ns, hns⟩ := Option.isSome_iff_exists.1 hd
        simp only [declare, hns, Declaration.import?]
        split
        · simpa using ht
        · simpa [push, Symbol.isImport, hns] using ht
      | grammar i =>
        refine ⟨rfl, ?_⟩
        show (table.symbols ++ [i.symbol]).filter Symbol.isImport = (table.imports ++ [i]).map Import.symbol
        simp [ht, i.isImport_symbol]
    obtain ⟨hi, hs⟩ := ih (fun d hd => h d (.tail _ hd)) hstep.2
    refine ⟨?_, hs⟩
    rw [List.foldl_cons, hi, hstep.1, List.append_assoc, List.filterMap_cons]
    cases Declaration.import? d <;> rfl

/-- The imports of a table are, in order, the symbols that stand for imported grammars. -/
theorem filter_symbols_eq_imports (root : Node) :
    (ofTree root).symbols.filter Symbol.isImport = (ofTree root).imports.map Import.symbol :=
  (foldl_declare_imports (fun _ hd => Declaration.placed_of_mem_ofTree hd) rfl).2

theorem alike_of_symbols_eq {root root' : Node} (h : (ofTree root).symbols = (ofTree root').symbols) :
    Alike (ofTree root) (ofTree root') := by
  refine ⟨h, ?_⟩
  have heq : (ofTree root).imports.map Import.symbol = (ofTree root').imports.map Import.symbol := by
    rw [← filter_symbols_eq_imports, ← filter_symbols_eq_imports, h]
  generalize (ofTree root).imports = a, (ofTree root').imports = b at heq ⊢
  induction a generalizing b with
  | nil => simpa using heq
  | cons i a ih =>
    cases b with
    | nil => simp at heq
    | cons j b =>
      simp only [List.map_cons, List.cons.injEq] at heq ⊢
      exact ⟨Import.link_eq_of_symbol_eq heq.1, ih b heq.2⟩

end SymbolTable

end GrammarAtlas
