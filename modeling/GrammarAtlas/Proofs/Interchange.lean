import GrammarAtlas.Proofs.Extraction
import GrammarAtlas.Proofs.ImportSearch
import GrammarAtlas.Proofs.Unrest

/-! # Views that importers cannot tell apart

Of an imported table a search reads which names it declares and which grammars it leads on to. Both
follow from the list of its symbols, if the table was read off a tree:

* an index of the names, kept while the declarations are entered, has the places that they have in the
  list (`IndexedTable.indexes_ofTree`), so that it finds what a search through the list finds;
* the links are the imports among the symbols (`alike_of_symbols_eq`).

So two libraries that differ in one table, and there not in its symbols, answer every question of an
inquiry alike, and the questions are the same (`Resolution.inquireFrom_congr`). Main statement:
`SymbolTable.views_interchangeable`. -/

namespace GrammarAtlas

/-- A table, and for each of its names at which place of the symbols the name is declared. -/
structure IndexedTable where
  table : SymbolTable
  places : List ((Namespace × String) × Nat)

namespace IndexedTable

/-- Enters a declaration as `SymbolTable.declare` does, but looks the name up in the index. -/
def declare (t : IndexedTable) : Declaration → IndexedTable
  | .symbol kind name location mode? =>
    let s : Symbol := ⟨name, kind, some location, mode?, .own⟩
    match kind.namespace? with
    | some ns =>
      if (t.places.lookup (ns, name)).isSome then
        { t with
          table.diagnostics := t.table.diagnostics ++ [⟨.duplicate ns name, location⟩] }
      else ⟨t.table.push s, ((ns, name), t.table.symbols.length) :: t.places⟩
    | none => { t with table := t.table.push s }
  | .grammar i => { t with table := t.table.declare (.grammar i) }

def ofTree (root : Node) : IndexedTable :=
  (Declaration.ofTree root).foldl declare
    ⟨{ SymbolTable.empty with grammarName? := root.grammarName?, flavour := root.flavour }, []⟩

/-- What `name` refers to in `ns`, by the index. -/
def find? (t : IndexedTable) (ns : Namespace) (name : String) : Option Symbol :=
  (t.places.lookup (ns, name)).bind (t.table.symbols[·]?)

/-- The index has the place of the first symbol for each name. -/
def Indexes (t : IndexedTable) : Prop :=
  ∀ ns name, t.places.lookup (ns, name) = t.table.symbols.findIdx? (·.denotes ns name)

variable {t : IndexedTable}

theorem Indexes.isSome_lookup (h : t.Indexes) (ns : Namespace) (name : String) :
    (t.places.lookup (ns, name)).isSome = t.table.defines ns name := by
  rw [h, SymbolTable.defines, SymbolTable.find?, List.findIdx?_isSome, List.isSome_find?]

theorem Indexes.find?_eq (h : t.Indexes) (ns : Namespace) (name : String) :
    t.find? ns name = t.table.find? ns name := by
  rw [find?, h, SymbolTable.find?, List.find?_eq_bind_findIdx?_getElem?]

theorem table_declare (h : t.Indexes) (d : Declaration) : (t.declare d).table = t.table.declare d := by
  cases d with
  | grammar i => rfl
  | symbol kind name location mode? =>
    simp only [declare, SymbolTable.declare, h.isSome_lookup]
    cases kind.namespace? with
    | none => rfl
    | some ns =>
      simp only
      split <;> rfl

section
variable {symbols : List Symbol} {s : Symbol} {ns : Namespace} {name : String}

/-- Another symbol leaves the place of a name as it is, -/
theorem findIdx?_concat_of_not_denotes (hs : s.denotes ns name = false) :
    (symbols ++ [s]).findIdx? (·.denotes ns name) = symbols.findIdx? (·.denotes ns name) := by
  simp [List.findIdx?_append, hs]

/-- and the first symbol of a name is behind all others. -/
theorem findIdx?_concat_of_denotes (hnone : symbols.findIdx? (·.denotes ns name) = none)
    (hs : s.denotes ns name) :
    (symbols ++ [s]).findIdx? (·.denotes ns name) = some symbols.length := by
  rw [List.findIdx?_append, hnone]
  simp [hs]

end

theorem Indexes.declare (h : t.Indexes) (d : Declaration) : (t.declare d).Indexes := by
  intro ns name
  cases d with
  | grammar i =>
    show t.places.lookup _ = (t.table.symbols ++ [i.symbol]).findIdx? _
    rw [findIdx?_concat_of_not_denotes (SymbolTable.denotes_of_isImport i.isImport_symbol ns name)]
    exact h ns name
  | symbol kind name' location mode? =>
    simp only [IndexedTable.declare]
    cases hk : kind.namespace? with
    | none =>
      show t.places.lookup _ = (t.table.symbols ++ [_]).findIdx? _
      rw [findIdx?_concat_of_not_denotes (by simp [Symbol.denotes, hk])]
      exact h ns name
    | some ns' =>
      simp only
      split
      · exact h ns name
      rename_i hnew
      show List.lookup _ (_ :: _) = (t.table.symbols ++ [_]).findIdx? _
      by_cases heq : (ns, name) = (ns', name')
      · cases heq
        have hnone : t.table.symbols.findIdx? (·.denotes ns name) = none := by
          rw [← h, ← Option.not_isSome_iff_eq_none]
          exact hnew
        rw [findIdx?_concat_of_denotes hnone (by simp [Symbol.denotes, hk]), List.lookup_cons_self]
      · have hdenotes : Symbol.denotes ⟨name', kind, some location, mode?, .own⟩ ns name = false := by
          rw [Bool.eq_false_iff, Ne, Symbol.denotes, hk, Bool.and_eq_true, beq_iff_eq, beq_iff_eq]
          rintro ⟨hns, hname⟩
          exact heq (Prod.ext (Option.some.inj hns).symm hname.symm)
        rw [findIdx?_concat_of_not_denotes hdenotes, List.lookup_cons, beq_eq_false_iff_ne.2 heq]
        exact h ns name

theorem Indexes.foldl_declare (h : t.Indexes) (ds : List Declaration) :
    (ds.foldl IndexedTable.declare t).Indexes ∧
      (ds.foldl IndexedTable.declare t).table = ds.foldl SymbolTable.declare t.table := by
  induction ds generalizing t with
  | nil => exact ⟨h, rfl⟩
  | cons d ds ih =>
    rw [List.foldl_cons, List.foldl_cons, ← table_declare h d]
    exact ih (h.declare d)

theorem indexes_ofTree (root : Node) : (ofTree root).Indexes :=
  (Indexes.foldl_declare (fun _ _ => rfl) _).1

theorem table_ofTree (root : Node) : (ofTree root).table = SymbolTable.ofTree root :=
  (Indexes.foldl_declare (fun _ _ => rfl) _).2

theorem find?_ofTree (root : Node) (ns : Namespace) (name : String) :
    (ofTree root).find? ns name = (SymbolTable.ofTree root).find? ns name := by
  rw [(indexes_ofTree root).find?_eq, table_ofTree]

/-- The places of the names are a matter of the symbols. -/
theorem lookup_congr {root root' : Node}
    (h : (SymbolTable.ofTree root).symbols = (SymbolTable.ofTree root').symbols) (ns : Namespace)
    (name : String) :
    (ofTree root).places.lookup (ns, name) = (ofTree root').places.lookup (ns, name) := by
  rw [indexes_ofTree, indexes_ofTree, table_ofTree, table_ofTree, h]

end IndexedTable

namespace Library

theorem importCount_concat (library : Library) (grammar : String) (table : SymbolTable) :
    (library ++ [(grammar, table)]).importCount = library.importCount + table.imports.length := by
  induction library with
  | nil => simp [importCount]
  | cons e library ih => simp only [List.cons_append, importCount, ih, Nat.add_assoc]

theorem alike_concat {a b : SymbolTable} (h : a.Alike b) (library : Library) (grammar name : String) :
    AlikeAnswers (table? (library ++ [(grammar, a)]) name) (table? (library ++ [(grammar, b)]) name) := by
  simp only [table?, List.reverse_concat, List.lookup_cons]
  split
  · exact .some h
  · exact .refl _

end Library

namespace Resolution
variable {tree : Node} {own : SymbolTable} {warn : Bool} {known known' : Known}

/-- The same questions, with answers that no importing grammar can tell apart. -/
abbrev Matches : Known → Known → Prop :=
  List.Forall₂ fun e e' => e.1 = e'.1 ∧ AlikeAnswers e.2 e'.2

theorem Matches.questions (h : Matches known known') : known.map Prod.fst = known'.map Prod.fst := by
  induction h with
  | nil => rfl
  | cons he _ ih => rw [List.map_cons, List.map_cons, he.1, ih]

/-- Where all answers are alike, the same questions arise and lead to the same. -/
theorem inquireFrom_congr {library library' : Library}
    (hanswers : ∀ g, AlikeAnswers (library.table? g) (library'.table? g)) (turns : Nat)
    (h : Matches known known') :
    Option.Rel (fun found found' => found.1 = found'.1 ∧ Matches found.2 found'.2)
      (inquireFrom library tree own warn turns known)
      (inquireFrom library' tree own warn turns known') := by
  induction turns generalizing known known' with
  | zero => exact .none
  | succ turns ih =>
    rw [inquireFrom, inquireFrom, ← attempt_congr (.of_forall₂ h)]
    cases attempt known tree own warn with
    | ok r => exact .some ⟨rfl, h⟩
    | error g => exact ih (List.rel_append h (.cons ⟨rfl, hanswers g⟩ .nil))

/-- A library settles an inquiry as it would with another table that is alike. -/
theorem inquire_congr {a b : SymbolTable} (h : a.Alike b) (library : Library) (grammar : String)
    (tree : Node) (own : SymbolTable) (warn : Bool) :
    ∃ r asked asked', inquire (library ++ [(grammar, a)]) tree own warn = some (r, asked) ∧
      inquire (library ++ [(grammar, b)]) tree own warn = some (r, asked') ∧ Matches asked asked' := by
  obtain ⟨r, asked, ha, -⟩ := exists_inquire (library ++ [(grammar, a)]) tree own warn
  have hrel : Option.Rel (fun found found' => found.1 = found'.1 ∧ Matches found.2 found'.2)
      (inquire (library ++ [(grammar, a)]) tree own warn)
      (inquire (library ++ [(grammar, b)]) tree own warn) := by
    rw [inquire, inquire, Library.importCount_concat, Library.importCount_concat, h.length_imports]
    exact inquireFrom_congr (Library.alike_concat h library grammar) _ .nil
  generalize inquire (library ++ [(grammar, b)]) tree own warn = found? at hrel ⊢
  rw [ha] at hrel ⊢
  cases hrel with
  | @some _ found' hrel =>
    obtain ⟨rfl, hmatches⟩ := hrel
    exact ⟨found'.1, asked, found'.2, rfl, rfl, hmatches⟩

end Resolution

/-! ## Views -/

namespace Analysis

theorem sameView_assemble {snapshot snapshot' : Snapshot} {epoch epoch' : Nat}
    {grammar grammar' : Grammar} {a b : SymbolTable} (h : a.symbols = b.symbols) (r : Resolution) :
    (assemble snapshot epoch grammar a r).sameView
      (assemble snapshot' epoch' grammar' b r) :=
  sameView_iff.2 ⟨h, rfl, rfl⟩

theorem table_assemble (snapshot : Snapshot) (epoch : Nat) (grammar : Grammar) (table : SymbolTable)
    (r : Resolution) : (assemble snapshot epoch grammar table r).table = table := rfl

end Analysis

namespace SymbolTable

/-- All that importers read of the tables of two trees is the same. -/
structure Interchangeable (root root' : Node) : Prop where
  /-- The indexes have the names at the same places. -/
  places : ∀ ns name, (IndexedTable.ofTree root).places.lookup (ns, name) =
    (IndexedTable.ofTree root').places.lookup (ns, name)
  /-- What a name refers to by the one table is found by the index of the other. -/
  lookups : ∀ ns name, (ofTree root).find? ns name = (IndexedTable.ofTree root').find? ns name
  /-- The imports lead to the same grammars, each for all of its names or for its tokens. -/
  links : (ofTree root).imports.map Import.link = (ofTree root').imports.map Import.link
  /-- Whatever text imports the tables, by whatever name and along with whatever other grammars, they
  lead to one resolution, and to the same questions on the way. -/
  resolution : ∀ (importing grammar : String) (library : Library) (warn : Bool),
    let tree := (Grammar.parse importing).tree
    ∃ r asked asked',
      Resolution.inquire (library ++ [(grammar, ofTree root)]) tree (ofTree tree) warn =
        some (r, asked) ∧
      Resolution.inquire (library ++ [(grammar, ofTree root')]) tree (ofTree tree) warn =
        some (r, asked') ∧
      asked.map Prod.fst = asked'.map Prod.fst

theorem interchangeable_of_symbols_eq {root root' : Node}
    (h : (ofTree root).symbols = (ofTree root').symbols) : Interchangeable root root' where
  places := IndexedTable.lookup_congr h
  lookups := by
    intro ns name
    rw [IndexedTable.find?_ofTree, find?, find?, h]
  links := (alike_of_symbols_eq h).links
  resolution := by
    intro importing grammar library warn tree
    obtain ⟨r, asked, asked', ha, hb, hmatches⟩ :=
      Resolution.inquire_congr (alike_of_symbols_eq h) library grammar tree (ofTree tree) warn
    exact ⟨r, asked, asked', ha, hb, hmatches.questions⟩

/-- If the tables of two texts have equal symbols, no importer can tell the texts apart. So an analysis
that shows what the one before it showed leaves all importers as they are. -/
theorem views_interchangeable (text text' : String) :
    let root := (Grammar.parse text).tree
    let root' := (Grammar.parse text').tree
    ((ofTree root).symbols = (ofTree root').symbols → Interchangeable root root') ∧
    ∀ before after : Analysis, before.table = ofTree root → after.table = ofTree root' →
      before.sameView after → Interchangeable root root' := by
  intro root root'
  refine ⟨interchangeable_of_symbols_eq, fun before after hbefore hafter hview => ?_⟩
  have hsymbols := (Analysis.sameView_iff.1 hview).1
  rw [hbefore, hafter] at hsymbols
  exact interchangeable_of_symbols_eq hsymbols

/-- The two texts differ in the name of the grammar, in that of its import and in what their rule is, and
their analyses show the same. The importer draws on the grammar behind them. -/
theorem views_interchangeable_renamed :
    let text := "grammar A; import B = C; x : 'x' ;"
    let text' := "grammar Z; import D = C; x : 'yz'? ;"
    let root := (Grammar.parse text).tree
    let root' := (Grammar.parse text').tree
    let tree := (Grammar.parse "grammar G; import Q; r : x y z ;").tree
    let library : Library := [("C", ofTree (Grammar.parse "grammar C; y : 'y' ;").tree)]
    ((ofTree root).grammarName? = some "A" ∧ (ofTree root').grammarName? = some "Z") ∧
    ((ofTree root).imports.map Import.alias? = [some "B"] ∧
      (ofTree root').imports.map Import.alias? = [some "D"]) ∧
    (∃ r, Resolution.attempt [("C", none)] root (ofTree root) true = .ok r ∧
      Resolution.attempt [("C", none)] root' (ofTree root') true = .ok r ∧
      (Analysis.assemble ⟨text, 1⟩ 0 (Grammar.parse text) (ofTree root) r).sameView
        (Analysis.assemble ⟨text', 2⟩ 0 (Grammar.parse text') (ofTree root') r) ∧
      Interchangeable root root') ∧
    (ofTree root).symbols = (ofTree root').symbols ∧
    ∃ r asked asked',
      Resolution.inquire (library ++ [("Q", ofTree root)]) tree (ofTree tree) true = some (r, asked) ∧
      Resolution.inquire (library ++ [("Q", ofTree root')]) tree (ofTree tree) true =
        some (r, asked') ∧
      (r.occurrences.filter Occurrence.isReference).map (fun o => (o.name, o.origin)) =
        [("x", .imported "Q"), ("y", .imported "C"), ("z", .unresolved)] ∧
      asked.map Prod.fst = ["Q", "C"] ∧ asked'.map Prod.fst = ["Q", "C"] := by
  intro text text' root root' tree library
  -- Each side is computed on its own: compared with each other the two would be unfolded in step.
  let x : Location := ⟨⟨25, ⟨1, 25⟩⟩, ⟨26, ⟨1, 26⟩⟩⟩
  let c : Location := ⟨⟨18, ⟨1, 18⟩⟩, ⟨23, ⟨1, 23⟩⟩⟩
  let symbols : List Symbol :=
    [⟨"C", .importedGrammar, some c, none, .own⟩, ⟨"x", .parserRule, some x, none, .own⟩]
  let shown : Resolution := ⟨[⟨"x", x, .definition, .rule, .own⟩], [], [⟨.unknownImport "C", c⟩]⟩
  have hroot : (ofTree root).symbols = symbols ∧
      (Resolution.attempt [("C", none)] root (ofTree root) true).toOption = some shown := by
    decide +kernel
  have hroot' : (ofTree root').symbols = symbols ∧
      (Resolution.attempt [("C", none)] root' (ofTree root') true).toOption = some shown := by
    decide +kernel
  have hresolved := Resolution.eq_ok_of_mem_toOption hroot.2
  have hresolved' := Resolution.eq_ok_of_mem_toOption hroot'.2
  have hsymbols : (ofTree root).symbols = (ofTree root').symbols := hroot.1.trans hroot'.1.symm
  have hview : (Analysis.assemble ⟨text, 1⟩ 0 (Grammar.parse text) (ofTree root) shown).sameView
      (Analysis.assemble ⟨text', 2⟩ 0 (Grammar.parse text') (ofTree root') shown) :=
    Analysis.sameView_assemble hsymbols shown
  have hcomputed : (Resolution.inquire (library ++ [("Q", ofTree root)]) tree (ofTree tree) true).map
      (fun found => ((found.1.occurrences.filter Occurrence.isReference).map
        (fun o => (o.name, o.origin)), found.2.map Prod.fst)) =
      some ([("x", .imported "Q"), ("y", .imported "C"), ("z", .unresolved)], ["Q", "C"]) := by
    decide +kernel
  obtain ⟨hshown, hviews⟩ := views_interchangeable text text'
  obtain ⟨r, asked, asked', ha, hb, hquestions⟩ :=
    (hshown hsymbols).resolution "grammar G; import Q; r : x y z ;" "Q" library true
  rw [ha, Option.map_some, Option.some.injEq, Prod.mk.injEq] at hcomputed
  refine ⟨by decide +kernel, by decide +kernel, ⟨shown, hresolved, hresolved', hview,
    hviews _ _ (Analysis.table_assemble ..) (Analysis.table_assemble ..) hview⟩, hsymbols, r, asked,
    asked', ha, hb, hcomputed.1, hcomputed.2, ?_⟩
  rw [← hquestions, hcomputed.2]

end SymbolTable

end GrammarAtlas
