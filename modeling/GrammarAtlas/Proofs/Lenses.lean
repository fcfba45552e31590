import GrammarAtlas.Proofs.Computations
import GrammarAtlas.Workspace.Lens

/-! # What lenses count

A listing says of each symbol how often it is referred to in its own namespace. A lens shows how
often its name is referred to, in any namespace. `Workspace.lenses_count_names`, for all files: the
command ends, each line is the lens of a listed symbol that is declared, and the number it shows
exceeds that of the listing by the references to other symbols of the same name. So the two agree if
and only if there are none; `Workspace.lens_counts_mode_for_token` has a file with some. -/

namespace GrammarAtlas

namespace Analysis
variable (a : Analysis)

/-- The references to the name of a symbol that do not refer to it. -/
def strays (s : Symbol) : List Occurrence :=
  (a.references s.name).filter fun o => s.kind.namespace? != some o.ns

theorem length_references (s : Symbol) :
    a.referenceCount s.name = (a.referencesTo s).length + (a.strays s).length := by
  rw [referenceCount, List.length_eq_length_filter_add fun o => s.kind.namespace? == some o.ns]
  congr 1
  rw [referencesTo, references]
  cases s.kind.namespace? with
  | none => simp
  | some ns =>
    simp only [List.length_map, List.filter_filter]
    congr 2
    funext o
    rw [Occurrence.refersTo, Bool.and_right_comm, Bool.and_comm]
    congr 1
    rw [Bool.eq_iff_iff, beq_iff_eq, beq_iff_eq, Option.some.injEq, eq_comm]

theorem length_references_of_mem {f : SymbolFilter} {e : SymbolEntry} (h : e ∈ a.list f) :
    a.referenceCount e.symbol.name = e.referenceCount + (a.strays e.symbol).length := by
  obtain ⟨s, -, rfl⟩ := List.mem_map.1 h
  exact a.length_references s

/-- The lens of a listed symbol, if it is of a kind that has one and is declared. -/
def lens? (e : SymbolEntry) : Option String :=
  if e.symbol.kind.hasLens then
    e.symbol.definition?.map fun l =>
      Lens.line e.symbol.name (.ofPosition l.start.position) (a.referenceCount e.symbol.name)
  else none

def lenses : List String := (a.list { withoutImports := true }).filterMap a.lens?

end Analysis

namespace Lens
open Session
variable {s s' : Session} {settings : Settings} {library? : Option Library}
  {ledger : List Publication} {an : Analysis} {file : SourceFile}

theorem ofEntry_shown (h : s.Shows file.id an) (hu : s.Unique) (ht : an.snapshot.text = file.text)
    (e : SymbolEntry) : ofEntry file e s = some (an.lens? e, s) := by
  rw [ofEntry, Analysis.lens?]
  split
  · cases e.symbol.definition? with
    | none => rfl
    | some l =>
      exact AtlasM.bind_eq
        (AtlasM.count_eq (AtlasM.perform_shown h hu ht (.count e.symbol.name))) _
  · rfl

theorem ofFile_eq (hperform : AtlasM.perform (.query file.id (some file.text) (.overview false)) s =
      some (.entries (an.list { withoutImports := true }), s'))
    (h : s'.Shows file.id an) (hu : s'.Unique) (ht : an.snapshot.text = file.text) :
    ofFile file s = some (an.lenses, s') := by
  rw [ofFile, AtlasM.bind_eq (AtlasM.entries_eq hperform),
    AtlasM.bind_eq (AtlasM.mapM_eq fun e _ => ofEntry_shown h hu ht e), List.filterMap_map]
  rfl

/-- The analysis is what a session shows for a file, and what its symbols are listed from. -/
def Stems (settings : Settings) (library? : Option Library) (file : SourceFile) (an : Analysis) :
    Prop :=
  ∃ ledger s, Reached settings library? ledger s ∧ s.Shows file.id an ∧
    an.snapshot.text = file.text ∧
    AtlasM.entries file (.overview false) s = some (an.list { withoutImports := true }, s)

theorem exists_ofFile (h : Reached settings library? ledger s) (file : SourceFile) :
    ∃ ledger' an s', ofFile file s = some (an.lenses, s') ∧ Reached settings library? ledger' s' ∧
      Stems settings library? file an := by
  obtain ⟨ledger', an, s', hperform, hr, hshows, ht⟩ := AtlasM.exists_shown h file (.overview false)
  have hu := hr.standing.1.sound.coherent.unique
  exact ⟨ledger', an, s', ofFile_eq hperform hshows hu ht, hr, ledger', s', hr, hshows, ht,
    AtlasM.entries_eq (AtlasM.perform_shown hshows hu ht (.overview false))⟩

/-- The lines for a file, under its name if it is one of several. -/
def block (several : Prop) [Decidable several] (file : SourceFile) (lenses : List String) :
    List String :=
  if several then file.id :: lenses else lenses

/-- The lines for each of the files. -/
def blocks (several : Prop) [Decidable several] (files : List SourceFile) :
    AtlasM (List (List String)) :=
  files.mapM fun file => return block several file (← ofFile file)

section
variable (several : Prop) [Decidable several]

theorem blocks_nil (s : Session) : blocks several [] s = some ([], s) := rfl

theorem blocks_cons {files : List SourceFile} {s₁ : Session} {rest : List (List String)}
    (hfile : ofFile file s = some (an.lenses, s₁)) (hrest : blocks several files s₁ = some (rest, s')) :
    blocks several (file :: files) s = some (block several file an.lenses :: rest, s') := by
  rw [blocks, List.mapM_cons, AtlasM.bind_eq (AtlasM.bind_eq hfile _)]
  exact AtlasM.bind_eq hrest _

theorem exists_blocks (h : Reached settings library? ledger s) (files : List SourceFile) :
    ∃ analyses s', List.Forall₂ (Stems settings library?) files analyses ∧
      blocks several files s =
        some (List.zipWith (fun file an => block several file an.lenses) files analyses, s') := by
  induction files generalizing s ledger with
  | nil => exact ⟨[], s, .nil, blocks_nil several s⟩
  | cons file files ih =>
    obtain ⟨ledger', an, s₁, hfile, hr, hstems⟩ := exists_ofFile h file
    obtain ⟨analyses, s', hall, hrest⟩ := ih hr
    exact ⟨an :: analyses, s', .cons hstems hall, blocks_cons several hfile hrest⟩

end

end Lens

namespace Workspace
open Session

theorem run_lenses {files : List SourceFile} {blocks : List (List String)} {s s' : Session}
    (hregister : register files (start {} none) = some (⟨⟩, s))
    (hblocks : Lens.blocks (1 < files.length) files s = some (blocks, s')) :
    Workspace.run files (Lens.command files) = some { lines := blocks.flatten } := by
  have hcommand : Lens.command files s = some ({ lines := blocks.flatten }, s') :=
    AtlasM.bind_eq hblocks _
  exact run_eq hregister hcommand

theorem lenses_count_names (files : List SourceFile) :
    ∃ analyses, List.Forall₂ (Lens.Stems {} none) files analyses ∧
      Workspace.run files (Lens.command files) = some
        { lines := (List.zipWith (fun file an => Lens.block (1 < files.length) file an.lenses)
            files analyses).flatten } ∧
      ∀ an ∈ analyses, ∀ e ∈ an.list { withoutImports := true },
        an.referenceCount e.symbol.name = e.referenceCount + (an.strays e.symbol).length := by
  have hstart : Reached {} none [] (start {} none) := .start
  obtain ⟨s, hregister, hr, -⟩ := exists_registered hstart files
  obtain ⟨analyses, s', hall, hblocks⟩ := Lens.exists_blocks (1 < files.length) hr files
  refine ⟨analyses, hall, run_lenses hregister hblocks, fun an _ e he => ?_⟩
  exact an.length_references_of_mem he

/-- A token and a mode of one name, of which the mode is referred to once. -/
def tokenAndMode : SourceFile where
  path := .ofString "L.g4"
  text := "lexer grammar L;\nX: 'x' -> pushMode(X);\nmode X;\nY: 'y' -> popMode;\n"

theorem lens_counts_mode_for_token :
    Workspace.run [tokenAndMode] (Lens.command [tokenAndMode]) = some
        { lines := ["1:0 X: 1 references", "2:5 X: 1 references", "3:0 Y: 0 references"] } ∧
      ∃ an, Lens.Stems {} none tokenAndMode an ∧
        (an.list { withoutImports := true }).map (·.symbol.kind) = [.tokenRule, .mode, .tokenRule] ∧
        (an.list { withoutImports := true }).map SymbolEntry.referenceCount = [0, 1, 0] := by
  have hend : ∃ x, x ∈ (start {} none).perform 60 (.update tokenAndMode.id tokenAndMode.text) ∧
      ∃ y, y ∈ x.2.perform 60
          (.query tokenAndMode.id (some tokenAndMode.text) (.overview false)) ∧
        ∀ slot ∈ y.2.slots, ∀ an ∈ slot.published?,
          an.lenses = ["1:0 X: 1 references", "2:5 X: 1 references", "3:0 Y: 0 references"] ∧
          (an.list { withoutImports := true }).map (·.symbol.kind) = [.tokenRule, .mode, .tokenRule] ∧
          (an.list { withoutImports := true }).map SymbolEntry.referenceCount = [0, 1, 0] := by
    decide +kernel
  obtain ⟨⟨r, s₁⟩, hx, y, hy, hall⟩ := hend
  have hr : Reached {} none _ s₁ := .perform .start rfl hx
  obtain ⟨ledger, an, s₂, hquery, hr₂, hshows, ht⟩ :=
    AtlasM.exists_shown hr tokenAndMode (.overview false)
  obtain rfl := Option.some.inj ((AtlasM.perform_eq hy).symm.trans hquery)
  have hu := hr₂.standing.1.sound.coherent.unique
  obtain ⟨n, slot, -, hslot, hp, -⟩ := hshows.published hu
  obtain ⟨hlenses, hlist⟩ := hall slot (List.mem_of_getElem? hslot) an hp
  refine ⟨?_, an, ⟨ledger, s₂, hr₂, hshows, ht,
    AtlasM.entries_eq (AtlasM.perform_shown hshows hu ht (.overview false))⟩, hlist⟩
  have hregister : register [tokenAndMode] (start {} none) = some (⟨⟩, s₁) :=
    register_cons (AtlasM.perform_eq hx) rfl
  have hblocks := Lens.blocks_cons (1 < [tokenAndMode].length) (Lens.ofFile_eq hquery hshows hu ht)
    (Lens.blocks_nil _ s₂)
  rw [run_lenses hregister hblocks, hlenses]
  simp [Lens.block]

end Workspace

end GrammarAtlas
