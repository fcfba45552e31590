import GrammarAtlas.Proofs.Course

/-! # What a fresh analysis rests on

An analysis is fresh by its version and epoch, so that it is right has to follow from the course of
the session. The invariant is `Session.Sound`. Its core is the last field: the analysis of a fresh
document is `Backed`, that is to say, of each grammar it asked for

* the document is `Linked` to the grammar by imports that the graph has recorded, and
* the answer it got is the one it would get from the latest texts,

as far as the chain of imports leads through registered documents (`Publication.Through`). While a
query is under way there is one exception: a document that has seen an outdated table, since that of
a document which is being analysed further down. Such a document is `Pending`: the publication that
replaces the outdated table is bound to reach it. -/

namespace GrammarAtlas

/-- Whether the visible table of a slot is another one than that of its latest text. -/
def Slot.Dirty (slot : Slot) : Prop :=
  ∀ a, slot.published? = some a → a.table.symbols ≠ (SymbolTable.ofText slot.latest.text).symbols

namespace Session
variable {s s' : Session} {n m : Nat} {slot slot' : Slot} {id d e g : String}

/-- The table of a grammar that the host supplies. -/
def hostTable? (s : Session) (g : String) : Option SymbolTable :=
  s.host?.bind fun host => host.library.table? g

/-- The table that a document sees if it asks for a grammar, without making it fresh first. -/
def visible? (s : Session) (id g : String) : Option SymbolTable :=
  if s.settings.resolveImports then
    match s.source? id g with
    | some m => (s.slots[m]?.bind Slot.published?).map Analysis.table
    | none => s.hostTable? g
  else none

/-- The table that a document should see if it asks for a grammar. -/
def actual? (s : Session) (id g : String) : Option SymbolTable :=
  if s.settings.resolveImports then
    match s.source? id g with
    | some m => s.slots[m]?.map fun slot => .ofText slot.latest.text
    | none => s.hostTable? g
  else none

/-- What an analysis knows at its beginning. -/
def firstKnown (settings : Settings) (own : SymbolTable) : Known :=
  if settings.resolveImports then [] else Resolution.closedBook own

/-- The graph has the imports of the latest text. -/
def Recorded (s : Session) (slot : Slot) : Prop :=
  s.graph.importsOf slot.id = (SymbolTable.ofText slot.latest.text).importNames

/-- A document imports a grammar, directly or through documents, as the graph has recorded it. -/
inductive Linked (s : Session) : String → String → Prop
  | direct {n : Nat} {slot : Slot} {g : String} (ho : s.IsOpen n slot) (hr : s.Recorded slot)
      (hg : g ∈ (SymbolTable.ofText slot.latest.text).importNames) : Linked s slot.id g
  | through {n : Nat} {slot : Slot} {d e g : String} (ho : s.IsOpen n slot) (hr : s.Recorded slot)
      (he : e ∈ (SymbolTable.ofText slot.latest.text).importNames) (hd : s.declared d = some e)
      (h : Linked s d g) : Linked s slot.id g

/-- A document has seen an outdated table, which is about to be replaced. -/
structure Pending (s : Session) (id : String) : Prop where
  intro ::
  exists_dirty : ∃ m slot g, s.IsOpen m slot ∧ slot.inFlight = true ∧ slot.Dirty ∧
    Grammar.sniffName? slot.latest.text = some g ∧ s.Linked id g

namespace Linked

theorem snoc (h : s.Linked id e) (ho : s.IsOpen m slot) (hr : s.Recorded slot)
    (hd : s.declared slot.id = some e) (hg : g ∈ (SymbolTable.ofText slot.latest.text).importNames) :
    s.Linked id g := by
  induction h with
  | direct ho' hr' he => exact .through ho' hr' he hd (.direct ho hr hg)
  | through ho' hr' he' hd' _ ih => exact .through ho' hr' he' hd' (ih hd)

/-- Links that lead along documents of which nothing changes are kept. -/
theorem mono (P : String → Prop)
    (hopen : ∀ n slot, s.IsOpen n slot → s.Recorded slot → P slot.id →
      ∃ m slot', s'.IsOpen m slot' ∧ slot'.id = slot.id ∧ slot'.latest = slot.latest ∧
        s'.Recorded slot')
    (hdecl : ∀ d, P d → s'.declared d = s.declared d)
    (hnext : ∀ n slot d e, s.IsOpen n slot → s.Recorded slot → P slot.id →
      e ∈ (SymbolTable.ofText slot.latest.text).importNames → s.declared d = some e → P d)
    (h : s.Linked id g) (hid : P id) : s'.Linked id g := by
  induction h with
  | direct ho hr hg =>
    obtain ⟨m, slot', ho', hi, hl, hr'⟩ := hopen _ _ ho hr hid
    rw [← hi]
    exact .direct ho' hr' (by rw [hl]; exact hg)
  | through ho hr he hd _ ih =>
    obtain ⟨m, slot', ho', hi, hl, hr'⟩ := hopen _ _ ho hr hid
    have hPd := hnext _ _ _ _ ho hr hid he hd
    rw [← hi]
    exact .through ho' hr' (by rw [hl]; exact he) (by rw [hdecl _ hPd]; exact hd) (ih hPd)

/-- A linked document depends on the grammar, also by a graph in which the origin of the change has
another name already, provided that its old name counts as changed. -/
theorem draws {γ : ImportGraph} {origin : String} {grammars : List String}
    (hi : ∀ d, d ≠ origin → γ.importsOf d = s.graph.importsOf d)
    (hn : ∀ d, d ≠ origin → γ.name? d = s.declared d)
    (horigin : ∀ e, s.declared origin = some e → e ∈ grammars)
    (h : s.Linked id g) (hg : g ∈ grammars) (hne : id ≠ origin) : γ.Draws origin grammars id := by
  have himports : ∀ slot : Slot, s.Recorded slot → slot.id ≠ origin →
      ∀ e ∈ (SymbolTable.ofText slot.latest.text).importNames, γ.Imports slot.id e := by
    intro slot hr hne e he
    rw [ImportGraph.imports_iff, hi _ hne, hr]
    exact he
  induction h with
  | direct ho hr hg' => exact .direct hne (himports _ hr hne _ hg') hg
  | @through _ slot d e g _ hr he hd _ ih =>
    by_cases hdo : d = origin
    · subst hdo
      exact .direct hne (himports _ hr hne _ he) (horigin e hd)
    · exact .through hne (himports _ hr hne _ he) (by rw [hn d hdo]; exact hd) (ih hg hdo)

end Linked

end Session

namespace Publication
variable {p : Publication} {g : String}

/-- The registered document whose table was got for a grammar. -/
def source? (p : Publication) (g : String) : Option String :=
  (p.graph.provider? g).filter (· != p.document)

/-- The grammar was come upon through registered documents: by an import of the document itself, or
of a document whose table was got in the same way. -/
inductive Through (p : Publication) : String → Prop
  | own {g : String} (h : g ∈ p.analysis.table.importNames) : Through p g
  | step {e g : String} {t : SymbolTable} (he : Through p e) (hs : (p.source? e).isSome)
      (hk : (e, some t) ∈ p.known) (hg : g ∈ t.importNames) : Through p g

/-- The analysis is what became of its text with the tables that it got. -/
structure Genuine (p : Publication) (settings : Settings) (host? : Option Host) : Prop where
  asked : Resolution.Asked (Grammar.parse p.analysis.snapshot.text).tree
    (.ofText p.analysis.snapshot.text) settings.warnUnresolved
    (Session.firstKnown settings (.ofText p.analysis.snapshot.text)) p.known
  resolved : ∃ r, Resolution.attempt p.known (Grammar.parse p.analysis.snapshot.text).tree
      (.ofText p.analysis.snapshot.text) settings.warnUnresolved = .ok r ∧
    p.analysis = .assemble p.analysis.snapshot p.analysis.epoch
      (Grammar.parse p.analysis.snapshot.text) (.ofText p.analysis.snapshot.text) r
  supplied : ∀ g t, (g, some t) ∈ p.known →
    (p.source? g).isSome ∨ ∃ host, host? = some host ∧ host.library.table? g = some t

/-- The last publication of a slot. -/
def last? (ledger : List Publication) (n : Nat) : Option Publication :=
  (ledger.filter (·.slot == n)).getLast?

theorem last?_append_of_eq {ledger : List Publication} :
    last? (ledger ++ [p]) p.slot = some p := by
  simp [last?]

theorem last?_append_of_ne {ledger : List Publication} {n : Nat} (h : p.slot ≠ n) :
    last? (ledger ++ [p]) n = last? ledger n := by
  simp [last?, h]

end Publication

namespace Session
variable {s s' : Session} {n m : Nat} {slot slot' : Slot} {id d e g : String}
  {ledger : List Publication} {p : Publication}

/-- All that an analysis made use of along registered documents is as it was. -/
structure Backed (s : Session) (p : Publication) : Prop where
  linked : ∀ g, p.Through g → s.Linked p.document g
  source : ∀ g, p.Through g → s.graph.provider? g = p.graph.provider? g
  answers : ∀ g t?, p.Through g → (g, t?) ∈ p.known → AlikeAnswers t? (s.actual? p.document g)

structure Sound (ledger : List Publication) (s : Session) : Prop where
  coherent : s.Coherent
  quiet : s.Quiet
  orderly : ∀ n slot, s.IsOpen n slot → slot.Orderly
  recorded : ∀ n slot, s.IsOpen n slot → slot.inFlight = true ∨ slot.IsCurrent → s.Recorded slot
  /-- Otherwise the graph has the imports as of the last publication. -/
  noted : ∀ n slot a, s.IsOpen n slot → slot.published? = some a → slot.inFlight = false →
    s.graph.importsOf slot.id = a.table.importNames
  published : ∀ n slot a, s.IsOpen n slot → slot.published? = some a →
    ∃ p, Publication.last? ledger n = some p ∧ p.analysis = a ∧ p.document = slot.id ∧
      p.Genuine s.settings s.host?
  backed : ∀ n slot p, s.IsOpen n slot → slot.isFresh = true → slot.inFlight = false →
    Publication.last? ledger n = some p → s.Pending slot.id ∨ s.Backed p

end Session

end GrammarAtlas
