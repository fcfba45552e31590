import GrammarAtlas.Resolution
import Mathlib.Data.List.Forall2
import Mathlib.Data.List.Nodup
import Mathlib.Data.List.Perm.Subperm

/-! # Asking and resolving

`Resolution.attempt` either resolves a tree with the tables it knows or names one more grammar. Two
facts about it carry everything else.

* What it names is not known yet, and is imported by the grammar itself or by a known table
  (`attempt_error`). So asking comes to an end: no grammar is asked for twice.
* Of a known table only its symbols and its links to further grammars count (`attempt_congr`).

What it resolves to is an occurrence for each identifier that has a role (`occurrence?_ok`).

`Resolution.Asked` follows the questions as they arise, whoever answers them;
`Resolution.Settles P known r` says that `known`, extended by the answers of `P`, ends in `r`. The
latter has one `r` at most, and is what `Resolution.inquire` computes (`inquire_of_settles`). -/

namespace GrammarAtlas

/-- What the search for a name makes of an import. -/
def Import.link (i : Import) : Waypoint := (i.grammar, i.tokensOnly)

namespace SymbolTable

def importNames (table : SymbolTable) : List String := table.imports.map Import.grammar

/-- Tables that no importing grammar can tell apart. -/
structure Alike (a b : SymbolTable) : Prop where
  symbols : a.symbols = b.symbols
  links : a.imports.map Import.link = b.imports.map Import.link

namespace Alike
variable {a b : SymbolTable}

theorem refl (a : SymbolTable) : Alike a a := ⟨rfl, rfl⟩

theorem defines (h : Alike a b) (ns : Namespace) (name : String) :
    a.defines ns name = b.defines ns name := by
  simp only [SymbolTable.defines, find?, h.symbols]

theorem importNames (h : Alike a b) : a.importNames = b.importNames := by
  have := congrArg (List.map Prod.fst) h.links
  simpa [SymbolTable.importNames, Import.link, List.map_map, Function.comp_def] using this

theorem length_imports (h : Alike a b) : a.imports.length = b.imports.length := by
  simpa using congrArg List.length h.links

theorem following (h : Alike a b) (tokensOnly : Bool) :
    Waypoint.following a tokensOnly = Waypoint.following b tokensOnly := by
  have := congrArg (List.map fun w : Waypoint => (w.1, tokensOnly || w.2)) h.links
  simpa [Waypoint.following, Import.link, List.map_map, Function.comp_def] using this

end Alike

end SymbolTable

/-- Answers that no importing grammar can tell apart. -/
abbrev AlikeAnswers : Option SymbolTable → Option SymbolTable → Prop :=
  Option.Rel SymbolTable.Alike

theorem AlikeAnswers.refl : (t? : Option SymbolTable) → AlikeAnswers t? t?
  | none => .none
  | some t => .some (.refl t)

namespace Known
variable {known known' : Known}

/-- Nobody who looks grammars up can tell the two apart. -/
structure Alike (known known' : Known) : Prop where
  lookup : ∀ g, Option.Rel AlikeAnswers (known.lookup g) (known'.lookup g)
  importCount : known.importCount = known'.importCount

theorem Alike.of_forall₂ (h : List.Forall₂ (fun a b => a.1 = b.1 ∧ AlikeAnswers a.2 b.2) known known') :
    Alike known known' := by
  induction h with
  | nil => exact ⟨fun _ => .none, rfl⟩
  | @cons a b l l' hab _ ih =>
    obtain ⟨k, t?⟩ := a
    obtain ⟨k', t?'⟩ := b
    obtain ⟨rfl, hab⟩ := hab
    refine ⟨fun g => ?_, ?_⟩
    · simp only [List.lookup_cons]
      split
      · exact .some hab
      · exact ih.lookup g
    · cases hab with
      | none => exact ih.importCount
      | some hab => simp only [Known.importCount, ih.importCount, hab.length_imports]

/-- The same questions with the answers of `P`. -/
def answeredBy (P : String → Option SymbolTable) (known : Known) : Known :=
  known.map fun e => (e.1, P e.1)

theorem alike_answeredBy {P : String → Option SymbolTable}
    (h : ∀ e ∈ known, AlikeAnswers e.2 (P e.1)) : Alike known (known.answeredBy P) := by
  refine .of_forall₂ ?_
  induction known with
  | nil => exact .nil
  | cons e known ih =>
    exact .cons ⟨rfl, h e (.head _)⟩ (ih fun e he => h e (.tail _ he))

/-- A grammar that the search can come upon: an import of the grammar itself, or of a known table. -/
def Names (known : Known) (own : SymbolTable) (g : String) : Prop :=
  g ∈ own.importNames ∨ ∃ e t, (e, some t) ∈ known ∧ g ∈ t.importNames

theorem Names.mono {own : SymbolTable} {g : String} {e : String × Option SymbolTable}
    (h : known.Names own g) : Names (known ++ [e]) own g := by
  rcases h with h | ⟨e', t, he, ht⟩
  · exact .inl h
  · exact .inr ⟨e', t, List.mem_append_left _ he, ht⟩

theorem mem_of_lookup {g : String} {t? : Option SymbolTable} (h : known.lookup g = some t?) :
    (g, t?) ∈ known := by
  obtain ⟨l, r, rfl, -⟩ := List.lookup_eq_some_iff.1 h
  simp

theorem lookup_eq_none {g : String} : known.lookup g = none ↔ g ∉ known.map Prod.fst := by
  simp only [List.lookup_eq_none_iff, bne_iff_ne, List.mem_map, not_exists, not_and]
  exact ⟨fun h e he hg => h e he hg.symm, fun h e he hg => h e he hg.symm⟩

end Known

namespace Resolution
variable {known known' : Known} {own : SymbolTable} {tree : Node} {warn : Bool}
  {ns : Namespace} {name g : String}

theorem bind_error {α β : Type} {x : Inquiry α} {f : α → Inquiry β} (h : x >>= f = .error g) :
    x = .error g ∨ ∃ a, x = .ok a ∧ f a = .error g := by
  cases x with
  | error e => cases h; exact .inl rfl
  | ok a => exact .inr ⟨a, rfl, h⟩

theorem bind_ok {α β : Type} {x : Inquiry α} {f : α → Inquiry β} {b : β} (h : x >>= f = .ok b) :
    ∃ a, x = .ok a ∧ f a = .ok b := by
  cases x with
  | error e => cases h
  | ok a => exact ⟨a, rfl, h⟩

theorem eq_ok_of_mem_toOption {α : Type} {x : Inquiry α} {a : α} (h : a ∈ x.toOption) : x = .ok a := by
  cases x with
  | error => cases h
  | ok => cases h; rfl

theorem table?_error {e : String} (h : known.table? e = .error g) :
    e = g ∧ known.lookup g = none := by
  rw [Known.table?] at h
  split at h
  · cases h
  · cases h; exact ⟨rfl, ‹_›⟩

theorem lookup_of_table?_ok {t? : Option SymbolTable} (h : known.table? g = .ok t?) :
    known.lookup g = some t? := by
  rw [Known.table?] at h
  split at h
  · cases h; assumption
  · cases h

theorem fst_mem_following {tokensOnly : Bool} {w : Waypoint} {t : SymbolTable}
    (h : w ∈ Waypoint.following t tokensOnly) : w.1 ∈ t.importNames := by
  obtain ⟨i, hi, rfl⟩ := List.mem_map.1 h
  exact List.mem_map_of_mem hi

theorem search_error {turns : Nat} {queue visited : List Waypoint}
    (hq : ∀ w ∈ queue, known.Names own w.1)
    (h : search known ns name turns queue visited = .error g) :
    known.lookup g = none ∧ known.Names own g := by
  induction turns generalizing queue visited with
  | zero => cases h
  | succ turns ih =>
    cases queue with
    | nil => cases h
    | cons w queue =>
      obtain ⟨e, tokensOnly⟩ := w
      have hrest : ∀ w ∈ queue, known.Names own w.1 := fun w hw => hq w (.tail _ hw)
      rw [search] at h
      split at h
      · exact ih hrest h
      split at h
      · exact ih hrest h
      rcases bind_error h with h | ⟨t?, ht, h⟩
      · obtain ⟨rfl, hl⟩ := table?_error h
        exact ⟨hl, hq _ (.head _)⟩
      split at h
      · exact ih hrest h
      · rename_i t
        split at h
        · cases h
        refine ih (fun w hw => ?_) h
        rcases List.mem_append.1 hw with hw | hw
        · exact hrest w hw
        · exact .inr ⟨e, t, Known.mem_of_lookup (lookup_of_table?_ok ht), fst_mem_following hw⟩

theorem origin_error (h : origin known own ns name = .error g) :
    known.lookup g = none ∧ known.Names own g := by
  rw [origin] at h
  split at h
  · cases h
  split at h
  · cases h
  rcases bind_error h with hf | ⟨found?, -, h⟩
  · exact search_error (fun w hw => .inl (fst_mem_following hw)) hf
  · cases found? <;> cases h

theorem occurrence?_error {parent n : Node} (h : occurrence? known own parent n = .error g) :
    known.lookup g = none ∧ known.Names own g := by
  rw [occurrence?] at h
  split at h
  · split at h
    · cases h
    · cases h
    · rcases bind_error h with ho | ⟨o, -, h⟩
      · exact origin_error ho
      · cases h
  · cases h

theorem occurrencesAt_error {ids : List (Node × Node)}
    (h : occurrencesAt known own ids = .error g) :
    known.lookup g = none ∧ known.Names own g := by
  induction ids with
  | nil => cases h
  | cons e ids ih =>
    rcases bind_error h with ho | ⟨found?, -, h⟩
    · exact occurrence?_error ho
    rcases bind_error h with hr | ⟨rest, -, h⟩
    · exact ih hr
    · cases h

theorem unknownImports_error {imports : List Import}
    (hi : ∀ i ∈ imports, i.grammar ∈ own.importNames)
    (h : unknownImports known imports = .error g) :
    known.lookup g = none ∧ known.Names own g := by
  induction imports with
  | nil => cases h
  | cons i imports ih =>
    rcases bind_error h with ht | ⟨t?, -, h⟩
    · obtain ⟨rfl, hl⟩ := table?_error ht
      exact ⟨hl, .inl (hi i (.head _))⟩
    rcases bind_error h with hr | ⟨rest, -, h⟩
    · exact ih (fun j hj => hi j (.tail _ hj)) hr
    · cases h

/-- What an attempt asks for is new to it, and comes from an import. -/
theorem attempt_error (h : attempt known tree own warn = .error g) :
    known.lookup g = none ∧ known.Names own g := by
  rcases bind_error h with hu | ⟨unknown, -, h⟩
  · exact unknownImports_error (fun i hi => List.mem_map_of_mem hi) hu
  rcases bind_error h with ho | ⟨occurrences, -, h⟩
  · exact occurrencesAt_error ho
  · cases h

/-- An identifier gives an occurrence where it has a role, and a reference has the origin of its
name. -/
theorem occurrence?_ok {parent n : Node} {found? : Option Occurrence}
    (h : occurrence? known own parent n = .ok found?) :
    (found? = none ∧ ∀ name ∈ n.identifier?, Occurrence.role? parent n name = none) ∨
      ∃ name role ns place, n.identifier? = some name ∧
        Occurrence.role? parent n name = some (role, ns) ∧
        found? = some ⟨name, n.location, role, ns, place⟩ ∧
        (role = .definition ∧ place = .own ∨
          role = .reference ∧ origin known own ns name = .ok place) := by
  rw [occurrence?] at h
  split at h
  · rename_i name hi
    split at h
    · rename_i hr
      cases h
      exact .inl ⟨rfl, by simpa [hi] using hr⟩
    · rename_i ns hr
      cases h
      exact .inr ⟨name, .definition, ns, .own, hi, hr, rfl, .inl ⟨rfl, rfl⟩⟩
    · rename_i ns hr
      obtain ⟨place, ho, h⟩ := bind_ok h
      cases h
      exact .inr ⟨name, .reference, ns, place, hi, hr, rfl, .inr ⟨rfl, ho⟩⟩
  · rename_i hi
    cases h
    refine .inl ⟨rfl, fun name hn => ?_⟩
    exact absurd hn (hi name)

theorem occurrencesAt_cons_ok {parent m : Node} {ids : List (Node × Node)} {os : List Occurrence}
    (h : occurrencesAt known own ((parent, m) :: ids) = .ok os) :
    ∃ found? rest, occurrence? known own parent m = .ok found? ∧
      occurrencesAt known own ids = .ok rest ∧ os = found?.toList ++ rest := by
  obtain ⟨found?, hf, h⟩ := bind_ok h
  obtain ⟨rest, hrest, h⟩ := bind_ok h
  cases h
  exact ⟨found?, rest, hf, hrest, rfl⟩

theorem unknownImports_cons_ok {i : Import} {imports : List Import} {l : List Diagnostic}
    (h : unknownImports known (i :: imports) = .ok l) :
    ∃ t? later, known.lookup i.grammar = some t? ∧ unknownImports known imports = .ok later ∧
      l = if t?.isNone then ⟨.unknownImport i.grammar, i.location⟩ :: later else later := by
  obtain ⟨t?, ht, h⟩ := bind_ok h
  obtain ⟨later, hlater, h⟩ := bind_ok h
  cases h
  exact ⟨t?, later, lookup_of_table?_ok ht, hlater, rfl⟩

/-- What a resolution is made of. -/
theorem exists_of_attempt {r : Resolution} (h : attempt known tree own warn = .ok r) :
    ∃ unknown, unknownImports known own.imports = .ok unknown ∧
      occurrencesAt known own tree.identifiers = .ok r.occurrences ∧
      r.unresolved = undeclaredSymbols r.occurrences ∧
      r.diagnostics = unknown ++ if warn then unresolvedWarnings r.occurrences else [] := by
  obtain ⟨unknown, hunknown, h⟩ := bind_ok h
  obtain ⟨occurrences, hoccurrences, h⟩ := bind_ok h
  cases h
  exact ⟨unknown, hunknown, hoccurrences, rfl, rfl⟩

theorem occurrencesAt_of_attempt {r : Resolution} (h : attempt known tree own warn = .ok r) :
    occurrencesAt known own tree.identifiers = .ok r.occurrences := by
  obtain ⟨unknown, -, hoccurrences, -⟩ := exists_of_attempt h
  exact hoccurrences

theorem table?_congr (h : known.Alike known') (g : String) :
    (∃ t? t?', known.table? g = .ok t? ∧ known'.table? g = .ok t?' ∧ AlikeAnswers t? t?') ∨
      known.table? g = .error g ∧ known'.table? g = .error g := by
  have := h.lookup g
  rw [Known.table?, Known.table?]
  generalize known.lookup g = a, known'.lookup g = b at this ⊢
  cases this with
  | none => exact .inr ⟨rfl, rfl⟩
  | some h => exact .inl ⟨_, _, rfl, rfl, h⟩

theorem search_congr (h : known.Alike known') (turns : Nat) (queue visited : List Waypoint) :
    search known ns name turns queue visited = search known' ns name turns queue visited := by
  induction turns generalizing queue visited with
  | zero => rfl
  | succ turns ih =>
    cases queue with
    | nil => rfl
    | cons w queue =>
      obtain ⟨e, tokensOnly⟩ := w
      rw [search, search, ih]
      split
      · rfl
      rw [ih]
      split
      · rfl
      rcases table?_congr h e with ⟨t?, t?', h₁, h₂, ht⟩ | ⟨h₁, h₂⟩
      · rw [h₁, h₂]
        cases ht with
        | none => rfl
        | some ht =>
          show (if _ then _ else _) = (if _ then _ else _)
          rw [ht.defines, ht.following, ih]
      · rw [h₁, h₂]; rfl

theorem origin_congr (h : known.Alike known') :
    origin known own ns name = origin known' own ns name := by
  rw [origin, origin, findImported, findImported, h.importCount, search_congr h]

theorem occurrencesAt_congr (h : known.Alike known') (ids : List (Node × Node)) :
    occurrencesAt known own ids = occurrencesAt known' own ids := by
  induction ids with
  | nil => rfl
  | cons e ids ih =>
    have ho : occurrence? known own e.1 e.2 = occurrence? known' own e.1 e.2 := by
      simp only [occurrence?, origin_congr h]
    rw [occurrencesAt, occurrencesAt, ih, ho]

theorem unknownImports_congr (h : known.Alike known') (imports : List Import) :
    unknownImports known imports = unknownImports known' imports := by
  induction imports with
  | nil => rfl
  | cons i imports ih =>
    rw [unknownImports, unknownImports, ih]
    rcases table?_congr h i.grammar with ⟨t?, t?', h₁, h₂, ht⟩ | ⟨h₁, h₂⟩
    · rw [h₁, h₂]
      cases ht <;> rfl
    · rw [h₁, h₂]

theorem attempt_congr (h : known.Alike known') (tree : Node) (own : SymbolTable) (warn : Bool) :
    attempt known tree own warn = attempt known' tree own warn := by
  rw [attempt, attempt, unknownImports_congr h, occurrencesAt_congr h]

/-! ## Sequences of questions -/

/-- `known` holds the answers to the questions that arise one after the other, from `first` on. -/
inductive Asked (tree : Node) (own : SymbolTable) (warn : Bool) (first : Known) : Known → Prop
  | start : Asked tree own warn first first
  | ask {known : Known} {g : String} {t? : Option SymbolTable} (h : Asked tree own warn first known)
      (hg : attempt known tree own warn = .error g) : Asked tree own warn first (known ++ [(g, t?)])

/-- If `P` answers all further questions, `known` resolves the tree to `r`. -/
inductive Settles (P : String → Option SymbolTable) (tree : Node) (own : SymbolTable)
    (warn : Bool) : Known → Resolution → Prop
  | done {known : Known} {r : Resolution} (h : attempt known tree own warn = .ok r) :
      Settles P tree own warn known r
  | ask {known : Known} {g : String} {r : Resolution} (hg : attempt known tree own warn = .error g)
      (h : Settles P tree own warn (known ++ [(g, P g)]) r) : Settles P tree own warn known r

variable {first : Known} {P : String → Option SymbolTable} {r r' : Resolution}

theorem Settles.unique (h : Settles P tree own warn known r) (h' : Settles P tree own warn known r') :
    r = r' := by
  induction h with
  | done h =>
    cases h' with
    | done h' => rw [h] at h'; cases h'; rfl
    | ask hg _ => rw [h] at hg; cases hg
  | ask hg _ ih =>
    cases h' with
    | done h' => rw [h'] at hg; cases hg
    | ask hg' h' => rw [hg] at hg'; cases hg'; exact ih h'

/-- Questions that were answered as `P` would have answered them lead to what `P` leads to. -/
theorem Asked.settles (h : Asked tree own warn first known)
    (hP : ∀ e ∈ known, AlikeAnswers e.2 (P e.1))
    (hr : Settles P tree own warn (known.answeredBy P) r) :
    Settles P tree own warn (first.answeredBy P) r := by
  induction h with
  | start => exact hr
  | @ask known g t? _ hg ih =>
    have hP' : ∀ e ∈ known, AlikeAnswers e.2 (P e.1) := fun e he => hP e (List.mem_append_left _ he)
    refine ih hP' (.ask (g := g) ?_ ?_)
    · rw [← attempt_congr (Known.alike_answeredBy hP')]; exact hg
    · simpa [Known.answeredBy] using hr

theorem Asked.settles_of_ok (h : Asked tree own warn first known)
    (hP : ∀ e ∈ known, AlikeAnswers e.2 (P e.1)) (hr : attempt known tree own warn = .ok r) :
    Settles P tree own warn (first.answeredBy P) r :=
  h.settles hP (.done (by rw [← attempt_congr (Known.alike_answeredBy hP)]; exact hr))

/-- No grammar is asked for twice, and each is imported by the grammar or by a table got before. -/
theorem Asked.nodup (h : Asked tree own warn [] known) :
    (known.map Prod.fst).Nodup ∧ ∀ g ∈ known.map Prod.fst, known.Names own g := by
  generalize hf : ([] : Known) = first at h
  induction h with
  | start => subst hf; simp
  | @ask known g t? _ hg ih =>
    obtain ⟨hnd, hnames⟩ := ih
    obtain ⟨hl, hn⟩ := attempt_error hg
    rw [List.map_append, List.map_cons, List.map_nil]
    refine ⟨hnd.append (List.nodup_singleton g) ?_, fun e he => ?_⟩
    · rw [List.disjoint_singleton]
      exact Known.lookup_eq_none.1 hl
    · rcases List.mem_append.1 he with he | he
      · exact (hnames e he).mono
      · rw [List.mem_singleton] at he
        subst he
        exact hn.mono

/-- Everything that the tables of `P` and the grammar itself import is in `U`. -/
structure Within (P : String → Option SymbolTable) (own : SymbolTable) (U : List String) : Prop where
  own : ∀ g ∈ own.importNames, g ∈ U
  answers : ∀ e t, P e = some t → ∀ g ∈ t.importNames, g ∈ U

/-- What is known so far has been asked of `P`, each grammar of `U` once at most. -/
structure Progress (P : String → Option SymbolTable) (U : List String) (known : Known) : Prop where
  nodup : (known.map Prod.fst).Nodup
  mem : ∀ g ∈ known.map Prod.fst, g ∈ U
  answers : ∀ e ∈ known, e.2 = P e.1

namespace Progress
variable {U : List String}

theorem nil : Progress P U [] := ⟨List.nodup_nil, by simp, by simp⟩

theorem length_le (h : Progress P U known) : known.length ≤ U.length := by
  have := (List.subperm_of_subset h.nodup h.mem).length_le
  simpa using this

theorem ask (h : Progress P U known) (hU : Within P own U)
    (hg : attempt known tree own warn = .error g) : Progress P U (known ++ [(g, P g)]) := by
  obtain ⟨hl, hn⟩ := attempt_error hg
  refine ⟨?_, fun e he => ?_, fun e he => ?_⟩
  · rw [List.map_append, List.map_cons, List.map_nil]
    refine h.nodup.append (List.nodup_singleton g) ?_
    rw [List.disjoint_singleton]
    exact Known.lookup_eq_none.1 hl
  · rw [List.map_append, List.mem_append] at he
    rcases he with he | he
    · exact h.mem e he
    · obtain rfl : e = g := by simpa using he
      rcases hn with hn | ⟨e', t, he', hn⟩
      · exact hU.own e hn
      · exact hU.answers e' t (h.answers _ he').symm e hn
  · rcases List.mem_append.1 he with he | he
    · exact h.answers e he
    · obtain rfl := List.mem_singleton.1 he
      rfl

theorem exists_settles (hU : Within P own U) (h : Progress P U known) :
    ∃ r, Settles P tree own warn known r := by
  induction hk : U.length - known.length generalizing known with
  | zero =>
    cases ha : attempt known tree own warn with
    | ok r => exact ⟨r, .done ha⟩
    | error g =>
      have := (h.ask hU ha).length_le
      rw [List.length_append] at this
      simp only [List.length_singleton] at this
      omega
  | succ k ih =>
    cases ha : attempt known tree own warn with
    | ok r => exact ⟨r, .done ha⟩
    | error g =>
      have hlen : (known ++ [(g, P g)]).length = known.length + 1 := by simp
      obtain ⟨r, hr⟩ := ih (h.ask hU ha) (by omega)
      exact ⟨r, .ask ha hr⟩

end Progress

/-! ## Nothing imported

Where imports are not looked up, all of them are known from the start to have no table. -/

theorem unknownImports_ok {imports : List Import} {l : List Diagnostic}
    (h : unknownImports known imports = .ok l) :
    ∀ i ∈ imports, known.lookup i.grammar ≠ none := by
  induction imports generalizing l with
  | nil => simp
  | cons i imports ih =>
    obtain ⟨t?, later, ht, hr, -⟩ := unknownImports_cons_ok h
    intro j hj
    rcases List.mem_cons.1 hj with rfl | hj
    · rw [ht]; simp
    · exact ih hr j hj

theorem attempt_ok (h : attempt known tree own warn = .ok r) :
    ∀ g ∈ own.importNames, known.lookup g ≠ none := by
  intro g hg
  obtain ⟨i, hi, rfl⟩ := List.mem_map.1 hg
  obtain ⟨unknown, hunknown, -⟩ := exists_of_attempt h
  exact unknownImports_ok hunknown i hi

/-- The imports of a grammar, all of them known to have no table. -/
def closedBook (own : SymbolTable) : Known := own.imports.map fun i => (i.grammar, none)

theorem map_fst_closedBook (own : SymbolTable) : (closedBook own).map Prod.fst = own.importNames := by
  simp [closedBook, SymbolTable.importNames]

theorem answeredBy_closedBook (own : SymbolTable) :
    (closedBook own).answeredBy (fun _ => none) = closedBook own := by
  simp [closedBook, Known.answeredBy]

theorem snd_of_mem_closedBook {e : String × Option SymbolTable} (h : e ∈ closedBook own) :
    e.2 = none := by
  obtain ⟨i, -, rfl⟩ := List.mem_map.1 h
  rfl

theorem attempt_closedBook (tree : Node) (own : SymbolTable) (warn : Bool) :
    ∃ r, attempt (closedBook own) tree own warn = .ok r := by
  cases h : attempt (closedBook own) tree own warn with
  | ok r => exact ⟨r, rfl⟩
  | error g =>
    obtain ⟨hl, hn⟩ := attempt_error h
    rw [Known.lookup_eq_none, map_fst_closedBook] at hl
    rcases hn with hn | ⟨e, t, he, -⟩
    · exact absurd hn hl
    · cases snd_of_mem_closedBook he

theorem Asked.eq_closedBook (h : Asked tree own warn (closedBook own) known) :
    known = closedBook own := by
  induction h with
  | start => rfl
  | @ask known g _ _ hg ih =>
    obtain ⟨r, hr⟩ := attempt_closedBook tree own warn
    rw [ih, hr] at hg
    cases hg

theorem importCount_eq_zero (h : ∀ e ∈ known, e.2 = none) : known.importCount = 0 := by
  induction known with
  | nil => rfl
  | cons e known ih =>
    obtain ⟨k, t?⟩ := e
    obtain rfl : t? = none := h _ (.head _)
    exact ih fun e he => h e (.tail _ he)

theorem lookup_eq_some_none (h : ∀ e ∈ known, e.2 = none) (hg : g ∈ known.map Prod.fst) :
    known.lookup g = some none := by
  cases hl : known.lookup g with
  | none => exact absurd hg (Known.lookup_eq_none.1 hl)
  | some t? => exact congrArg some (h _ (Known.mem_of_lookup hl))

/-- Asking for the imports one after the other, in vain, comes to the same as the closed book. -/
theorem settles_nil_of_closedBook (h : attempt (closedBook own) tree own warn = .ok r) :
    Settles (fun _ => none) tree own warn [] r := by
  have hU : Within (fun _ => none) own own.importNames := ⟨fun _ hg => hg, by simp⟩
  suffices H : ∀ {known r'}, Progress (fun _ => none) own.importNames known →
      Settles (fun _ => none) tree own warn known r' → r' = r by
    obtain ⟨r', hr'⟩ : ∃ r', Settles (fun _ => none) tree own warn [] r' :=
      Progress.nil.exists_settles hU
    rwa [← H .nil hr']
  intro known r' hk hs
  induction hs with
  | ask hg _ ih => exact ih (hk.ask hU hg)
  | @done known r' hr' =>
    have halike : known.Alike (closedBook own) := by
      refine ⟨fun g => ?_, ?_⟩
      · by_cases hg : g ∈ own.importNames
        · have hg' : g ∈ known.map Prod.fst := by
            by_contra hn
            exact attempt_ok hr' g hg (Known.lookup_eq_none.2 hn)
          rw [lookup_eq_some_none hk.answers hg', lookup_eq_some_none (fun _ => snd_of_mem_closedBook)
            (by rw [map_fst_closedBook]; exact hg)]
          exact .some .none
        · rw [Known.lookup_eq_none.2 fun h => hg (hk.mem g h),
            Known.lookup_eq_none.2 (by rw [map_fst_closedBook]; exact hg)]
          exact .none
      · rw [importCount_eq_zero hk.answers, importCount_eq_zero fun _ => snd_of_mem_closedBook]
    rw [attempt_congr halike, h] at hr'
    cases hr'
    rfl

theorem length_flatMap_importNames (library : Library) :
    (library.flatMap fun e => e.2.importNames).length = library.importCount := by
  induction library with
  | nil => rfl
  | cons e library ih => simp [Library.importCount, SymbolTable.importNames, ← ih]

theorem within_library (library : Library) (own : SymbolTable) :
    Within library.table? own (own.importNames ++ library.flatMap fun e => e.2.importNames) := by
  refine ⟨fun g hg => List.mem_append_left _ hg, fun e t ht g hg => List.mem_append_right _ ?_⟩
  have : (e, t) ∈ library.reverse := by
    obtain ⟨l, r, hlr, -⟩ := List.lookup_eq_some_iff.1 ht
    rw [hlr]; simp
  exact List.mem_flatMap.2 ⟨(e, t), List.mem_reverse.1 this, hg⟩

/-- The turns that `inquireFrom` is given suffice if they cover the grammars not yet asked for. -/
theorem inquireFrom_of_settles {library : Library} {U : List String} {turns : Nat}
    (hU : Within library.table? own U) (h : Settles library.table? tree own warn known r)
    (hk : Progress library.table? U known) (ht : U.length < turns + known.length) :
    ∃ asked, inquireFrom library tree own warn turns known = some (r, asked) := by
  induction h generalizing turns with
  | @done known r h =>
    have := hk.length_le
    obtain ⟨turns, rfl⟩ : ∃ n, turns = n + 1 := ⟨turns - 1, by omega⟩
    exact ⟨known, by rw [inquireFrom, h]⟩
  | @ask known g r hg _ ih =>
    have := hk.length_le
    obtain ⟨turns, rfl⟩ : ∃ n, turns = n + 1 := ⟨turns - 1, by omega⟩
    have hlen : (known ++ [(g, library.table? g)]).length = known.length + 1 := by simp
    obtain ⟨asked, ha⟩ : ∃ asked, inquireFrom library tree own warn turns
        (known ++ [(g, library.table? g)]) = some (r, asked) := ih (hk.ask hU hg) (by omega)
    exact ⟨asked, by rw [inquireFrom, hg]; exact ha⟩

theorem inquire_of_settles {library : Library} (h : Settles library.table? tree own warn [] r) :
    ∃ asked, inquire library tree own warn = some (r, asked) := by
  refine inquireFrom_of_settles (within_library library own) h .nil ?_
  rw [List.length_append, length_flatMap_importNames, SymbolTable.importNames, List.length_map,
    List.length_nil]
  omega

end Resolution

end GrammarAtlas
