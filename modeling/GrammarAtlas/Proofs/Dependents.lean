import GrammarAtlas.Proofs.ImportGraph
import Mathlib.Data.List.Perm.Basic

/-! # The search for dependents

`ImportGraph.Draws g origin grammars d`: the document `d` imports one of `grammars`, directly or
through further documents, none of which is `origin`. It does so along a `Chain` of documents
(`draws_iff_chain`).

A `Search` is the search for such documents under way. In a turn of it (`Turn`) the next grammar is
taken off the queue and the recorded imports are gone through, in whatever order they come; a
document counts as found from the moment it is met. The invariant `Search.Stands` relates the
grammars seen and queued to the documents found, and `Search.cost` goes down in every turn, on
cycles too. So each search ends, with the same documents whatever the orders were. The one of
`dependents` is among them. -/

namespace GrammarAtlas

theorem length_filter_add_le {α : Type} {p q r : α → Bool} {l : List α}
    (hp : ∀ a ∈ l, p a → r a) (hq : ∀ a ∈ l, q a → r a) (hpq : ∀ a ∈ l, p a → ¬ q a) :
    (l.filter p).length + (l.filter q).length ≤ (l.filter r).length := by
  induction l with
  | nil => simp
  | cons a l ih =>
    rw [List.forall_mem_cons] at hp hq hpq
    have ih := ih hp.2 hq.2 hpq.2
    by_cases h₁ : p a
    · rw [List.filter_cons_of_pos h₁, List.filter_cons_of_neg (hpq.1 h₁),
        List.filter_cons_of_pos (hp.1 h₁), List.length_cons, List.length_cons]
      omega
    · by_cases h₂ : q a
      · rw [List.filter_cons_of_neg h₁, List.filter_cons_of_pos h₂, List.filter_cons_of_pos (hq.1 h₂),
          List.length_cons, List.length_cons]
        omega
      · rw [List.filter_cons_of_neg h₁, List.filter_cons_of_neg h₂]
        exact ih.trans ((List.sublist_cons_self a l).filter r).length_le

/-- Ascending lists of the same names are the same. -/
theorem ascending_congr {l l' : List String} (h : ∀ x, x ∈ l ↔ x ∈ l') :
    ascending l = ascending l' := by
  have hl := pairwise_ascending l
  have hl' := pairwise_ascending l'
  have hperm : (ascending l).Perm (ascending l') := by
    rw [List.perm_ext_iff_of_nodup (hl.imp fun hlt => hlt.ne) (hl'.imp fun hlt => hlt.ne)]
    intro x
    rw [mem_ascending, mem_ascending, h x]
  exact hperm.eq_of_pairwise (fun a b _ _ hab hba => absurd hab (lt_asymm hba)) hl hl'

namespace ImportGraph
variable {g : ImportGraph} {origin d grammar : String} {grammars found : List String}

/-- `d` imports one of `grammars`, directly or through other documents than `origin`. -/
inductive Draws (g : ImportGraph) (origin : String) (grammars : List String) : String → Prop
  | direct {d grammar : String} (hne : d ≠ origin) (hi : g.Imports d grammar)
      (hg : grammar ∈ grammars) : Draws g origin grammars d
  | through {d next grammar : String} (hne : d ≠ origin) (hi : g.Imports d grammar)
      (hn : g.name? next = some grammar) (h : Draws g origin grammars next) :
      Draws g origin grammars d

theorem Draws.ne (h : g.Draws origin grammars d) : d ≠ origin := by
  cases h <;> assumption

/-- Documents other than `origin`, each of which imports the grammar that the next one declares; the
last one imports one of `grammars`. -/
structure Chain (g : ImportGraph) (origin : String) (grammars chain : List String) : Prop where
  ne : ∀ d ∈ chain, d ≠ origin
  linked : chain.IsChain fun d next => ∃ grammar, g.name? next = some grammar ∧ g.Imports d grammar
  last : ∃ d ∈ chain.getLast?, ∃ grammar ∈ grammars, g.Imports d grammar

theorem draws_iff_chain :
    g.Draws origin grammars d ↔ ∃ rest, g.Chain origin grammars (d :: rest) := by
  constructor
  · intro h
    induction h with
    | @direct d grammar hne hi hg =>
      exact ⟨[], by simpa using hne, .singleton d, d, rfl, grammar, hg, hi⟩
    | @through d next grammar hne hi hn _ ih =>
      obtain ⟨rest, h⟩ := ih
      refine ⟨next :: rest, ?_, .cons_cons ⟨grammar, hn, hi⟩ h.linked, ?_⟩
      · rw [List.forall_mem_cons]
        exact ⟨hne, h.ne⟩
      · rw [List.getLast?_cons_cons]
        exact h.last
  · rintro ⟨rest, h⟩
    induction rest generalizing d with
    | nil =>
      obtain ⟨e, he, grammar, hg, hi⟩ := h.last
      obtain rfl : d = e := by simpa using he
      exact .direct (h.ne d (.head _)) hi hg
    | cons next rest ih =>
      obtain ⟨⟨grammar, hn, hi⟩, hlinked⟩ := List.isChain_cons_cons.1 h.linked
      have hrest : g.Draws origin grammars next := by
        refine ih ⟨fun e he => h.ne e (.tail _ he), hlinked, ?_⟩
        rw [← List.getLast?_cons_cons (a := d)]
        exact h.last
      exact .through (h.ne d (.head _)) hi hn hrest

/-- The importers of a grammar among `entries`, without `origin` and those in `found`. -/
def importersAmong (entries : Directory (List String)) (origin : String) (found : List String)
    (grammar : String) : List String :=
  (entries.filter fun (document, grammars) =>
    document != origin && !found.contains document && grammars.contains grammar).map Prod.fst

theorem mem_importers (hd : g.imports.Distinct) :
    d ∈ g.importers origin found grammar ↔ d ≠ origin ∧ d ∉ found ∧ g.Imports d grammar := by
  simp only [importers, List.mem_map, List.mem_filter, Bool.and_eq_true, bne_iff_ne, ne_eq,
    Bool.not_eq_true', List.contains_eq_mem, decide_eq_false_iff_not, decide_eq_true_eq, Prod.exists]
  constructor
  · rintro ⟨d, l, ⟨hl, ⟨h₁, h₂⟩, h₃⟩, rfl⟩
    exact ⟨h₁, h₂, l, Directory.get?_eq_some_of_mem hd hl, h₃⟩
  · rintro ⟨h₁, h₂, l, hl, h₃⟩
    exact ⟨d, l, ⟨Directory.mem_of_get?_eq_some hl, ⟨h₁, h₂⟩, h₃⟩, rfl⟩

/-- The entries of the graph that a search has not come upon. -/
def unfound (g : ImportGraph) (found : List String) : Nat :=
  (g.imports.filter fun e => !found.contains e.1).length

theorem unfound_append {fresh : List String}
    (hf : fresh.Perm (g.importers origin found grammar)) :
    g.unfound (found ++ fresh) + fresh.length ≤ g.unfound found := by
  rw [hf.length_eq]
  simp only [unfound, importers, List.length_map]
  refine length_filter_add_le (fun e _ h => ?_) (fun e _ h => ?_) (fun e he h h' => ?_)
  · simp_all
  · simp_all
  · simp only [List.contains_eq_mem, List.mem_append, Bool.not_eq_true', decide_eq_false_iff_not,
      not_or] at h
    refine h.2 (hf.mem_iff.2 (List.mem_map.2 ⟨e, List.mem_filter.2 ⟨he, ?_⟩, rfl⟩))
    simpa using h'

/-- The importers of a grammar are all in `found`. -/
def Covered (g : ImportGraph) (origin : String) (found : List String) (grammar : String) : Prop :=
  ∀ d, d ≠ origin → g.Imports d grammar → d ∈ found

theorem Covered.mono {found' : List String} (h : g.Covered origin found grammar)
    (hs : ∀ d ∈ found, d ∈ found') : g.Covered origin found' grammar :=
  fun d hne hi => hs d (h d hne hi)

/-- A search for dependents under way. -/
structure Search where
  /-- The grammars still to be looked at. -/
  queue : List String
  /-- The grammars that have been looked at. -/
  seen : List String
  /-- The documents found so far. -/
  found : List String

namespace Search

/-- Meets a document with the grammars it imports. If `grammar` is one of them, the document is
found, unless it is `origin` or was found before, and its own grammar is queued. -/
def meet (g : ImportGraph) (origin grammar : String) (s : Search) (entry : String × List String) :
    Search :=
  if entry.1 = origin ∨ entry.1 ∈ s.found ∨ grammar ∉ entry.2 then s
  else
    { s with
      queue := s.queue ++ (g.name? entry.1).toList
      found := s.found ++ [entry.1] }

/-- The turns that a search may have left: one for each grammar of the queue, and one for each
document that it has not found. -/
def cost (g : ImportGraph) (s : Search) : Nat := s.queue.length + g.unfound s.found

end Search

/-- One turn of a search. It passes over a grammar that it has seen; for another one it goes through
the recorded imports, which may come in any order. -/
inductive Turn (g : ImportGraph) (origin : String) : Search → Search → Prop
  | pass {grammar : String} {queue seen found : List String} (hs : grammar ∈ seen) :
      Turn g origin ⟨grammar :: queue, seen, found⟩ ⟨queue, seen, found⟩
  | scan {grammar : String} {queue seen found : List String} {entries : Directory (List String)}
      (hs : grammar ∉ seen) (he : entries.Perm g.imports) :
      Turn g origin ⟨grammar :: queue, seen, found⟩
        (entries.foldl (Search.meet g origin grammar) ⟨queue, grammar :: seen, found⟩)

/-- A search may get from `s` to `t` in `n` turns. -/
inductive Turns (g : ImportGraph) (origin : String) : Nat → Search → Search → Prop
  | done (s : Search) : Turns g origin 0 s s
  | turn {n : Nat} {s t u : Search} (h : Turn g origin s t) (hs : Turns g origin n t u) :
      Turns g origin (n + 1) s u

theorem importersAmong_append_of_not_mem {entries : Directory (List String)}
    (hd : d ∉ entries.map Prod.fst) :
    importersAmong entries origin (found ++ [d]) grammar =
      importersAmong entries origin found grammar := by
  rw [importersAmong, importersAmong]
  congr 1
  refine List.filter_congr fun e he => ?_
  have hne : e.1 ≠ d := fun heq => hd (heq ▸ List.mem_map_of_mem (f := Prod.fst) he)
  simp [hne]

/-- Documents found in the course of a scan do not change what else it finds: each document is met
once. -/
theorem foldl_meet {entries : Directory (List String)} (hd : entries.Distinct) (s : Search) :
    entries.foldl (Search.meet g origin grammar) s =
      { s with
        queue := s.queue ++ (importersAmong entries origin s.found grammar).filterMap g.name?
        found := s.found ++ importersAmong entries origin s.found grammar } := by
  induction entries generalizing s with
  | nil => simp [importersAmong]
  | cons e entries ih =>
    obtain ⟨hne, hd⟩ := List.nodup_cons.1 hd
    rw [List.foldl_cons, ih hd]
    by_cases he : e.1 = origin ∨ e.1 ∈ s.found ∨ grammar ∉ e.2
    · have hskip : importersAmong (e :: entries) origin s.found grammar =
          importersAmong entries origin s.found grammar := by
        rw [importersAmong, List.filter_cons_of_neg, importersAmong]
        simp only [Bool.and_eq_true, bne_iff_ne, ne_eq, Bool.not_eq_true', List.contains_eq_mem,
          decide_eq_false_iff_not, decide_eq_true_eq]
        tauto
      rw [Search.meet, if_pos he, hskip]
    · have hmeet : importersAmong (e :: entries) origin s.found grammar =
          e.1 :: importersAmong entries origin s.found grammar := by
        rw [importersAmong, List.filter_cons_of_pos, importersAmong, List.map_cons]
        simp only [Bool.and_eq_true, bne_iff_ne, ne_eq, Bool.not_eq_true', List.contains_eq_mem,
          decide_eq_false_iff_not, decide_eq_true_eq]
        tauto
      rw [Search.meet, if_neg he, hmeet]
      simp only [importersAmong_append_of_not_mem hne, List.filterMap_cons, List.append_assoc]
      cases g.name? e.1 <;> simp

theorem scan_eq (hd : g.imports.Distinct) (s : Search) :
    g.imports.foldl (Search.meet g origin grammar) s =
      { s with
        queue := s.queue ++ (g.importers origin s.found grammar).filterMap g.name?
        found := s.found ++ g.importers origin s.found grammar } :=
  foldl_meet hd s

/-- What a turn can do: pass over a grammar, or find the importers of one in some order. -/
theorem Turn.outcome (hd : g.imports.Distinct) {s t : Search} (h : g.Turn origin s t) :
    ∃ grammar queue, s.queue = grammar :: queue ∧
      (grammar ∈ s.seen ∧ t = { s with queue := queue } ∨
        grammar ∉ s.seen ∧ ∃ fresh, fresh.Perm (g.importers origin s.found grammar) ∧
          t = ⟨queue ++ fresh.filterMap g.name?, grammar :: s.seen, s.found ++ fresh⟩) := by
  cases h with
  | @pass grammar queue seen found hs => exact ⟨grammar, queue, rfl, .inl ⟨hs, rfl⟩⟩
  | @scan grammar queue seen found entries hs he =>
    have hde : entries.Distinct := (he.map Prod.fst).nodup_iff.2 hd
    exact ⟨grammar, queue, rfl, .inr ⟨hs, _, (he.filter _).map Prod.fst, foldl_meet hde _⟩⟩

theorem Turn.cost_lt (hd : g.imports.Distinct) {s t : Search} (h : g.Turn origin s t) :
    t.cost g < s.cost g := by
  obtain ⟨grammar, queue, hq, ⟨-, rfl⟩ | ⟨-, fresh, hf, rfl⟩⟩ := h.outcome hd
  · simp only [Search.cost, hq, List.length_cons]
    omega
  · have hlen := unfound_append hf
    have hmap := List.length_filterMap_le g.name? fresh
    simp only [Search.cost, hq, List.length_cons, List.length_append]
    omega

theorem Turns.cost_le (hd : g.imports.Distinct) {n : Nat} {s t : Search}
    (h : g.Turns origin n s t) : n + t.cost g ≤ s.cost g := by
  induction h with
  | done s => omega
  | turn ht _ ih =>
    have := ht.cost_lt hd
    omega

/-- A search with grammars in its queue goes on. -/
theorem exists_turn (g : ImportGraph) (origin : String) {s : Search} (hq : s.queue ≠ []) :
    ∃ t, g.Turn origin s t := by
  obtain ⟨queue, seen, found⟩ := s
  cases queue with
  | nil => exact absurd rfl hq
  | cons grammar queue =>
    by_cases hs : grammar ∈ seen
    · exact ⟨_, .pass hs⟩
    · exact ⟨_, .scan hs (.refl _)⟩

/-- The search of `dependents` is one that goes through the imports as they are filed. -/
theorem exists_turns_spread (origin : String) (hd : g.imports.Distinct) (turns : Nat) (s : Search)
    (ht : s.cost g < turns) :
    ∃ n t, g.Turns origin n s t ∧ t.queue = [] ∧
      t.found = g.spread origin turns s.queue s.seen s.found := by
  induction turns generalizing s with
  | zero => omega
  | succ turns ih =>
    obtain ⟨queue, seen, found⟩ := s
    cases queue with
    | nil => exact ⟨0, _, .done _, rfl, rfl⟩
    | cons grammar queue =>
      by_cases hs : grammar ∈ seen
      · have hturn : g.Turn origin ⟨grammar :: queue, seen, found⟩ ⟨queue, seen, found⟩ := .pass hs
        have hlt := hturn.cost_lt hd
        obtain ⟨n, t, h, hq, hf⟩ := ih ⟨queue, seen, found⟩ (by omega)
        refine ⟨n + 1, t, .turn hturn h, hq, ?_⟩
        rw [hf, spread, if_pos (by simpa using hs)]
      · have hturn : g.Turn origin ⟨grammar :: queue, seen, found⟩
            (g.imports.foldl (Search.meet g origin grammar) ⟨queue, grammar :: seen, found⟩) :=
          .scan hs (.refl _)
        have hlt := hturn.cost_lt hd
        obtain ⟨n, t, h, hq, hf⟩ := ih (g.imports.foldl (Search.meet g origin grammar)
          ⟨queue, grammar :: seen, found⟩) (by omega)
        refine ⟨n + 1, t, .turn hturn h, hq, ?_⟩
        rw [hf, spread, if_neg (by simpa using hs), scan_eq hd]

/-! ## What a search finds -/

/-- How a search for the dependents of `grammars` stands. -/
structure Search.Stands (g : ImportGraph) (origin : String) (grammars : List String) (s : Search) :
    Prop where
  /-- The queue has grammars that were given or that stem from a dependent. -/
  queued : ∀ n ∈ s.queue, n ∈ grammars ∨ ∃ d, g.Draws origin grammars d ∧ g.name? d = some n
  /-- What is found is a dependent. -/
  drawn : ∀ d ∈ s.found, g.Draws origin grammars d
  given : ∀ n ∈ grammars, n ∈ s.queue ∨ n ∈ s.seen
  named : ∀ d ∈ s.found, ∀ n, g.name? d = some n → n ∈ s.queue ∨ n ∈ s.seen
  /-- All importers of a grammar that has been looked at are found. -/
  covered : ∀ n ∈ s.seen, g.Covered origin s.found n

namespace Search.Stands
variable {s t : Search}

theorem start (g : ImportGraph) (origin : String) (grammars : List String) :
    Stands g origin grammars ⟨grammars, [], []⟩ where
  queued _ hn := .inl hn
  drawn _ hd := absurd hd List.not_mem_nil
  given _ hn := .inl hn
  named _ hd := absurd hd List.not_mem_nil
  covered _ hn := absurd hn List.not_mem_nil

theorem pass {queue : List String} (h : s.Stands g origin grammars)
    (hq : s.queue = grammar :: queue) (hs : grammar ∈ s.seen) :
    Stands g origin grammars { s with queue := queue } := by
  -- the grammar leaves the queue and is among the seen ones all the same
  have hleave : ∀ n, n ∈ s.queue ∨ n ∈ s.seen → n ∈ queue ∨ n ∈ s.seen := by
    intro n hn
    rw [hq, List.mem_cons] at hn
    rcases hn with (rfl | hn) | hn
    exacts [.inr hs, .inl hn, .inr hn]
  exact ⟨fun n hn => h.queued n (hq ▸ .tail _ hn), h.drawn, fun n hn => hleave n (h.given n hn),
    fun d hd' n hn => hleave n (h.named d hd' n hn), h.covered⟩

theorem scan {queue fresh : List String} (hd : g.imports.Distinct) (h : s.Stands g origin grammars)
    (hq : s.queue = grammar :: queue) (hf : fresh.Perm (g.importers origin s.found grammar)) :
    Stands g origin grammars
      ⟨queue ++ fresh.filterMap g.name?, grammar :: s.seen, s.found ++ fresh⟩ := by
  have hmem : ∀ d, d ∈ fresh ↔ d ≠ origin ∧ d ∉ s.found ∧ g.Imports d grammar := fun d => by
    rw [hf.mem_iff, mem_importers hd]
  have hdraws : ∀ d ∈ fresh, g.Draws origin grammars d := by
    intro d hd'
    obtain ⟨hne, -, hi⟩ := (hmem d).1 hd'
    rcases h.queued grammar (hq ▸ .head _) with hg | ⟨e, he, hn⟩
    · exact .direct hne hi hg
    · exact .through hne hi hn he
  have hmove : ∀ n, n ∈ s.queue ∨ n ∈ s.seen →
      n ∈ queue ++ fresh.filterMap g.name? ∨ n ∈ grammar :: s.seen := by
    intro n hn
    rw [hq, List.mem_cons] at hn
    rcases hn with (rfl | hn) | hn
    exacts [.inr (.head _), .inl (List.mem_append_left _ hn), .inr (.tail _ hn)]
  constructor
  case queued =>
    intro n hn
    rcases List.mem_append.1 hn with hn | hn
    · exact h.queued n (hq ▸ .tail _ hn)
    · obtain ⟨d, hd', hn⟩ := List.mem_filterMap.1 hn
      exact .inr ⟨d, hdraws d hd', hn⟩
  case drawn =>
    intro d hd'
    rcases List.mem_append.1 hd' with hd' | hd'
    exacts [h.drawn d hd', hdraws d hd']
  case given => exact fun n hn => hmove n (h.given n hn)
  case named =>
    intro d hd' n hn
    rcases List.mem_append.1 hd' with hd' | hd'
    · exact hmove n (h.named d hd' n hn)
    · exact .inl (List.mem_append_right _ (List.mem_filterMap.2 ⟨d, hd', hn⟩))
  case covered =>
    intro n hn
    rcases List.mem_cons.1 hn with rfl | hn
    · intro d hne hi
      by_cases hdf : d ∈ s.found
      · exact List.mem_append_left _ hdf
      · exact List.mem_append_right _ ((hmem d).2 ⟨hne, hdf, hi⟩)
    · exact (h.covered n hn).mono fun d hd' => List.mem_append_left _ hd'

theorem turn (hd : g.imports.Distinct) (h : s.Stands g origin grammars) (ht : g.Turn origin s t) :
    t.Stands g origin grammars := by
  obtain ⟨grammar, queue, hq, ⟨hs, rfl⟩ | ⟨-, fresh, hf, rfl⟩⟩ := ht.outcome hd
  · exact h.pass hq hs
  · exact h.scan hd hq hf

theorem turns (hd : g.imports.Distinct) {n : Nat} (h : s.Stands g origin grammars)
    (ht : g.Turns origin n s t) : t.Stands g origin grammars := by
  induction ht with
  | done => exact h
  | turn ht _ ih => exact ih (h.turn hd ht)

/-- A search with nothing left in its queue has found the dependents. -/
theorem mem_found_iff (h : s.Stands g origin grammars) (hq : s.queue = []) :
    d ∈ s.found ↔ g.Draws origin grammars d := by
  have hseen : ∀ n, n ∈ s.queue ∨ n ∈ s.seen → n ∈ s.seen := by simp [hq]
  constructor
  · exact h.drawn d
  · intro hdraws
    induction hdraws with
    | direct hne hi hg => exact h.covered _ (hseen _ (h.given _ hg)) _ hne hi
    | through hne hi hn _ ih => exact h.covered _ (hseen _ (h.named _ ih _ hn)) _ hne hi

end Search.Stands

theorem cost_start (g : ImportGraph) (grammars : List String) :
    Search.cost g ⟨grammars, [], []⟩ ≤ grammars.length + g.imports.length := by
  have hu : g.unfound [] ≤ g.imports.length := List.length_filter_le ..
  simp only [Search.cost]
  omega

theorem mem_spread_iff (hd : g.imports.Distinct) :
    d ∈ g.spread origin (grammars.length + g.imports.length + 1) grammars [] [] ↔
      g.Draws origin grammars d := by
  have hcost := g.cost_start grammars
  obtain ⟨n, t, ht, hq, hf⟩ := exists_turns_spread origin hd
    (grammars.length + g.imports.length + 1) ⟨grammars, [], []⟩ (by omega)
  rw [← hf]
  exact ((Search.Stands.start g origin grammars).turns hd ht).mem_found_iff hq

/-- The dependents of a change are the documents that draw on one of the changed grammars. -/
theorem mem_dependents_iff (hd : g.imports.Distinct) :
    d ∈ g.dependents origin grammars ↔ g.Draws origin grammars d := by
  rw [dependents, mem_ascending, mem_spread_iff hd]

/-- The dependents of a change, in ascending order, are the documents at the head of a chain.
However the imports come in each turn, a search for them ends within the given number of turns,
cycles or not, and does not end before it has found them all. -/
theorem dependents_exact (hd : g.imports.Distinct) (origin : String) (grammars : List String) :
    (g.dependents origin grammars).Pairwise (· < ·) ∧
      (∀ d, d ∈ g.dependents origin grammars ↔ ∃ rest, g.Chain origin grammars (d :: rest)) ∧
      ∀ n s, g.Turns origin n ⟨grammars, [], []⟩ s →
        n ≤ grammars.length + g.imports.length ∧
          (s.queue = [] → ascending s.found = g.dependents origin grammars) ∧
          (s.queue ≠ [] → ∃ t, g.Turn origin s t) := by
  refine ⟨pairwise_ascending _, fun d => ?_, fun n s h => ⟨?_, fun hq => ?_, exists_turn g origin⟩⟩
  · rw [mem_dependents_iff hd, draws_iff_chain]
  · have hcost := g.cost_start grammars
    have hle := h.cost_le hd
    omega
  · have hs := (Search.Stands.start g origin grammars).turns hd h
    refine ascending_congr fun d => ?_
    rw [hs.mem_found_iff hq, mem_spread_iff hd]

/-- Two documents that import each other's grammar, and one that takes the name of one of them. -/
def twins : ImportGraph where
  names := [("b.g4", "B"), ("a.g4", "A"), ("c.g4", "B")]
  providers := [("A", ["a.g4"]), ("B", ["b.g4", "c.g4"])]
  imports := [("c.g4", ["D"]), ("b.g4", ["A"]), ("a.g4", ["D", "B"])]

theorem dependents_exact_twins :
    twins.imports.Distinct ∧ twins.dependents "c.g4" ["B"] = ["a.g4", "b.g4"] ∧
      (∃ rest, twins.Chain "c.g4" ["B"] ("b.g4" :: rest)) ∧
      ∀ n s, twins.Turns "c.g4" n ⟨["B"], [], []⟩ s → s.queue = [] →
        n ≤ 4 ∧ ascending s.found = ["a.g4", "b.g4"] := by
  have hd : twins.imports.Distinct := by
    rw [Directory.Distinct]
    decide
  have hlist : twins.dependents "c.g4" ["B"] = ["a.g4", "b.g4"] := by decide +kernel
  obtain ⟨-, hmem, hends⟩ := dependents_exact hd "c.g4" ["B"]
  refine ⟨hd, hlist, (hmem "b.g4").1 (by rw [hlist]; decide), fun n s h hq => ?_⟩
  obtain ⟨hn, hfound, -⟩ := hends n s h
  exact ⟨hn, (hfound hq).trans hlist⟩

end ImportGraph

end GrammarAtlas
