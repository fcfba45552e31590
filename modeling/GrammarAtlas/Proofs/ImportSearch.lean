import GrammarAtlas.Proofs.Inquiry
import GrammarAtlas.Tree.Rule

/-! # What a reference leads to

`Reaches P own n w`: from the imports of the table `own`, `n` further links lead to the waypoint
`w`, along the tables that `P` holds and past no grammar of the own name. The search for a name goes
through the waypoints in the order of their distance. `Frontier` is its invariant: all that is nearer
has been visited, and what has been visited does not declare the name and has its links in the queue.
What one turn of the search can do is said once (`turn_of_search`), with what each turn does to the
frontier. The turns that the search is given outlast the links of the known tables (`pendingLinks`),
so it ends because it has found the name or has seen everything, also where imports run in a
circle.

Main statement: `references_traced`, on every reference of a text. -/

namespace GrammarAtlas

/-- Borrowed tokens are of use to references to tokens only. -/
def Waypoint.Serves (w : Waypoint) (ns : Namespace) : Prop := w.2 = true → ns = .token

theorem Waypoint.Serves.of_link {ns : Namespace} {g g' : String} {b c : Bool}
    (h : Waypoint.Serves (g, b || c) ns) : Waypoint.Serves (g', b) ns := by
  intro hb
  exact h (by simp_all)

namespace Resolution

inductive Reaches (P : String → Option SymbolTable) (own : SymbolTable) : Nat → Waypoint → Prop
  | start {i : Import} (hi : i ∈ own.imports) (hne : own.grammarName? ≠ some i.grammar) :
    Reaches P own 0 (i.grammar, i.tokensOnly)
  | step {n : Nat} {g : String} {b : Bool} {t : SymbolTable} {i : Import}
    (h : Reaches P own n (g, b)) (ht : P g = some t) (hi : i ∈ t.imports)
    (hne : own.grammarName? ≠ some i.grammar) :
    Reaches P own (n + 1) (i.grammar, b || i.tokensOnly)

/-- The grammar `g`, at distance `n`, declares what a reference to `name` asks for. -/
def Offers (P : String → Option SymbolTable) (own : SymbolTable) (ns : Namespace) (name : String)
    (n : Nat) (g : String) : Prop :=
  ∃ b t, Reaches P own n (g, b) ∧ Waypoint.Serves (g, b) ns ∧ P g = some t ∧ t.defines ns name

/-- A grammar that offers the name at the least distance, or none if none offers it. -/
def Nearest (P : String → Option SymbolTable) (own : SymbolTable) (ns : Namespace) (name : String) :
    Option String → Prop
  | some g => ∃ n, Offers P own ns name n g ∧ ∀ m g', Offers P own ns name m g' → n ≤ m
  | none => ∀ n g, ¬ Offers P own ns name n g

variable {P : String → Option SymbolTable} {own : SymbolTable} {ns : Namespace} {name g : String}
  {known : Known} {n : Nat} {w : Waypoint} {near far visited : List Waypoint}

/-- The search for `name` has come `n` links far: it goes on with the waypoints `near` at that
distance, and then with `far`, one link further. -/
structure Frontier (P : String → Option SymbolTable) (own : SymbolTable) (ns : Namespace)
    (name : String) (n : Nat) (near far visited : List Waypoint) : Prop where
  home : ∀ g, own.grammarName? = some g → ∀ b, (g, b) ∈ visited
  nearby : ∀ w ∈ near, own.grammarName? ≠ some w.1 → Reaches P own n w
  beyond : ∀ w ∈ far, own.grammarName? ≠ some w.1 → Reaches P own (n + 1) w
  before : ∀ m w, Reaches P own m w → m < n → w.Serves ns → w ∈ visited
  here : ∀ w, Reaches P own n w → w.Serves ns → w ∈ visited ∨ w ∈ near
  /-- What was visited is done with: its links have been visited or wait to be. -/
  passed : ∀ g b t, (g, b) ∈ visited → own.grammarName? ≠ some g → Waypoint.Serves (g, b) ns →
    P g = some t → t.defines ns name = false ∧
      ∀ i ∈ t.imports, (i.grammar, b || i.tokensOnly) ∈ visited ∨
        (i.grammar, b || i.tokensOnly) ∈ near ++ far

theorem Reaches.ne_home (h : Reaches P own n w) : own.grammarName? ≠ some w.1 := by
  cases h with
  | start _ hne => exact hne
  | step _ _ _ hne => exact hne

namespace Frontier

theorem start (P : String → Option SymbolTable) (own : SymbolTable) (ns : Namespace) (name : String)
    (hhome : ∀ g b, (g, b) ∈ visited ↔ own.grammarName? = some g) :
    Frontier P own ns name 0 (Waypoint.following own false) [] visited where
  home g hg b := (hhome g b).2 hg
  nearby := by
    intro w hw hne
    obtain ⟨i, hi, rfl⟩ := List.mem_map.1 hw
    rw [Bool.false_or]
    exact .start hi hne
  beyond := by simp
  before := by omega
  here := by
    intro w hw _
    cases hw with
    | @start i hi => exact .inr (List.mem_map.2 ⟨i, hi, by simp⟩)
  passed g b t hv hne := absurd ((hhome g b).1 hv) hne

/-- A waypoint that was visited before is left out. -/
theorem skip (h : Frontier P own ns name n (w :: near) far visited) (hw : w ∈ visited) :
    Frontier P own ns name n near far visited where
  home := h.home
  nearby := fun v hv => h.nearby v (.tail _ hv)
  beyond := h.beyond
  before := h.before
  here := by
    intro v hv hs
    rcases h.here v hv hs with hv | hv
    · exact .inl hv
    rcases List.mem_cons.1 hv with rfl | hv
    · exact .inl hw
    · exact .inr hv
  passed := by
    intro g b t hv hne hs ht
    obtain ⟨hd, hi⟩ := h.passed g b t hv hne hs ht
    refine ⟨hd, fun i hmem => ?_⟩
    rcases hi i hmem with hl | hl
    · exact .inl hl
    rcases List.mem_cons.1 hl with hl | hl
    · exact .inl (hl ▸ hw)
    · exact .inr hl

/-- A waypoint that does not declare the name is visited, and its links are put behind the queue. -/
theorem visit {links : List Waypoint} (h : Frontier P own ns name n (w :: near) far visited)
    (hnew : w ∉ visited)
    (hlinks : ∀ v ∈ links, ∃ t, P w.1 = some t ∧ ∃ i ∈ t.imports, v = (i.grammar, w.2 || i.tokensOnly))
    (hpass : ∀ t, w.Serves ns → P w.1 = some t → t.defines ns name = false ∧
      ∀ i ∈ t.imports, (i.grammar, w.2 || i.tokensOnly) ∈ links) :
    Frontier P own ns name n near (far ++ links) (w :: visited) where
  home := fun g hg b => .tail _ (h.home g hg b)
  nearby := fun v hv => h.nearby v (.tail _ hv)
  beyond := by
    intro v hv hne
    rcases List.mem_append.1 hv with hv | hv
    · exact h.beyond v hv hne
    obtain ⟨t, ht, i, hi, rfl⟩ := hlinks v hv
    have hw : own.grammarName? ≠ some w.1 := fun hw => hnew (h.home w.1 hw w.2)
    exact .step (h.nearby w (.head _) hw) ht hi hne
  before := fun m v hv hm hs => .tail _ (h.before m v hv hm hs)
  here := by
    intro v hv hs
    rcases h.here v hv hs with hv | hv
    · exact .inl (.tail _ hv)
    rcases List.mem_cons.1 hv with rfl | hv
    · exact .inl (.head _)
    · exact .inr hv
  passed := by
    intro g b t hv hne hs ht
    rcases List.mem_cons.1 hv with rfl | hv
    · obtain ⟨hd, hi⟩ := hpass t hs ht
      exact ⟨hd, fun i hmem => .inr (by simp [hi i hmem])⟩
    obtain ⟨hd, hi⟩ := h.passed g b t hv hne hs ht
    refine ⟨hd, fun i hmem => ?_⟩
    rcases hi i hmem with hl | hl
    · exact .inl (.tail _ hl)
    rcases List.mem_cons.1 hl with hl | hl
    · exact .inl (hl ▸ .head _)
    · exact .inr (by rw [← List.append_assoc]; exact List.mem_append_left _ hl)

/-- A waypoint that does not serve, or whose grammar nobody declares, leads nowhere. -/
theorem pass (h : Frontier P own ns name n (w :: near) far visited) (hnew : w ∉ visited)
    (hno : w.Serves ns → P w.1 = none) : Frontier P own ns name n near far (w :: visited) := by
  have hv : Frontier P own ns name n near (far ++ []) (w :: visited) :=
    h.visit hnew (by simp) fun t hs ht => by simp [hno hs] at ht
  rwa [List.append_nil] at hv

theorem follow {t : SymbolTable} (h : Frontier P own ns name n (w :: near) far visited)
    (hnew : w ∉ visited) (ht : P w.1 = some t) (hd : t.defines ns name = false) :
    Frontier P own ns name n near (far ++ Waypoint.following t w.2) (w :: visited) := by
  refine h.visit hnew (fun v hv => ?_) fun t' _ ht' => ?_
  · obtain ⟨i, hi, rfl⟩ := List.mem_map.1 hv
    exact ⟨t, ht, i, hi, rfl⟩
  · obtain rfl : t = t' := Option.some.inj (ht.symm.trans ht')
    exact ⟨hd, fun i hi => List.mem_map.2 ⟨i, hi, rfl⟩⟩

/-- Once no waypoint at the distance is left, the search goes one link further. -/
theorem advance (h : Frontier P own ns name n [] far visited) :
    Frontier P own ns name (n + 1) far [] visited where
  home := h.home
  nearby := h.beyond
  beyond := by simp
  before := by
    intro m w hw hm hs
    rcases Nat.lt_succ_iff_lt_or_eq.1 hm with hm | rfl
    · exact h.before m w hw hm hs
    · simpa using h.here w hw hs
  here := by
    intro w hw hs
    cases hw with
    | @step _ g b t i hg ht hi hne =>
      have hs' : Waypoint.Serves (g, b) ns := hs.of_link
      have hv : (g, b) ∈ visited := by simpa using h.here _ hg hs'
      exact (h.passed g b t hv hg.ne_home hs' ht).2 i hi
  passed := by
    intro g b t hv hne hs ht
    simpa using h.passed g b t hv hne hs ht

/-- With nothing left in the queue, all that can be reached has been visited. -/
theorem mem_visited (h : Frontier P own ns name n [] [] visited) {m : Nat}
    (hw : Reaches P own m w) (hs : w.Serves ns) : w ∈ visited := by
  induction hw with
  | @start i hi hne =>
    rcases Nat.eq_zero_or_pos n with rfl | hn
    · simpa using h.here _ (.start hi hne) hs
    · exact h.before 0 _ (.start hi hne) hn hs
  | @step m g b t i hg ht hi hne ih =>
    have hs' : Waypoint.Serves (g, b) ns := hs.of_link
    simpa using (h.passed g b t (ih hs') hg.ne_home hs' ht).2 i hi

theorem not_offers (h : Frontier P own ns name n [] [] visited) (m : Nat) (g : String) :
    ¬ Offers P own ns name m g := by
  rintro ⟨b, t, hr, hs, ht, hd⟩
  have := (h.passed g b t (h.mem_visited hr hs) hr.ne_home hs ht).1
  simp [hd] at this

theorem le_of_offers (h : Frontier P own ns name n near far visited) {m : Nat}
    (ho : Offers P own ns name m g) : n ≤ m := by
  obtain ⟨b, t, hr, hs, ht, hd⟩ := ho
  by_contra hlt
  have hv := h.before m (g, b) hr (by omega) hs
  have := (h.passed g b t hv hr.ne_home hs ht).1
  simp [hd] at this

theorem nearest {t : SymbolTable} (h : Frontier P own ns name n (w :: near) far visited)
    (hnew : w ∉ visited) (hs : w.Serves ns) (ht : P w.1 = some t) (hd : t.defines ns name) :
    Nearest P own ns name (some w.1) := by
  have hhome : own.grammarName? ≠ some w.1 := fun hw => hnew (h.home w.1 hw w.2)
  have ho : Offers P own ns name n w.1 := ⟨w.2, t, h.nearby w (.head _) hhome, hs, ht, hd⟩
  exact ⟨n, ho, fun m g' ho' => h.le_of_offers ho'⟩

end Frontier

/-- In how many ways a grammar may still be visited. -/
def visitsLeft (visited : List Waypoint) (g : String) : Nat :=
  (if (g, false) ∈ visited then 0 else 1) + if (g, true) ∈ visited then 0 else 1

/-- How many links of known tables the search may still put into its queue. -/
def pendingLinks (visited : List Waypoint) : Known → Nat
  | [] => 0
  | (_, none) :: known => pendingLinks visited known
  | (g, some t) :: known => visitsLeft visited g * t.imports.length + pendingLinks visited known

theorem visitsLeft_le (visited : List Waypoint) (g : String) : visitsLeft visited g ≤ 2 := by
  unfold visitsLeft
  split <;> split <;> omega

theorem visitsLeft_cons_le (w : Waypoint) (visited : List Waypoint) (g : String) :
    visitsLeft (w :: visited) g ≤ visitsLeft visited g := by
  have hle (v : Waypoint) : (if v ∈ w :: visited then 0 else 1) ≤ if v ∈ visited then 0 else 1 := by
    by_cases hv : v ∈ visited <;> simp [hv]
    split <;> omega
  exact Nat.add_le_add (hle _) (hle _)

theorem visitsLeft_cons_lt (hw : w ∉ visited) :
    visitsLeft (w :: visited) w.1 < visitsLeft visited w.1 := by
  obtain ⟨g, b⟩ := w
  unfold visitsLeft
  cases b <;> simp [hw]

theorem pendingLinks_cons_le (w : Waypoint) (visited : List Waypoint) (known : Known) :
    pendingLinks (w :: visited) known ≤ pendingLinks visited known := by
  induction known with
  | nil => simp [pendingLinks]
  | cons e known ih =>
    obtain ⟨g, t?⟩ := e
    cases t? with
    | none => exact ih
    | some t =>
      exact Nat.add_le_add (Nat.mul_le_mul_right _ (visitsLeft_cons_le w visited g)) ih

/-- Whoever visits a known table has its links no longer ahead. -/
theorem pendingLinks_cons_add_le {t : SymbolTable} (hw : w ∉ visited) (ht : (w.1, some t) ∈ known) :
    pendingLinks (w :: visited) known + t.imports.length ≤ pendingLinks visited known := by
  induction known with
  | nil => cases ht
  | cons e known ih =>
    rcases List.mem_cons.1 ht with rfl | hmem
    · have hle := pendingLinks_cons_le w visited known
      have hmul := Nat.mul_le_mul_right t.imports.length (Nat.succ_le_of_lt (visitsLeft_cons_lt hw))
      rw [Nat.succ_mul] at hmul
      simp only [pendingLinks]
      omega
    · obtain ⟨g, t?⟩ := e
      have hrest := ih hmem
      cases t? with
      | none => exact hrest
      | some t' =>
        have hmul := Nat.mul_le_mul_right t'.imports.length (visitsLeft_cons_le w visited g)
        simp only [pendingLinks]
        omega

theorem pendingLinks_le (visited : List Waypoint) (known : Known) :
    pendingLinks visited known ≤ 2 * known.importCount := by
  induction known with
  | nil => simp [pendingLinks]
  | cons e known ih =>
    obtain ⟨g, t?⟩ := e
    cases t? with
    | none => exact ih
    | some t =>
      have hmul := Nat.mul_le_mul_right t.imports.length (visitsLeft_le visited g)
      simp only [pendingLinks, Known.importCount]
      omega

/-- What a turn of the search does with the waypoint that it takes off the queue. -/
inductive Turn (known : Known) (ns : Namespace) (name : String) (turns : Nat) (w : Waypoint)
    (queue visited : List Waypoint) (found? : Option String) : Prop
  | again (hw : w ∈ visited) (h : search known ns name turns queue visited = .ok found?)
  | pass (hw : w ∉ visited) (hno : w.Serves ns → known.lookup w.1 = some none)
    (h : search known ns name turns queue (w :: visited) = .ok found?)
  | find {t : SymbolTable} (hw : w ∉ visited) (hs : w.Serves ns)
    (ht : known.lookup w.1 = some (some t)) (hd : t.defines ns name) (hfound : some w.1 = found?)
  | follow {t : SymbolTable} (hw : w ∉ visited) (ht : known.lookup w.1 = some (some t))
    (hd : t.defines ns name = false)
    (h : search known ns name turns (queue ++ Waypoint.following t w.2) (w :: visited) = .ok found?)

theorem turn_of_search {turns : Nat} {queue : List Waypoint} {found? : Option String}
    (h : search known ns name (turns + 1) (w :: queue) visited = .ok found?) :
    Turn known ns name turns w queue visited found? := by
  obtain ⟨g, b⟩ := w
  rw [search] at h
  split at h
  · rename_i hv
    exact .again (by simpa using hv) h
  rename_i hv
  have hnew : (g, b) ∉ visited := by simpa using hv
  split at h
  · rename_i hb
    rw [Bool.and_eq_true, bne_iff_ne] at hb
    exact .pass hnew (fun hs => absurd (hs hb.1) hb.2) h
  rename_i hb
  have hserves : Waypoint.Serves (g, b) ns := by
    intro hb'
    by_contra hns
    exact hb (by rw [Bool.and_eq_true, bne_iff_ne]; exact ⟨hb', hns⟩)
  obtain ⟨t?, ht, h⟩ := bind_ok h
  have hl := lookup_of_table?_ok ht
  cases t? with
  | none => exact .pass hnew (fun _ => hl) h
  | some t =>
    simp only at h
    split at h
    · rename_i hd
      exact .find hnew hserves hl hd (Except.ok.inj h)
    · rename_i hd
      exact .follow hnew hl (by simpa using hd) h

/-- Given turns for all links that may come, the search ends where `Nearest` says. -/
theorem search_nearest {turns : Nat} {found? : Option String} (hP : ∀ e ∈ known, e.2 = P e.1)
    (hf : Frontier P own ns name n near far visited)
    (hturns : (near ++ far).length + pendingLinks visited known ≤ turns)
    (h : search known ns name turns (near ++ far) visited = .ok found?) :
    Nearest P own ns name found? := by
  have hsome {g t?} (hl : known.lookup g = some t?) : P g = t? := (hP _ (Known.mem_of_lookup hl)).symm
  induction turns generalizing n near far visited with
  | zero =>
    obtain ⟨⟨rfl, rfl⟩, -⟩ : (near = [] ∧ far = []) ∧ _ := by simpa using hturns
    cases h
    exact hf.not_offers
  | succ turns ih =>
    -- A turn takes the first of the waypoints that are near.
    have hturn : ∀ {n w near far}, Frontier P own ns name n (w :: near) far visited →
        (w :: near ++ far).length + pendingLinks visited known ≤ turns + 1 →
        search known ns name (turns + 1) (w :: near ++ far) visited = .ok found? →
        Nearest P own ns name found? := by
      intro n w near far hf hturns h
      simp only [List.cons_append, List.length_cons] at hturns h
      have hle := pendingLinks_cons_le w visited known
      cases turn_of_search h with
      | again hw h => exact ih (hf.skip hw) (by omega) h
      | pass hw hno h => exact ih (hf.pass hw fun hs => hsome (hno hs)) (by omega) h
      | find hw hs ht hd hfound => exact hfound ▸ hf.nearest hw hs (hsome ht) hd
      | @follow t hw ht hd h =>
        have hadd := pendingLinks_cons_add_le hw (Known.mem_of_lookup ht)
        have hlen : (Waypoint.following t w.2).length = t.imports.length := List.length_map _
        rw [List.append_assoc] at h
        refine ih (hf.follow hw (hsome ht) hd) ?_ h
        simp only [List.length_append] at hturns ⊢
        omega
    cases near with
    | cons w near => exact hturn hf hturns h
    | nil =>
      cases far with
      | nil =>
        cases h
        exact hf.not_offers
      | cons w far => exact hturn hf.advance (by simpa using hturns) (by simpa using h)

theorem findImported_nearest {found? : Option String} (hP : ∀ e ∈ known, e.2 = P e.1)
    (h : findImported known own ns name = .ok found?) : Nearest P own ns name found? := by
  unfold findImported at h
  extract_lets visited at h
  have hf : Frontier P own ns name 0 (Waypoint.following own false) [] visited := by
    refine .start P own ns name fun g b => ?_
    cases hg : own.grammarName? with
    | none => simp [visited, hg]
    | some g' => cases b <;> simp [visited, hg, eq_comm]
  rw [← List.append_nil (Waypoint.following own false)] at h
  refine search_nearest hP hf ?_ h
  have := pendingLinks_le visited known
  simp only [List.append_nil, Waypoint.following, List.length_map]
  omega

/-! ## References -/

/-- What a reference refers to is where its name is declared: in the table itself, among the built-in
symbols, in the nearest imported grammar, or nowhere. -/
structure Traced (P : String → Option SymbolTable) (own : SymbolTable) (o : Occurrence) : Prop where
  declared : o.origin = .own ↔ own.defines o.ns o.name
  builtIn : own.defines o.ns o.name = false →
    (o.origin = .builtIn ↔ (Symbol.builtIn? o.ns o.name).isSome)
  imported : ∀ g, o.origin = .imported g → Nearest P own o.ns o.name (some g)
  unresolved : own.defines o.ns o.name = false → Symbol.builtIn? o.ns o.name = none →
    (o.origin = .unresolved ↔ ∀ n g, ¬ Offers P own o.ns o.name n g)

theorem traced_of_origin {o : Occurrence} (hP : ∀ e ∈ known, e.2 = P e.1)
    (h : origin known own o.ns o.name = .ok o.origin) : Traced P own o := by
  obtain ⟨name, l, role, ns, origin⟩ := o
  simp only at h
  rw [Resolution.origin] at h
  split at h
  · rename_i hd
    cases h
    exact ⟨by simp [hd], by simp [hd], by simp, by simp [hd]⟩
  rename_i hd
  split at h
  · rename_i hb
    cases h
    refine ⟨by simp [hd], by simp [hb], by simp, fun _ hn => ?_⟩
    simp only at hn
    simp [hn] at hb
  rename_i hb
  obtain ⟨found?, hf, h⟩ := bind_ok h
  have hnear := findImported_nearest hP hf
  cases found? with
  | none =>
    cases h
    exact ⟨by simp [hd], by simp [hb], by simp, fun _ _ => iff_of_true rfl hnear⟩
  | some g =>
    cases h
    refine ⟨by simp [hd], by simp [hb], ?_, fun _ _ => ⟨fun hu => (by cases hu), fun hno => ?_⟩⟩
    · intro g' hg'
      cases hg'
      exact hnear
    · obtain ⟨n, ho, -⟩ := hnear
      exact absurd ho (hno n g)

theorem origin_of_occurrence? {parent m : Node} {o : Occurrence}
    (h : occurrence? known own parent m = .ok (some o)) (hr : o.isReference) :
    origin known own o.ns o.name = .ok o.origin := by
  rcases occurrence?_ok h with ⟨hnone, -⟩ | ⟨name, role, ns, place, -, -, heq, horigin⟩
  · cases hnone
  cases heq
  rcases horigin with ⟨rfl, -⟩ | ⟨-, ho⟩
  · cases hr
  · exact ho

theorem origin_of_mem_occurrencesAt {ids : List (Node × Node)} {os : List Occurrence}
    {o : Occurrence} (h : occurrencesAt known own ids = .ok os) (ho : o ∈ os) (hr : o.isReference) :
    origin known own o.ns o.name = .ok o.origin := by
  induction ids generalizing os with
  | nil => cases h; cases ho
  | cons e ids ih =>
    obtain ⟨found?, rest, hf, hrest, rfl⟩ := occurrencesAt_cons_ok h
    rcases List.mem_append.1 ho with ho | ho
    · rw [Option.mem_toList] at ho
      subst ho
      exact origin_of_occurrence? hf hr
    · exact ih hrest ho

variable {tree : Node} {warn : Bool} {r : Resolution}

/-- An attempt gives each reference the origin of its name. -/
theorem origin_of_attempt (h : attempt known tree own warn = .ok r) {o : Occurrence}
    (ho : o ∈ r.occurrences) (hr : o.isReference) : origin known own o.ns o.name = .ok o.origin :=
  origin_of_mem_occurrencesAt (occurrencesAt_of_attempt h) ho hr

/-- Whatever a library is asked on the way, the last attempt is made with its answers. -/
theorem Progress.inquireFrom {library : Library} {U : List String} {turns : Nat} {asked : Known}
    (hk : Progress library.table? U known) (hU : Within library.table? own U)
    (h : inquireFrom library tree own warn turns known = some (r, asked)) :
    Progress library.table? U asked ∧ attempt asked tree own warn = .ok r := by
  induction turns generalizing known with
  | zero => cases h
  | succ turns ih =>
    rw [Resolution.inquireFrom] at h
    split at h
    · cases h
      exact ⟨hk, ‹_›⟩
    · rename_i hg
      exact ih (hk.ask hU hg) h

/-- A library settles every inquiry; what was asked is then enough for an attempt. -/
theorem exists_inquire (library : Library) (tree : Node) (own : SymbolTable) (warn : Bool) :
    ∃ r asked, inquire library tree own warn = some (r, asked) ∧
      attempt asked tree own warn = .ok r := by
  have hU := within_library library own
  obtain ⟨r, hr⟩ : ∃ r, Settles library.table? tree own warn [] r := Progress.nil.exists_settles hU
  obtain ⟨asked, ha⟩ := inquire_of_settles hr
  exact ⟨r, asked, ha, (Progress.nil.inquireFrom hU ha).2⟩

/-- Every reference of a text is traced through the grammars of the library, which is asked for no
grammar twice. -/
theorem references_traced (text : String) (library : Library) (warn : Bool) :
    let tree := (Grammar.parse text).tree
    let own := SymbolTable.ofTree tree
    ∃ r asked, inquire library tree own warn = some (r, asked) ∧
      (asked.map Prod.fst).Nodup ∧ (∀ e ∈ asked, e.2 = library.table? e.1) ∧
      ∀ o ∈ r.occurrences, o.isReference → Traced library.table? own o := by
  intro tree own
  have hU := within_library library own
  obtain ⟨r, hr⟩ : ∃ r, Settles library.table? tree own warn [] r := Progress.nil.exists_settles hU
  obtain ⟨asked, ha⟩ := inquire_of_settles hr
  obtain ⟨hk, hok⟩ := Progress.nil.inquireFrom hU ha
  refine ⟨r, asked, ha, hk.nodup, hk.answers, fun o ho href => ?_⟩
  exact traced_of_origin hk.answers (origin_of_attempt hok ho href)

/-- The grammar `V` is one link away by its tokens, and two with all of its rules. It imports the
grammar itself in turn. -/
theorem references_traced_diamond :
    let tree := (Grammar.parse
      "grammar G; options \x7b tokenVocab = V; \x7d import A; r : x T r EOF y ;").tree
    let library : Library :=
      [("A", .ofTree (Grammar.parse "grammar A; import V;").tree),
       ("V", .ofTree (Grammar.parse "grammar V; import G, A; x : 'x' ; T : 't' ;").tree)]
    ∃ r asked, inquire library tree (.ofTree tree) true = some (r, asked) ∧
      asked.map Prod.fst = ["V", "A"] ∧
      (r.occurrences.filter Occurrence.isReference).map (fun o => (o.name, o.origin)) =
        [("x", .imported "V"), ("T", .imported "V"), ("r", .own), ("EOF", .builtIn),
          ("y", .unresolved)] ∧
      (asked.map Prod.fst).Nodup ∧
      ∀ o ∈ r.occurrences, o.isReference → Traced library.table? (.ofTree tree) o := by
  intro tree library
  have hcomputed : (inquire library tree (.ofTree tree) true).map (fun found =>
      (found.2.map Prod.fst,
        (found.1.occurrences.filter Occurrence.isReference).map fun o => (o.name, o.origin))) =
      some (["V", "A"], [("x", .imported "V"), ("T", .imported "V"), ("r", .own),
        ("EOF", .builtIn), ("y", .unresolved)]) := by
    decide +kernel
  obtain ⟨r, asked, hr, hnodup, -, htraced⟩ := references_traced _ library true
  rw [hr, Option.map_some, Option.some.injEq, Prod.mk.injEq] at hcomputed
  exact ⟨r, asked, hr, hcomputed.1, hcomputed.2, hnodup, htraced⟩

end Resolution

end GrammarAtlas
