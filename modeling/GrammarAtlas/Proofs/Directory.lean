import GrammarAtlas.Atlas.Directory
import Mathlib.Data.String.Basic
import Mathlib.Data.List.Nodup

/-! # What a directory holds

A directory is read with `get?`; the lemmas here say what each change of it does to `get?`. Each
name stands in it once (`Directory.Distinct`), and then its entries are what `get?` finds.

The second part is about `ascending`: it keeps the names of a list and puts them in order. -/

namespace GrammarAtlas

namespace Directory
variable {α : Type} {d : Directory α} {name other : String} {a b : α}

/-- No name is filed twice. -/
def Distinct (d : Directory α) : Prop := (d.map Prod.fst).Nodup

theorem distinct_nil : Distinct ([] : Directory α) := List.nodup_nil

theorem mem_of_get?_eq_some (h : d.get? name = some a) : (name, a) ∈ d := by
  obtain ⟨l, r, rfl, -⟩ := List.lookup_eq_some_iff.1 h
  simp

theorem get?_eq_some_of_mem (hd : d.Distinct) (h : (name, a) ∈ d) : d.get? name = some a := by
  induction d with
  | nil => simp at h
  | cons e d ih =>
    obtain ⟨hn, hd⟩ := List.nodup_cons.1 hd
    rcases List.mem_cons.1 h with rfl | h
    · simp [get?]
    · have hne : name ≠ e.1 := fun he => hn (he ▸ List.mem_map_of_mem (f := Prod.fst) h)
      rw [get?, List.lookup_cons, beq_eq_false_iff_ne.2 hne]
      exact ih hd h

theorem get?_erase_self : (d.erase name).get? name = none := by
  simp only [get?, erase, List.lookup_eq_none_iff, List.mem_filter]
  rintro e ⟨-, he⟩
  rw [bne_iff_ne] at he
  exact bne_iff_ne.2 (Ne.symm he)

theorem get?_erase_of_ne (h : other ≠ name) : (d.erase name).get? other = d.get? other := by
  induction d with
  | nil => rfl
  | cons e d ih =>
    obtain ⟨n, a⟩ := e
    simp only [get?, erase, List.filter_cons] at ih ⊢
    by_cases hn : n = name
    · subst hn
      simpa [List.lookup_cons, beq_eq_false_iff_ne.2 h] using ih
    · rw [if_pos (by simp [hn]), List.lookup_cons, List.lookup_cons, ih]

theorem get?_insert_self : (d.insert name a).get? name = some a := by
  have hn : List.lookup name (d.erase name) = none := get?_erase_self
  rw [get?, insert, List.lookup_append, hn]
  simp

theorem get?_insert_of_ne (h : other ≠ name) : (d.insert name a).get? other = d.get? other := by
  have hn : List.lookup other (d.erase name) = d.get? other := get?_erase_of_ne h
  rw [get?, insert, List.lookup_append, hn]
  simp [List.lookup_cons, beq_eq_false_iff_ne.2 h]

theorem Distinct.erase (hd : d.Distinct) : (d.erase name).Distinct :=
  List.Nodup.sublist (List.filter_sublist.map Prod.fst) hd

theorem Distinct.insert (hd : d.Distinct) : (d.insert name a).Distinct := by
  have hne : ∀ e ∈ d.erase name, e.1 ≠ name := by
    intro e he
    simpa using (List.mem_filter.1 he).2
  simp only [Distinct, Directory.insert, List.map_append, List.map_cons, List.map_nil]
  refine List.Nodup.append hd.erase (List.nodup_singleton _) ?_
  simpa [List.disjoint_singleton] using fun a ha => hne (name, a) ha rfl

end Directory

theorem mem_insertAscending {x name : String} {l : List String} :
    x ∈ insertAscending name l ↔ x = name ∨ x ∈ l := by
  induction l with
  | nil => simp [insertAscending]
  | cons n l ih =>
    simp only [insertAscending]
    split
    · simp
    · split
      · rename_i h; subst h; simp
      · simp only [List.mem_cons, ih]; tauto

theorem mem_ascending {x : String} {l : List String} : x ∈ ascending l ↔ x ∈ l := by
  induction l with
  | nil => simp [ascending]
  | cons n l ih => simp only [ascending, List.foldr_cons, List.mem_cons] at ih ⊢
                   rw [mem_insertAscending, ih]

theorem pairwise_insertAscending {name : String} {l : List String} (h : l.Pairwise (· < ·)) :
    (insertAscending name l).Pairwise (· < ·) := by
  induction l with
  | nil => simp [insertAscending]
  | cons n l ih =>
    obtain ⟨hn, hl⟩ := List.pairwise_cons.1 h
    simp only [insertAscending]
    split
    · rename_i hlt
      refine List.pairwise_cons.2 ⟨fun x hx => ?_, h⟩
      rcases List.mem_cons.1 hx with rfl | hx
      · exact hlt
      · exact hlt.trans (hn x hx)
    · split
      · exact h
      · rename_i hlt hne
        have hgt : n < name := lt_of_le_of_ne (not_lt.1 hlt) (Ne.symm hne)
        refine List.pairwise_cons.2 ⟨fun x hx => ?_, ih hl⟩
        rcases mem_insertAscending.1 hx with rfl | hx
        · exact hgt
        · exact hn x hx

theorem pairwise_ascending (l : List String) : (ascending l).Pairwise (· < ·) := by
  induction l with
  | nil => exact List.Pairwise.nil
  | cons n l ih => exact pairwise_insertAscending ih

theorem head?_eq_some_iff_least {l : List String} (h : l.Pairwise (· < ·)) {x : String} :
    l.head? = some x ↔ x ∈ l ∧ ∀ y ∈ l, x ≤ y := by
  cases l with
  | nil => simp
  | cons n l =>
    obtain ⟨hn, -⟩ := List.pairwise_cons.1 h
    simp only [List.head?_cons, Option.some.injEq, List.mem_cons, forall_eq_or_imp]
    constructor
    · rintro rfl
      exact ⟨.inl rfl, le_refl _, fun y hy => (hn y hy).le⟩
    · rintro ⟨rfl | hx, hle, -⟩
      · rfl
      · exact absurd (hn x hx) (not_lt.2 hle)

end GrammarAtlas
