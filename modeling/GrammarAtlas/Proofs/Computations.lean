import GrammarAtlas.Proofs.Freshness
import GrammarAtlas.Workspace

/-! # Computations over a session

A command performs one operation after the other on a session (`AtlasM`). Each of them comes to an
end, so a command can be followed through step by step: `AtlasM.bind_eq` goes on behind an operation
whose outcome is known. Before that the files of a workspace are registered, and nothing is analysed
yet (`Workspace.exists_registered`). Of files with one name, the last one has its text there
(`Workspace.textsOver_eq`). -/

namespace GrammarAtlas

namespace Session
variable {s s' : Session} {c : Control} {r : Reply} {ledger ps : List Publication} {an : Analysis}

theorem runToEnd_stop (s : Session) (r : Reply) : s.runToEnd (.replied r .stop) = some (r, s) := by
  rw [runToEnd, repeatM_eq_of_monadTail]
  rfl

theorem runToEnd_step (s : Session) (c : Control) :
    s.runToEnd c = (s.step c).1.runToEnd (s.step c).2 := by
  match c with
  | .replied r .stop => rfl
  | .replied _ (.script ..) | .perform .. | .refresh .. | .cycle .. | .resolve .. | .refreshAll ..
  | .notify .. | .script .. | .finished .. | .analysed .. =>
    rw [runToEnd, repeatM_eq_of_monadTail]
    rfl

theorem runToEnd_eq {steps : Nat} {x : Reply × Session} (h : runFor steps s c = some x) :
    s.runToEnd c = some x := by
  induction steps generalizing s c with
  | zero =>
    match c, h with
    | .replied r .stop, h => rw [runToEnd_stop, ← h]; rfl
  | succ steps ih =>
    rw [runFor_succ] at h
    rw [runToEnd_step, ih h]

end Session

namespace AtlasM
open Session
variable {s s' : Session} {settings : Settings} {library? : Option Library}
  {ledger : List Publication} {an : Analysis} {file : SourceFile}

theorem bind_eq {α β : Type} {x : AtlasM α} {a : α} (h : x s = some (a, s')) (f : α → AtlasM β) :
    (x >>= f) s = f a s' := by
  show (x s).bind _ = _
  rw [h]
  rfl

theorem perform_eq {operation : Operation} {steps : Nat} {x : Reply × Session}
    (h : s.perform steps operation = some x) : AtlasM.perform operation s = some x :=
  runToEnd_eq h

theorem exists_update (h : Reached settings library? ledger s) (id text : String) :
    ∃ r s', AtlasM.perform (.update id text) s = some (r, s') ∧
      Reached settings library? ledger s' ∧ s'.text? = Function.update s.text? id (some text) := by
  obtain ⟨r, s', hlead, hr⟩ := h.standing.1.leads_update id text
  obtain ⟨steps, hrun, hpub⟩ := hlead.runFor
  refine ⟨r, s', perform_eq hrun, ?_, hr.text⟩
  have hreached := Reached.perform h rfl hrun
  rwa [hpub, List.append_nil] at hreached

/-- Of a file whose analysis is shown, all queries are answered from it. -/
theorem perform_shown (h : s.Shows file.id an) (hu : s.Unique) (ht : an.snapshot.text = file.text)
    (query : Query) :
    AtlasM.perform (.query file.id (some file.text) query) s = some (query.answer an, s) := by
  have htext : ∀ text, some file.text = some text → s.text? file.id = some text := by
    rintro text ⟨⟩
    rw [h.text? hu, ht]
  obtain ⟨steps, hrun, -⟩ := (h.leads_query hu htext query).runFor
  exact perform_eq hrun

theorem exists_shown (h : Reached settings library? ledger s) (file : SourceFile) (query : Query) :
    ∃ ledger' an s', AtlasM.perform (.query file.id (some file.text) query) s =
        some (query.answer an, s') ∧
      Reached settings library? ledger' s' ∧ s'.Shows file.id an ∧ an.snapshot.text = file.text := by
  obtain ⟨an, s', hc, hshows⟩ := h.standing.1.completes_query file.id (some file.text) query nofun
  obtain ⟨steps, hrun, hs'⟩ := hc.perform
  obtain ⟨-, -, -, -, -, htext⟩ := hc
  refine ⟨_, an, s', perform_eq hrun, .perform h rfl hrun, hshows, ?_⟩
  have hfiled := (hshows.text? hs'.sound.coherent.unique).symm.trans (congrFun htext file.id)
  exact Option.some.inj (hfiled.trans (Function.update_self ..))

theorem entries_eq {query : Query} {es : List SymbolEntry}
    (h : AtlasM.perform (.query file.id (some file.text) query) s = some (.entries es, s')) :
    AtlasM.entries file query s = some (es, s') := bind_eq h _

theorem count_eq {name : String} {n : Nat}
    (h : AtlasM.perform (.query file.id (some file.text) (.count name)) s = some (.count n, s')) :
    AtlasM.count file name s = some (n, s') := bind_eq h _

theorem mapM_eq {α β : Type} {f : α → AtlasM β} {g : α → β} {l : List α}
    (h : ∀ x ∈ l, f x s = some (g x, s)) : l.mapM f s = some (l.map g, s) := by
  induction l with
  | nil => rfl
  | cons x l ih =>
    rw [List.mapM_cons, bind_eq (h x (.head _)), bind_eq (ih fun y hy => h y (.tail _ hy))]
    rfl

end AtlasM

namespace Workspace
open Session

/-- The files are registered one after the other. -/
def register (files : List SourceFile) : AtlasM Unit :=
  files.forM fun file => do
    let _ ← AtlasM.perform (.update file.id file.text)

theorem register_cons {file : SourceFile} {files : List SourceFile} {s s₁ s' : Session} {r : Reply}
    (h : AtlasM.perform (.update file.id file.text) s = some (r, s₁))
    (hrest : register files s₁ = some (⟨⟩, s')) : register (file :: files) s = some (⟨⟩, s') :=
  (AtlasM.bind_eq (AtlasM.bind_eq h _) _).trans hrest

/-- The texts of the files, over those that were there before. -/
def textsOver (texts : String → Option String) (files : List SourceFile) : String → Option String :=
  files.foldl (fun texts file => Function.update texts file.id (some file.text)) texts

/-- Of several files with one name, the last one counts. -/
theorem textsOver_eq (files : List SourceFile) (id : String) :
    textsOver (fun _ => none) files id =
      (files.reverse.find? (·.id == id)).map SourceFile.text := by
  induction files using List.reverseRecOn with
  | nil => rfl
  | append_singleton files file ih =>
    rw [textsOver, List.foldl_append, List.foldl_cons, List.foldl_nil, List.reverse_append,
      List.reverse_singleton, List.singleton_append, List.find?_cons]
    by_cases hf : file.id = id
    · rw [hf, Function.update_self, beq_self_eq_true]
      rfl
    · rw [Function.update_of_ne (Ne.symm hf), beq_false_of_ne hf]
      exact ih

theorem exists_registered {settings : Settings} {library? : Option Library}
    {ledger : List Publication} {s : Session} (h : Reached settings library? ledger s)
    (files : List SourceFile) :
    ∃ s', register files s = some (⟨⟩, s') ∧ Reached settings library? ledger s' ∧
      s'.text? = textsOver s.text? files := by
  induction files generalizing s with
  | nil => exact ⟨s, rfl, h, rfl⟩
  | cons file files ih =>
    obtain ⟨r, s₁, hperform, hr, htext⟩ := AtlasM.exists_update h file.id file.text
    obtain ⟨s', hrest, hr', htext'⟩ := ih hr
    exact ⟨s', register_cons hperform hrest, hr', by rw [htext', htext]; rfl⟩

/-- A command that comes to an end on the registered files is what their workspace runs. -/
theorem run_eq {files : List SourceFile} {command : AtlasM Output} {out : Output} {s s' : Session}
    (hregister : register files (start {} none) = some (⟨⟩, s))
    (hcommand : command s = some (out, s')) : Workspace.run files command = some out := by
  have hrun := (AtlasM.bind_eq hregister fun _ => command).trans hcommand
  exact congrArg (Option.bind · fun x => some x.1) hrun

end Workspace

end GrammarAtlas
