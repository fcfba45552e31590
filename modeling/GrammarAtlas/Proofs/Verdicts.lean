import GrammarAtlas.Command
import GrammarAtlas.Proofs.Answers
import GrammarAtlas.Proofs.Computations
import Mathlib.Order.Bounds.Basic

/-! # What a check comes to

A check analyses all files in one session, in which their analyses are made for each other, overtaken
and begun again, by workers that take their turns in any order. What the analysis of a file says of
its own text does not depend on any of that (`Analysis.Judges`); the rest of its diagnostics are
warnings.

Two things can keep a file from being judged by its text. A worker may give up waiting for the first
analysis of the file, which another one has under way; the file is `missed`. And files of one name are
one document, of which the last text counts (`Workspace.judged`).

`Workspace.check_counts_flawed`, for all files that can be read and every schedule of the workers: a
check counts the texts with an error of their own, but for the files that are missed. So if files of
one name have one text and no worker gives up, it fails if and only if a file has an error of its own,
and counts the files that have, for every order of the files, with and without warnings. Neither
condition can be left out (`Workspace.check_counts_last_of_name`, `Workspace.check_misses_given_up`).

`Workspace.check_advises_first`: the reports of faults are those of the faults of the text, in their
order, but a report has the advice of the first fault at its place. That is another one's if two
faults share a place (`Workspace.check_advises_of_other`). -/

namespace GrammarAtlas

namespace Diagnostic

/-- A name is declared another time. -/
def isDuplicate (d : Diagnostic) : Bool :=
  match d.cause with
  | .duplicate _ _ => true
  | .fault _ | .unresolved _ _ | .unknownImport _ => false

theorem isError_of_isDuplicate {d : Diagnostic} (h : d.isDuplicate = true) : d.isError = true := by
  rw [isError, severity]
  unfold isDuplicate at h
  split at h
  · rename_i hd
    rw [hd]
    rfl
  all_goals cases h

theorem code_ne_syntax {d : Diagnostic} (h : d.isDuplicate = true ∨ d.isError = false) :
    (d.code == "syntax") = false := by
  obtain ⟨cause, location⟩ := d
  cases cause with
  | fault => rcases h with h | h <;> cases h
  | duplicate | unresolved | unknownImport => rfl

end Diagnostic

theorem SymbolTable.isDuplicate_of_mem {root : Node} :
    ∀ d ∈ (ofTree root).diagnostics, d.isDuplicate = true := by
  have hdeclare : ∀ (table : SymbolTable) (d : Declaration),
      (∀ e ∈ table.diagnostics, e.isDuplicate = true) →
        ∀ e ∈ (table.declare d).diagnostics, e.isDuplicate = true := by
    intro table d htable
    cases d with
    | grammar i => exact htable
    | symbol kind name location mode? =>
      rw [declare]
      split
      · split
        · intro e he
          rcases List.mem_append.1 he with he | he
          · exact htable e he
          · rw [List.mem_singleton.1 he]
            rfl
        · exact htable
      · exact htable
  have hfold : ∀ (ds : List Declaration) (table : SymbolTable),
      (∀ e ∈ table.diagnostics, e.isDuplicate = true) →
        ∀ e ∈ (ds.foldl declare table).diagnostics, e.isDuplicate = true := by
    intro ds
    induction ds with
    | nil => exact fun _ htable => htable
    | cons d ds ih => exact fun table htable => ih _ (hdeclare table d htable)
  exact hfold _ _ fun d hd => absurd hd List.not_mem_nil

namespace Resolution
variable {known : Known} {own : SymbolTable} {tree : Node} {warn : Bool} {r : Resolution}

theorem warns_of_unknownImports {imports : List Import} {l : List Diagnostic}
    (h : unknownImports known imports = .ok l) : ∀ d ∈ l, d.isError = false := by
  induction imports generalizing l with
  | nil =>
    cases h
    exact nofun
  | cons i imports ih =>
    obtain ⟨t?, later, -, hr, rfl⟩ := unknownImports_cons_ok h
    intro d hd
    split at hd
    · rcases List.mem_cons.1 hd with rfl | hd
      · rfl
      · exact ih hr d hd
    · exact ih hr d hd

/-- What other grammars have to do with is never an error. -/
theorem warns_of_attempt (h : attempt known tree own warn = .ok r) :
    ∀ d ∈ r.diagnostics, d.isError = false := by
  obtain ⟨unknown, hunknown, -, -, hdiagnostics⟩ := exists_of_attempt h
  rw [hdiagnostics]
  intro d hd
  rcases List.mem_append.1 hd with hd | hd
  · exact warns_of_unknownImports hunknown d hd
  · split at hd
    · obtain ⟨o, -, rfl⟩ := List.mem_map.1 hd
      rfl
    · cases hd

end Resolution

/-- The analysis has the faults of the text, and its diagnostics are those, the names declared
another time, and warnings. -/
structure Analysis.Judges (a : Analysis) (text : String) : Prop where
  faults : a.faults = (Grammar.parse text).faults
  diagnostics : ∃ warnings, a.diagnostics = (Grammar.parse text).faults.map Diagnostic.ofFault ++
    (SymbolTable.ofTree (Grammar.parse text).tree).diagnostics ++ warnings ∧
    ∀ d ∈ warnings, d.isError = false

/-- A text has an error of its own: a fault, or a name that it declares another time. -/
def Verdict.isFlawed (text : String) : Bool :=
  !(Grammar.parse text).faults.isEmpty ||
    (SymbolTable.ofTree (Grammar.parse text).tree).diagnostics.any Diagnostic.isDuplicate

/-- The report of a fault, with some advice. -/
def Fault.report (f : Fault) (advice? : Option String) : Report :=
  ⟨f.cause.message, "syntax", .error, advice?, f.location⟩

namespace Analysis.Judges
variable {a : Analysis} {text : String}

theorem isFaulty (h : a.Judges text) (quiet : Bool) :
    Verdict.isFaulty quiet a = Verdict.isFlawed text := by
  obtain ⟨warnings, hd, hw⟩ := h.diagnostics
  have hquiet : Verdict.isFaulty quiet a = a.diagnostics.any Diagnostic.isError := by
    rw [Verdict.isFaulty, Verdict.reported, List.any_filter]
    congr 1
    funext d
    cases d.isError <;> simp
  have hwarn : warnings.any Diagnostic.isError = false := by
    rw [List.any_eq_false]
    exact fun d hdw => by rw [hw d hdw]; exact Bool.false_ne_true
  have hfault : ((Grammar.parse text).faults.map Diagnostic.ofFault).any Diagnostic.isError =
      !(Grammar.parse text).faults.isEmpty := by
    cases (Grammar.parse text).faults <;> rfl
  have htable : ∀ l : List Diagnostic, (∀ d ∈ l, d.isDuplicate = true) →
      l.any Diagnostic.isError = l.any Diagnostic.isDuplicate := by
    intro l hl
    rw [Bool.eq_iff_iff, List.any_eq_true, List.any_eq_true]
    refine exists_congr fun d => and_congr_right fun hdl => ?_
    rw [hl d hdl, Diagnostic.isError_of_isDuplicate (hl d hdl)]
  rw [hquiet, hd, List.any_append, List.any_append, hwarn, hfault,
    htable _ SymbolTable.isDuplicate_of_mem, Bool.or_false, Verdict.isFlawed]

/-- The reports that are made of faults. -/
theorem reports (h : a.Judges text) (quiet : Bool) :
    ((Verdict.reported quiet a).map (Verdict.report a)).filter (·.code == "syntax") =
      (Grammar.parse text).faults.map fun f =>
        f.report (((Grammar.parse text).faults.find? (·.location == f.location)).bind
          (·.cause.advice?)) := by
  obtain ⟨warnings, hd, hw⟩ := h.diagnostics
  have hnone : ∀ l : List Diagnostic, (∀ d ∈ l, d.isDuplicate = true ∨ d.isError = false) →
      l.filter (fun d => (d.code == "syntax") && (!quiet || d.isError)) = [] := by
    intro l hl
    refine List.filter_eq_nil_iff.2 fun d hdl => ?_
    rw [Diagnostic.code_ne_syntax (hl d hdl)]
    exact Bool.false_ne_true
  have hall : ((Grammar.parse text).faults.map Diagnostic.ofFault).filter
      (fun d => (d.code == "syntax") && (!quiet || d.isError)) =
        (Grammar.parse text).faults.map Diagnostic.ofFault := by
    refine List.filter_eq_self.2 fun d hdl => ?_
    obtain ⟨f, -, rfl⟩ := List.mem_map.1 hdl
    cases quiet <;> rfl
  calc ((Verdict.reported quiet a).map (Verdict.report a)).filter (·.code == "syntax")
      = (a.diagnostics.filter fun d => (d.code == "syntax") && (!quiet || d.isError)).map
          (Verdict.report a) := by
        rw [List.filter_map, Verdict.reported, List.filter_filter]
        rfl
    _ = ((Grammar.parse text).faults.map Diagnostic.ofFault).map (Verdict.report a) := by
        rw [hd, List.filter_append, List.filter_append, hall,
          hnone _ fun d hdt => .inl (SymbolTable.isDuplicate_of_mem d hdt),
          hnone _ fun d hdw => .inr (hw d hdw), List.append_nil, List.append_nil]
    _ = _ := by
        rw [List.map_map, ← h.faults]
        rfl

end Analysis.Judges

namespace Session
variable {s : Session} {id : String} {slot : Slot} {an : Analysis} {gaveUp : Prop}

/-- An analysis of the latest text judges it, whatever has happened before. -/
theorem Reports.judges (h : s.Reports slot an) : an.Judges slot.latest.text := by
  obtain ⟨hlatest, p, rfl, hgenuine⟩ := h
  obtain ⟨r, hr, han⟩ := hgenuine.resolved
  rw [SymbolTable.ofText_eq] at hr han
  rw [← hlatest]
  exact ⟨by rw [han]; rfl, r.diagnostics, by rw [han]; rfl, Resolution.warns_of_attempt hr⟩

/-- What a worker answers if nothing had been published before. -/
theorem Answered.judges {text : String} {result : Except String Analysis}
    (h : s.Answered id gaveUp result) (hs : s.Standing []) (ht : s.text? id = some text) :
    ∃ an, result = .ok an ∧ (an.Judges text ∨ gaveUp ∧ an.diagnostics = []) := by
  have htext : ∀ {n slot}, s.IsOpen n slot → slot.id = id → slot.latest.text = text := by
    rintro n slot ho rfl
    exact Option.some.inj ((hs.sound.coherent.unique.text? ho).symm.trans ht)
  cases h with
  | unknown hnone => exact absurd (mem_documents_of_text? ht) hnone
  | renewed ho hid hr => exact ⟨_, rfl, .inl (htext ho hid ▸ hr.judges)⟩
  | before ho hid hp =>
    obtain ⟨p, hlast, -⟩ := hs.sound.published _ _ _ ho hp
    cases hlast
  | nothing ho hid _ hg => exact ⟨_, rfl, .inr ⟨hg, rfl⟩⟩

end Session

namespace Verdict
variable {missed : List Nat} {ans : List Analysis} {texts : List String}

/-- The analyses judge the texts, but for those that have been missed. -/
def Reviews (missed : List Nat) (texts : List String) (ans : List Analysis) : Prop :=
  List.Forall₂ (fun (x : String × Nat) an =>
    if x.2 ∈ missed then an.diagnostics = [] else an.Judges x.1) texts.zipIdx ans

open scoped Classical in
theorem exists_reviews {P : Nat → Prop} (hlen : ans.length = texts.length)
    (h : ∀ (i : Nat) (ht : i < texts.length) (ha : i < ans.length),
      ans[i].Judges texts[i] ∨ P i ∧ ans[i].diagnostics = []) :
    ∃ missed, (∀ i ∈ missed, P i) ∧ Reviews missed texts ans := by
  refine ⟨(List.range texts.length).filter fun i =>
    ∀ (ht : i < texts.length) (ha : i < ans.length), ¬ ans[i].Judges texts[i], fun i hi => ?_,
    List.forall₂_iff_get.2 ⟨by simp [hlen], fun i ht ha => ?_⟩⟩
  · obtain ⟨hi, hno⟩ := List.mem_filter.1 hi
    have ht := List.mem_range.1 hi
    exact ((h i ht (hlen ▸ ht)).resolve_left (of_decide_eq_true hno ht (hlen ▸ ht))).1
  · have ht : i < texts.length := hlen ▸ ha
    rw [List.get_eq_getElem, List.get_eq_getElem, List.getElem_zipIdx]
    split
    · rename_i hmem
      have hno := of_decide_eq_true (List.mem_filter.1 hmem).2
      simp only [Nat.zero_add] at hno
      exact ((h i ht ha).resolve_left (hno ht ha)).2
    · rename_i hmem
      by_contra hj
      refine hmem (List.mem_filter.2 ⟨?_, decide_eq_true fun _ _ => ?_⟩)
      · simpa using ht
      · simpa using hj

/-- The number of texts with an error of their own, but for those that have been missed. -/
def flawedBut (missed : List Nat) (texts : List String) : Nat :=
  texts.zipIdx.countP fun (text, i) => !missed.contains i && isFlawed text

theorem flawedBut_nil (texts : List String) : flawedBut [] texts = texts.countP isFlawed := by
  conv_rhs => rw [← List.zipIdx_map_fst 0 texts, List.countP_map]
  rfl

theorem Reviews.countP_isFaulty (h : Reviews missed texts ans) (quiet : Bool) :
    ans.countP (isFaulty quiet) = flawedBut missed texts := by
  rw [Reviews] at h
  rw [flawedBut]
  generalize texts.zipIdx = entries at h
  induction h with
  | nil => rfl
  | @cons x an entries ans hx _ ih =>
    rw [List.countP_cons, List.countP_cons, ih]
    congr 2
    split at hx
    · rename_i hmem
      have hquiet : isFaulty quiet an = false := by rw [isFaulty, reported, hx]; rfl
      simp [hmem, hquiet]
    · rename_i hmem
      simp [hmem, hx.isFaulty]

end Verdict

namespace AtlasM
open Session
variable {s : Session} {settings : Settings} {library? : Option Library} {ledger : List Publication}

theorem exists_map_ok {results : List (Except String Analysis)} (h : ∀ r ∈ results, ∃ an, r = .ok an) :
    ∃ ans : List Analysis, results = ans.map .ok := by
  induction results with
  | nil => exact ⟨[], rfl⟩
  | cons r results ih =>
    obtain ⟨an, rfl⟩ := h r (.head _)
    obtain ⟨ans, rfl⟩ := ih fun r hr => h r (.tail _ hr)
    exact ⟨an :: ans, rfl⟩

theorem analyses_eq {turns : List Pool.Turn} {files : List SourceFile} {ans : List Analysis} {s' : Session}
    (h : s.refreshBy turns (files.map SourceFile.id) = some (ans.map .ok, s')) :
    AtlasM.analyses turns files s = some (ans, s') := by
  refine (bind_eq h _).trans ?_
  show (List.mapM (m := AtlasM) _ (ans.map Except.ok)) s' = some (ans, s')
  rw [List.mapM_map, mapM_eq (g := id) fun an _ => rfl, List.map_id]

theorem exists_analyses (h : Reached settings none [] s) (turns : List Pool.Turn) {files : List SourceFile}
    {texts : List String} (hfiles : files.map (fun file => s.text? file.id) = texts.map some) :
    ∃ ans missed s', AtlasM.analyses turns files s = some (ans, s') ∧
      (∀ i ∈ missed, .giveUp i ∈ turns) ∧ Verdict.Reviews missed texts ans := by
  obtain ⟨hs, -, hhost⟩ := h.standing
  obtain ⟨p, ps, results, -, -, heq, -, hlen, hans⟩ :=
    hs.refreshBy_answers hhost turns (files.map SourceFile.id)
  replace hlen : results.length = texts.length := by
    have := congrArg List.length hfiles
    rw [List.length_map, List.length_map] at this
    rw [hlen, List.length_map, this]
  have hjudged : ∀ (i : Nat) text result, texts[i]? = some text → results[i]? = some result →
      ∃ an, result = .ok an ∧ (an.Judges text ∨ .giveUp i ∈ turns ∧ an.diagnostics = []) := by
    intro i text result htext hr
    obtain ⟨file, hfile, ht⟩ : ∃ file, files[i]? = some file ∧ s.text? file.id = some text := by
      rw [← Option.map_eq_some_iff, ← List.getElem?_map, hfiles, List.getElem?_map, htext]
      rfl
    exact (hans i file.id result (by rw [List.getElem?_map, hfile]; rfl) hr).judges hs ht
  obtain ⟨ans, rfl⟩ := exists_map_ok fun result hr => by
    obtain ⟨i, hi, rfl⟩ := List.getElem_of_mem hr
    obtain ⟨an, han, -⟩ := hjudged i texts[i] _ (List.getElem?_eq_getElem (hlen ▸ hi))
      (List.getElem?_eq_getElem hi)
    exact ⟨an, han⟩
  rw [List.length_map] at hlen
  replace hjudged : ∀ (i : Nat) (ht : i < texts.length) (ha : i < ans.length),
      ans[i].Judges texts[i] ∨ .giveUp i ∈ turns ∧ ans[i].diagnostics = [] := by
    intro i ht ha
    obtain ⟨an, han, hj⟩ := hjudged i texts[i] (.ok ans[i]) (List.getElem?_eq_getElem ht)
      (by rw [List.getElem?_map, List.getElem?_eq_getElem ha]; rfl)
    obtain rfl := Except.ok.inj han
    exact hj
  obtain ⟨missed, hmissed, hreviews⟩ := Verdict.exists_reviews hlen hjudged
  exact ⟨ans, missed, p.session, analyses_eq heq, hmissed, hreviews⟩

end AtlasM

/-- No worker gives up. -/
def Schedule.Patient (schedule : Schedule) : Prop := ∀ i, .giveUp i ∉ schedule.turns

namespace Workspace
open Session
variable {read? : Path → Option String} {paths : List Path} {texts : List String}

/-- The texts by which the listed files are judged. Of several with one name, that is the text of the
last one. -/
def judged (read? : Path → Option String) (paths : List Path) : List String :=
  paths.filterMap fun path => (paths.reverse.find? (·.display == path.display)).bind read?

/-- Files of one name have one text. -/
def Legible (read? : Path → Option String) (paths : List Path) : Prop :=
  ∀ p ∈ paths, ∀ q ∈ paths, p.display = q.display → read? p = read? q

theorem map_some_filterMap {α β : Type} {f : α → Option β} {l : List α}
    (h : ∀ x ∈ l, (f x).isSome = true) : (l.filterMap f).map some = l.map f := by
  induction l with
  | nil => rfl
  | cons x l ih =>
    obtain ⟨y, hy⟩ := Option.isSome_iff_exists.1 (h x (.head _))
    rw [List.filterMap_cons_some hy, List.map_cons, List.map_cons, hy,
      ih fun z hz => h z (.tail _ hz)]

theorem isSome_read? (h : paths.map read? = texts.map some) :
    ∀ path ∈ paths, (read? path).isSome = true := by
  intro path hpath
  obtain ⟨text, -, ht⟩ := List.mem_map.1 (h ▸ List.mem_map_of_mem hpath)
  rw [← ht]
  rfl

/-- Names that are texts in UTF-8 are as good as the paths. -/
theorem legible_ofString (names : List String) : Legible read? (names.map .ofString) := by
  intro p hp q hq hpq
  obtain ⟨name, -, rfl⟩ := List.mem_map.1 hp
  obtain ⟨name', -, rfl⟩ := List.mem_map.1 hq
  rw [Path.display_ofString, Path.display_ofString] at hpq
  rw [hpq]

theorem judged_of_legible (h : paths.map read? = texts.map some) (hl : Legible read? paths) :
    judged read? paths = texts := by
  have hread : ∀ path ∈ paths,
      (paths.reverse.find? (·.display == path.display)).bind read? = read? path := by
    intro path hpath
    obtain ⟨q, hq⟩ : ∃ q, paths.reverse.find? (·.display == path.display) = some q := by
      rw [← Option.isSome_iff_exists, List.find?_isSome]
      exact ⟨path, List.mem_reverse.2 hpath, beq_self_eq_true _⟩
    have hname : (q.display == path.display) = true := by simpa using List.find?_some hq
    rw [hq, Option.bind_some]
    exact hl q (List.mem_reverse.1 (List.mem_of_find?_eq_some hq)) path hpath (beq_iff_eq.1 hname)
  refine List.map_injective_iff.2 (Option.some_injective _) ?_
  rw [judged, map_some_filterMap, List.map_congr_left hread, h]
  intro path hpath
  rw [hread path hpath]
  exact isSome_read? h path hpath

theorem exists_readAll (h : paths.map read? = texts.map some) (named : Nat) :
    ∃ files, readAll named read? paths = .ok files ∧ files.map SourceFile.path = paths ∧
      ∀ file ∈ files, read? file.path = some file.text := by
  have hsome := isSome_read? h
  have hnone : paths.filter (fun path => (read? path).isNone) = [] := by
    rw [List.filter_eq_nil_iff]
    intro path hpath
    obtain ⟨text, ht⟩ := Option.isSome_iff_exists.1 (hsome path hpath)
    simp [ht]
  refine ⟨_, by rw [readAll, hnone], ?_, fun file hfile => ?_⟩
  · refine List.map_injective_iff.2 (Option.some_injective _) ?_
    rw [List.map_filterMap, map_some_filterMap fun path hpath => by simpa using hsome path hpath]
    refine List.map_congr_left fun path hpath => ?_
    obtain ⟨text, ht⟩ := Option.isSome_iff_exists.1 (hsome path hpath)
    simp [ht]
  · obtain ⟨path, -, hf⟩ := List.mem_filterMap.1 hfile
    obtain ⟨text, ht, rfl⟩ := Option.map_eq_some_iff.1 hf
    exact ht

/-- The documents of the files have the texts by which these are judged. -/
theorem map_textsOver {files : List SourceFile}
    (h : ∀ file ∈ files, read? file.path = some file.text) :
    files.map (fun file => textsOver (fun _ => none) files file.id) =
      (judged read? (files.map SourceFile.path)).map some := by
  have hread : ∀ id, ((files.map SourceFile.path).reverse.find? (·.display == id)).bind read? =
      textsOver (fun _ => none) files id := by
    intro id
    rw [textsOver_eq, ← List.map_reverse, List.find?_map]
    show ((files.reverse.find? (·.id == id)).map SourceFile.path).bind read? = _
    cases hfound : files.reverse.find? (·.id == id) with
    | none => rfl
    | some file => exact h file (List.mem_reverse.1 (List.mem_of_find?_eq_some hfound))
  rw [judged, map_some_filterMap, List.map_map]
  · exact List.map_congr_left fun file _ => (hread file.id).symm
  · intro path hpath
    obtain ⟨file, hfile, rfl⟩ := List.mem_map.1 hpath
    rw [hread, textsOver_eq, Option.isSome_map, List.find?_isSome]
    exact ⟨file, List.mem_reverse.2 hfile, beq_self_eq_true _⟩

/-- A check of files that can be read comes to an end, and is made from an analysis of each, but for
those that a worker has given up. -/
theorem exists_check (h : paths.map read? = texts.map some) (schedule : Schedule) (quiet : Bool) :
    ∃ ans missed, (∀ i ∈ missed, .giveUp i ∈ schedule.turns) ∧
      Verdict.Reviews missed (judged read? paths) ans ∧
      Command.run schedule read? (.check paths quiet) = some (Verdict.ofAnalyses quiet ans) := by
  obtain ⟨files, hread, rfl, hfiles⟩ := exists_readAll h schedule.named
  have hstart : Reached {} none [] (start {} none) := .start
  obtain ⟨s, hregister, hr, htext⟩ := exists_registered hstart files
  have hregistered : files.map (fun file => s.text? file.id) =
      (judged read? (files.map SourceFile.path)).map some := by
    rw [htext]
    exact map_textsOver hfiles
  obtain ⟨ans, missed, s', hanalyses, hmissed, hans⟩ :=
    AtlasM.exists_analyses hr schedule.turns hregistered
  have hcommand : Verdict.command schedule.turns quiet files s = some (Verdict.ofAnalyses quiet ans, s') :=
    AtlasM.bind_eq hanalyses _
  refine ⟨ans, missed, hmissed, hans, ?_⟩
  simp only [Command.run, runOn, hread, run_eq hregister hcommand]

end Workspace

namespace Verdict
variable {ans : List Analysis} {texts : List String} {missed : List Nat}

/-- What a number of files with errors comes to. -/
def failureOf (faulty : Nat) : Option Failure := if faulty = 0 then none else some (.faulty faulty)

theorem failure?_ofAnalyses (h : Reviews missed texts ans) (quiet : Bool) :
    (ofAnalyses quiet ans).failure? = failureOf (flawedBut missed texts) := by
  rw [← h.countP_isFaulty quiet]
  rfl

end Verdict

/-! ## What a check comes to -/

namespace Workspace
variable {read? : Path → Option String} {paths : List Path} {texts : List String}

/-- A grammar that declares a rule twice. -/
def redeclaring : String := "grammar A;\nimport B;\na : b ;\na : 'a' ;\n"

/-- A grammar without an error, though one of its names is unknown. -/
def flawless : String := "grammar B;\nimport A;\nb : a c ;\n"

theorem failure?_check_judged (h : paths.map read? = texts.map some) (faulty : Nat)
    (hfaulty : (judged read? paths).countP Verdict.isFlawed = faulty) :
    ∃ out, Command.run {} read? (.check paths false) = some out ∧
      out.failure? = Verdict.failureOf faulty := by
  obtain ⟨ans, missed, hmissed, hans, hrun⟩ := exists_check h {} false
  obtain rfl : missed = [] := List.eq_nil_iff_forall_not_mem.2 fun i hi => nomatch hmissed i hi
  refine ⟨_, hrun, ?_⟩
  rw [Verdict.failure?_ofAnalyses hans, Verdict.flawedBut_nil, hfaulty]

/-- Two files whose paths are no texts in UTF-8. -/
def nameless? (path : Path) : Option String :=
  if path = ⟨[0xFE]⟩ then some redeclaring else if path = ⟨[0xFF]⟩ then some flawless else none

/-- The two files have one name, and the later one replaces the other. -/
theorem check_counts_last_of_name :
    ∃ out out', Command.run {} nameless? (.check [⟨[0xFE]⟩, ⟨[0xFF]⟩] false) = some out ∧
      out.failure? = none ∧
      Command.run {} nameless? (.check [⟨[0xFF]⟩, ⟨[0xFE]⟩] false) = some out' ∧
      out'.failure? = some (.faulty 2) := by
  have hlast : [Path.mk [0xFE], ⟨[0xFF]⟩].map nameless? = [redeclaring, flawless].map some := by decide
  have hfirst : [Path.mk [0xFF], ⟨[0xFE]⟩].map nameless? = [flawless, redeclaring].map some := by decide
  obtain ⟨out, hrun, hout⟩ := failure?_check_judged hlast 0 (by decide +kernel)
  obtain ⟨out', hrun', hout'⟩ := failure?_check_judged hfirst 2 (by decide +kernel)
  exact ⟨out, out', hrun, hout, hrun', hout'⟩

def importing : SourceFile where
  path := .ofString "a.g4"
  text := "grammar A;\nimport B;\na : b ;\n"

/-- A grammar that declares a rule twice. -/
def imported : SourceFile where
  path := .ofString "b.g4"
  text := "grammar B;\nb : 'b' ;\nb : 'c' ;\n"

/-- While the first worker analyses the second file for the sake of its own, the other worker gives
up. -/
def impatient : List Pool.Turn :=
  List.replicate 6 (.go 0) ++ [.go 1, .go 1, .giveUp 1] ++ List.replicate 13 (.go 0)

/-- The error in the second file is not counted. -/
theorem check_misses_given_up :
    ∃ out, Command.run { turns := impatient }
        (fun path => ([importing, imported].find? (·.path = path)).map SourceFile.text)
        (.check [importing.path, imported.path] false) = some out ∧
      out.failure? = none ∧ Verdict.isFlawed imported.text = true := by
  have hend : ∃ x, x ∈ (Session.start {} none).perform 60 (.update importing.id importing.text) ∧
      ∃ y, y ∈ x.2.perform 60 (.update imported.id imported.text) ∧
        ((Pool.start y.2 [importing.id, imported.id]).play impatient).goOn.isNone = true ∧
        ∃ results, results ∈ ((Pool.start y.2 [importing.id, imported.id]).play impatient).answers ∧
          results.all (fun result => result.toOption.any fun a => !Verdict.isFaulty false a) = true := by
    decide +kernel
  obtain ⟨⟨r, s₁⟩, hx, ⟨r', s₂⟩, hy, hstop, results, hresults, hall⟩ := hend
  rw [List.all_eq_true] at hall
  obtain ⟨ans, rfl⟩ : ∃ ans : List Analysis, results = ans.map .ok := by
    refine AtlasM.exists_map_ok fun result hr => ?_
    cases result with
    | ok an => exact ⟨an, rfl⟩
    | error => cases hall _ hr
  have hnone : ans.countP (Verdict.isFaulty false) = 0 := by
    rw [List.countP_eq_zero]
    intro an han
    simpa [Except.toOption] using hall _ (List.mem_map_of_mem han)
  have hregister : register [importing, imported] (Session.start {} none) = some (⟨⟩, s₂) :=
    register_cons (AtlasM.perform_eq hx) (register_cons (AtlasM.perform_eq hy) rfl)
  obtain ⟨s₃, hrefresh⟩ : ∃ s₃, s₂.refreshBy impatient ([importing, imported].map SourceFile.id) =
      some (ans.map .ok, s₃) :=
    ⟨_, Session.refreshBy_eq (Option.isNone_iff_eq_none.1 hstop) hresults⟩
  have hcommand : Verdict.command impatient false [importing, imported] s₂ =
      some (Verdict.ofAnalyses false ans, s₃) :=
    AtlasM.bind_eq (AtlasM.analyses_eq hrefresh) _
  have hread : readAll 0 (fun path => ([importing, imported].find? (·.path = path)).map SourceFile.text)
      [importing.path, imported.path] = .ok [importing, imported] := by
    decide +kernel
  have hflawed : Verdict.isFlawed imported.text = true := by decide +kernel
  refine ⟨Verdict.ofAnalyses false ans, ?_, ?_, hflawed⟩
  · simp only [Command.run, runOn, hread, run_eq hregister hcommand]
  · rw [Verdict.ofAnalyses, hnone]
    rfl

/-! ## What a check advises -/

/-- The reports are those of the faults, in their order. Each has the advice of the first fault at its
place. -/
structure Advises (faults : List Fault) (reports : List Report) : Prop where
  length : reports.length = faults.length
  help : ∀ (k : Nat) f, faults[k]? = some f → ∃ j g,
    IsLeast {i : Nat | faults[i]?.map Fault.location = some f.location} j ∧ faults[j]? = some g ∧
      reports[k]? = some (f.report g.cause.advice?)

theorem advises_map (faults : List Fault) :
    Advises faults (faults.map fun f =>
      f.report ((faults.find? (·.location == f.location)).bind (·.cause.advice?))) := by
  refine ⟨List.length_map _, fun k f hk => ?_⟩
  obtain ⟨g, hg⟩ : ∃ g, faults.find? (·.location == f.location) = some g := by
    rw [← Option.isSome_iff_exists, List.find?_isSome]
    exact ⟨f, List.mem_of_getElem? hk, beq_self_eq_true _⟩
  obtain ⟨hplace, j, hj, rfl, hfirst⟩ := List.find?_eq_some_iff_getElem.1 hg
  refine ⟨j, faults[j], ⟨?_, fun i hi => ?_⟩, List.getElem?_eq_getElem hj, ?_⟩
  · show faults[j]?.map Fault.location = some f.location
    rw [List.getElem?_eq_getElem hj, Option.map_some, beq_iff_eq.1 hplace]
  · obtain ⟨e, he, hef⟩ := Option.map_eq_some_iff.1 hi
    obtain ⟨hlt, rfl⟩ := List.getElem?_eq_some_iff.1 he
    by_contra hij
    have := hfirst i (by omega)
    simp [hef] at this
  · rw [List.getElem?_map, hk, Option.map_some, hg, Option.bind_some]

theorem check_advises_first (h : paths.map read? = texts.map some) (schedule : Schedule)
    (quiet : Bool) :
    ∃ out blocks, ∃ missed : List Nat, Command.run schedule read? (.check paths quiet) = some out ∧
      out.reports = List.flatten blocks ∧ (∀ i ∈ missed, .giveUp i ∈ schedule.turns) ∧
      List.Forall₂ (fun (x : String × Nat) block => if x.2 ∈ missed then block = [] else
        Advises (Grammar.parse x.1).faults (block.filter (·.code == "syntax")))
        (judged read? paths).zipIdx blocks ∧
      (Legible read? paths → schedule.Patient →
        List.Forall₂ (fun text block => Advises (Grammar.parse text).faults
          (block.filter (·.code == "syntax"))) texts blocks) := by
  obtain ⟨ans, missed, hmissed, hans, hrun⟩ := exists_check h schedule quiet
  have hblocks : List.Forall₂ (fun (x : String × Nat) block => if x.2 ∈ missed then block = [] else
      Advises (Grammar.parse x.1).faults (block.filter (·.code == "syntax")))
      (judged read? paths).zipIdx
      (ans.map fun a => (Verdict.reported quiet a).map (Verdict.report a)) := by
    refine List.forall₂_map_right_iff.2 (hans.imp fun x a hjudges => ?_)
    split at hjudges <;> rename_i hmem <;> simp only [hmem, if_true, if_false]
    · rw [Verdict.reported, hjudges]
      rfl
    · rw [Analysis.Judges.reports hjudges]
      exact advises_map _
  refine ⟨_, _, missed, hrun, List.flatMap_def .., hmissed, hblocks, fun hl hp => ?_⟩
  obtain rfl : missed = [] := List.eq_nil_iff_forall_not_mem.2 fun i hi => hp i (hmissed i hi)
  rw [judged_of_legible h hl] at hblocks
  rw [← List.zipIdx_map_fst 0 texts]
  refine List.forall₂_map_left_iff.2 (hblocks.imp fun x block hx => ?_)
  rwa [if_neg List.not_mem_nil] at hx

/-- The text is a word that is no grammar header, and no rule either. -/
theorem check_advises_first_semicolon :
    ∃ read? out blocks, [Path.ofString "a.g4"].map read? = [";"].map some ∧
      Command.run {} read? (.check [.ofString "a.g4"] true) = some out ∧
      out.reports = List.flatten blocks ∧
      blocks.map (fun block => (block.filter (·.code == "syntax")).length) = [2] := by
  have hread : [Path.ofString "a.g4"].map (fun _ => some ";") = [";"].map some := rfl
  obtain ⟨out, blocks, missed, hrun, hreports, -, -, hblocks⟩ := check_advises_first hread {} true
  refine ⟨_, out, blocks, hread, hrun, hreports, ?_⟩
  obtain _ | ⟨hblock, ⟨⟩⟩ := hblocks (legible_ofString ["a.g4"]) (by simp [Schedule.Patient])
  rw [List.map_singleton, hblock.length]
  decide +kernel

/-- Both faults of the text are at the semicolon. The second one has no advice, and is reported with
that of the first. -/
theorem check_advises_of_other :
    ∃ out, Command.run {} (fun _ => some ";") (.check [.ofString "a.g4"] false) = some out ∧
      (Grammar.parse ";").faults.map (·.cause.advice?) =
        [Fault.Cause.missingHeader.advice?, none] ∧
      (out.reports.filter (·.code == "syntax")).map Report.help? =
        [Fault.Cause.missingHeader.advice?, Fault.Cause.missingHeader.advice?] := by
  have hread : [Path.ofString "a.g4"].map (fun _ => some ";") = [";"].map some := rfl
  obtain ⟨ans, missed, hmissed, hans, hrun⟩ := exists_check hread {} false
  obtain rfl : missed = [] := List.eq_nil_iff_forall_not_mem.2 fun i hi => nomatch hmissed i hi
  refine ⟨_, hrun, by decide +kernel, ?_⟩
  rw [judged_of_legible hread (legible_ofString ["a.g4"])] at hans
  obtain _ | @⟨_, a, _, _, hjudges, ⟨⟩⟩ := hans
  have hjudges : a.Judges ";" := hjudges
  have hreports := hjudges.reports false
  rw [Verdict.ofAnalyses, List.flatMap_singleton, hreports]
  decide +kernel

end Workspace

end GrammarAtlas
