import GrammarAtlas.Proofs.Moments

/-! # What is asked makes no difference

A query is answered from an analysis, and how that analysis comes about does not depend on what is
asked: with another question from outside the machine makes the same steps until the answer is due
(`Session.beside_step`). So in one state all questions about a document are answered from the same
analysis, and leave the same state behind: `Session.perform_query`.

That analysis has been published, or stands in for one that is not there: `Session.step_analyses`. -/

namespace GrammarAtlas

/-- What is asked from outside and not answered yet. -/
def Continuation.question? : {outcome : Outcome} → Continuation outcome → Option Query
  | _, .stop => none
  | _, .answer q .stop | _, .consult _ _ q .stop => some q
  | _, .answer _ (.script _ _ _ next) | _, .consult _ _ _ (.script _ _ _ next)
  | _, .script _ _ _ next | _, .notify _ next | _, .reply _ next | _, .refreshRest _ _ next
  | _, .deliver _ next | _, .takeTable _ _ _ next | _, .takeAnswer _ _ _ next => next.question?

/-- The same with another question from outside. -/
def Continuation.withQuestion (q : Query) :
    {outcome : Outcome} → Continuation outcome → Continuation outcome
  | _, .stop => .stop
  | _, .answer _ .stop => .answer q .stop
  | _, .consult id text _ .stop => .consult id text q .stop
  | _, .answer query (.script actor operation rest next) =>
    .answer query (.script actor operation rest (next.withQuestion q))
  | _, .consult id text query (.script actor operation rest next) =>
    .consult id text query (.script actor operation rest (next.withQuestion q))
  | _, .script actor operation rest next => .script actor operation rest (next.withQuestion q)
  | _, .notify handles next => .notify handles (next.withQuestion q)
  | _, .reply r next => .reply r (next.withQuestion q)
  | _, .refreshRest ready ids next => .refreshRest ready ids (next.withQuestion q)
  | _, .deliver a next => .deliver a (next.withQuestion q)
  | _, .takeTable run grammar source next => .takeTable run grammar source (next.withQuestion q)
  | _, .takeAnswer run grammar table? next => .takeAnswer run grammar table? (next.withQuestion q)

namespace Control

def question? : Control → Option Query
  | .perform _ next | .refresh _ _ next | .cycle _ _ _ next | .resolve _ next
  | .refreshAll _ _ next | .notify _ next | .script _ _ next | .finished next | .analysed _ next
  | .replied _ next => next.question?

def withQuestion (q : Query) : Control → Control
  | .perform operation next => .perform operation (next.withQuestion q)
  | .refresh n requester? next => .refresh n requester? (next.withQuestion q)
  | .cycle n requester? changed next => .cycle n requester? changed (next.withQuestion q)
  | .resolve run next => .resolve run (next.withQuestion q)
  | .refreshAll ready ids next => .refreshAll ready ids (next.withQuestion q)
  | .notify handles next => .notify handles (next.withQuestion q)
  | .script actor operations next => .script actor operations (next.withQuestion q)
  | .finished next => .finished (next.withQuestion q)
  | .analysed a next => .analysed a (next.withQuestion q)
  | .replied r next => .replied r (next.withQuestion q)

theorem question?_notifyIf (s : Session) (reason : Bool) (next : Continuation .nothing) :
    (notifyIf s reason next).question? = next.question? := by
  rw [notifyIf]
  split <;> rfl

theorem withQuestion_notifyIf (s : Session) (reason : Bool) (next : Continuation .nothing)
    (q : Query) :
    (notifyIf s reason next).withQuestion q = notifyIf s reason (next.withQuestion q) := by
  rw [notifyIf, notifyIf]
  split <;> rfl

end Control

namespace Session
variable {s s' : Session} {q q' : Query} {c : Control} {steps : Nat} {an : Analysis}

/-- The moment `y` is as `x`, where `q` is asked from outside, but there `q'` is asked. -/
structure Beside (q q' : Query) (x y : Moment) : Prop where
  asked : x.2.question? = some q
  eq : y = (x.1, x.2.withQuestion q')

theorem beside_notifyIf (s : Session) (reason : Bool) {k : Continuation .nothing}
    (h : k.question? = some q) (q' : Query) :
    Beside q q' (s, .notifyIf s reason k) (s, .notifyIf s reason (k.withQuestion q')) :=
  ⟨(Control.question?_notifyIf _ _ _).trans h, by rw [Control.withQuestion_notifyIf]⟩

theorem beside_begin {next : Continuation .reply} (h : next.question? = some q)
    (operation : Operation) :
    Beside q q' (s.begin next operation) (s.begin (next.withQuestion q') operation) := by
  cases next with
  | stop => cases h
  | script actor asked rest next =>
    cases operation with
    | update id text =>
      rw [begin_update, begin_update]
      split
      · exact beside_notifyIf _ _ (k := .reply (.flag true) (.script actor asked rest next)) h q'
      · exact ⟨h, rfl⟩
    | close id =>
      rw [begin, begin]
      split
      · exact ⟨h, rfl⟩
      · exact beside_notifyIf _ _ (k := .reply .done (.script actor asked rest next)) h q'
    | query id text? query =>
      cases text? with
      | none =>
        rw [begin, begin]
        split <;> exact ⟨h, rfl⟩
      | some text =>
        rw [begin_query, begin_query]
        split
        · exact beside_notifyIf _ _ (k := .consult id text query (.script actor asked rest next)) h q'
        · exact ⟨h, rfl⟩
    | reset | refresh | freshness | documents | subscribe | unsubscribe | settings | summary =>
      exact ⟨h, rfl⟩

/-- One step, unless the answer is due. -/
theorem beside_step (h : c.question? = some q) : (∃ a, c = .analysed a (.answer q .stop)) ∨
    ∀ q', Beside q q' (s.step c) (s.step (c.withQuestion q')) := by
  cases c with
  | perform operation next => exact .inr fun q' => beside_begin h operation
  | refresh n requester? next =>
    refine .inr fun q' => ?_
    simp only [Control.withQuestion, step, refreshSlot]
    split
    · exact ⟨h, rfl⟩
    · split <;> exact ⟨h, rfl⟩
  | cycle n requester? changed next =>
    refine .inr fun q' => ?_
    simp only [Control.withQuestion, step, cycleSlot, releaseSlot]
    split
    · exact ⟨h, rfl⟩
    · split
      · split <;> exact ⟨h, rfl⟩
      · exact ⟨h, rfl⟩
  | resolve run next =>
    refine .inr fun q' => ?_
    simp only [Control.withQuestion, step, resolveRun, askFor, publish]
    split
    · exact ⟨h, rfl⟩
    · split
      · split
        · exact ⟨h, rfl⟩
        · split <;> exact ⟨h, rfl⟩
      · split <;> exact ⟨h, rfl⟩
  | refreshAll ready ids next =>
    refine .inr fun q' => ?_
    cases ids with
    | nil => exact ⟨h, rfl⟩
    | cons id ids =>
      simp only [Control.withQuestion, step]
      split <;> exact ⟨h, rfl⟩
  | notify handles next => cases handles <;> exact .inr fun q' => ⟨h, rfl⟩
  | script actor script next => cases script <;> exact .inr fun q' => ⟨h, rfl⟩
  | finished next =>
    refine .inr fun q' => ?_
    cases next with
    | consult id text query next =>
      cases next <;> simp only [Control.withQuestion, Continuation.withQuestion, step, resume] <;>
        split <;> exact ⟨h, rfl⟩
    | notify | reply | deliver | takeAnswer => exact ⟨h, rfl⟩
  | analysed a next =>
    cases next with
    | answer query next =>
      cases next with
      | stop =>
        cases h
        exact .inl ⟨a, rfl⟩
      | script => exact .inr fun q' => ⟨h, rfl⟩
    | refreshRest | takeTable => exact .inr fun q' => ⟨h, rfl⟩
  | replied r next =>
    cases next with
    | stop => cases h
    | script => exact .inr fun q' => ⟨h, rfl⟩

theorem runFor_withQuestion {r : Reply} (h : c.question? = some q)
    (hrun : runFor steps s c = some (r, s')) :
    ∃ an, r = q.answer an ∧ Goes (s, c) (s', .analysed an (.answer q .stop)) ∧
      ∀ q', runFor steps s (c.withQuestion q') = some (q'.answer an, s') := by
  induction steps generalizing s c with
  | zero =>
    match c, hrun with
    | .replied r .stop, _ => cases h
  | succ steps ih =>
    rw [runFor_succ] at hrun
    rcases beside_step (s := s) h with ⟨a, rfl⟩ | hbeside
    · obtain ⟨rfl, rfl⟩ : q.answer a = r ∧ s = s' := by
        rw [step, resumeAnalysed, runFor_stop] at hrun
        exact Prod.mk.inj (Option.some.inj hrun)
      exact ⟨a, rfl, .refl, fun q' => by rw [runFor_succ]; exact runFor_stop steps s _⟩
    · obtain ⟨an, hr, hgoes, hothers⟩ := ih (hbeside q).asked hrun
      refine ⟨an, hr, .head (.step s c) hgoes, fun q' => ?_⟩
      rw [runFor_succ, (hbeside q').eq]
      exact hothers q'

theorem begin_question (s : Session) (id : String) (text? : Option String) (q : Query) :
    s.begin .stop (.query id text? q) = (s, .replied (.unknownDocument id) .stop) ∨
      ∀ q', Beside q q' (s.begin .stop (.query id text? q)) (s.begin .stop (.query id text? q')) := by
  cases text? with
  | none =>
    rw [begin]
    cases hn : s.slotOf? id with
    | none => exact .inl rfl
    | some n =>
      refine .inr fun q' => ⟨rfl, ?_⟩
      rw [begin, hn]
      rfl
  | some text =>
    refine .inr fun q' => ?_
    rw [begin_query, begin_query]
    split
    · exact beside_notifyIf _ _ (k := .consult id text q .stop) rfl q'
    · exact ⟨rfl, rfl⟩

/-- Where the analysis of a document is got, every question about it is answered from that. -/
theorem perform_query {id : String} {text? : Option String}
    (h : s.perform steps (.query id text? .analysis) = some (.analysis an, s')) :
    Goes (s, .perform (.query id text? .analysis) .stop) (s', .analysed an (.answer .analysis .stop)) ∧
      ∀ q, s.perform steps (.query id text? q) = some (q.answer an, s') := by
  cases steps with
  | zero => cases h
  | succ steps =>
    rw [perform, runFor_succ, step] at h
    rcases s.begin_question id text? .analysis with hunknown | hbeside
    · rw [hunknown, runFor_stop] at h
      cases h
    · obtain ⟨an', heq, hgoes, hothers⟩ := runFor_withQuestion (hbeside .analysis).asked h
      obtain rfl : an = an' := Reply.analysis.inj heq
      refine ⟨.head (.step s _) hgoes, fun q => ?_⟩
      rw [perform, runFor_succ, step, (hbeside q).eq]
      exact hothers q

end Session

/-! ## The analyses that are handed over -/

/-- The analyses that are kept for later. -/
def Continuation.analyses : {outcome : Outcome} → Continuation outcome → List Analysis
  | _, .stop => []
  | _, .deliver a next => a :: next.analyses
  | _, .script _ _ _ next | _, .notify _ next | _, .reply _ next | _, .consult _ _ _ next
  | _, .answer _ next | _, .refreshRest _ _ next | _, .takeTable _ _ _ next
  | _, .takeAnswer _ _ _ next => next.analyses

namespace Control

/-- The analyses that are handed over, now or later. -/
def analyses : Control → List Analysis
  | .analysed a next => a :: next.analyses
  | .perform _ next | .refresh _ _ next | .cycle _ _ _ next | .resolve _ next
  | .refreshAll _ _ next | .notify _ next | .script _ _ next | .finished next
  | .replied _ next => next.analyses

theorem analyses_notifyIf (s : Session) (reason : Bool) (next : Continuation .nothing) :
    (notifyIf s reason next).analyses = next.analyses := by
  rw [notifyIf]
  split <;> rfl

end Control

namespace Session
variable {s : Session} {c : Control} {P : Analysis → Prop} {x : Moment} {settings : Settings}
  {host? : Option Host}

theorem analyses_begin (s : Session) (next : Continuation .reply) (operation : Operation) :
    (s.begin next operation).2.analyses = next.analyses := by
  cases operation with
  | update id text =>
    rw [begin_update]
    split
    · exact Control.analyses_notifyIf _ _ _
    · rfl
  | close id =>
    rw [begin]
    split
    · rfl
    · exact Control.analyses_notifyIf _ _ _
  | query id text? query =>
    cases text? with
    | none =>
      rw [begin]
      split <;> rfl
    | some text =>
      rw [begin_query]
      split
      · exact Control.analyses_notifyIf _ _ _
      · rfl
  | reset | refresh | freshness | documents | subscribe | unsubscribe | settings | summary => rfl

/-- What is handed over is what a slot has, or empty. -/
theorem step_analyses (hslots : ∀ slot ∈ s.slots, P slot.current)
    (hempty : ∀ snapshot epoch, P (.empty snapshot epoch)) (h : ∀ a ∈ c.analyses, P a) :
    ∀ a ∈ (s.step c).2.analyses, P a := by
  cases c with
  | perform operation next =>
    rw [step, analyses_begin]
    exact h
  | refresh n requester? next =>
    rw [step, refreshSlot]
    split
    · exact List.forall_mem_cons.2 ⟨hempty _ _, h⟩
    · rename_i slot hn
      split
      · exact List.forall_mem_cons.2 ⟨hslots slot (List.mem_of_getElem? hn), h⟩
      · exact h
  | cycle n requester? changed next =>
    rw [step, cycleSlot]
    split
    · exact List.forall_mem_cons.2 ⟨hempty _ _, h⟩
    · rename_i slot hn
      split
      · rw [releaseSlot]
        split <;> exact List.forall_mem_cons.2 ⟨hslots slot (List.mem_of_getElem? hn), h⟩
      · exact h
  | resolve run next =>
    simp only [step, resolveRun, askFor, publish]
    split
    · exact List.forall_mem_cons.2 ⟨hempty _ _, h⟩
    · split
      · split
        · exact h
        · split <;> exact h
      · split <;> exact h
  | refreshAll ready ids next =>
    cases ids with
    | nil => exact h
    | cons id ids =>
      rw [step]
      split <;> exact h
  | notify handles next => cases handles <;> exact h
  | script actor script next => cases script <;> exact h
  | finished next =>
    cases next with
    | consult id text query next =>
      rw [step, resume]
      split
      · exact h
      · exact List.forall_mem_cons.2 ⟨hempty _ _, h⟩
    | notify | reply | deliver | takeAnswer => exact h
  | analysed a next => cases next <;> exact (List.forall_mem_cons.1 h).2
  | replied r next => cases next <;> exact h

/-- Every analysis that is handed over has been published, or is empty. -/
theorem Live.analyses (h : Live settings host? x)
    (hslots : ∀ y, Live settings host? y → ∀ slot ∈ y.1.slots, P slot.current)
    (hempty : ∀ snapshot epoch, P (.empty snapshot epoch)) : ∀ a ∈ x.2.analyses, P a := by
  induction h with
  | refl => nofun
  | @tail y z hy hmove ih =>
    cases hmove with
    | step s c => exact step_analyses (hslots _ hy) hempty ih
    | script | answer | ask => exact ih

end Session

end GrammarAtlas
