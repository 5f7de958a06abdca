import Workflow.Proofs.Marks

namespace Workflow

namespace Session

/-- Executions are never dropped, and identifiers never given back. -/
structure Grows (s s' : Session) : Prop where
  drawn : s.log.drawn ≤ s'.log.drawn
  executions : s.run.executions.length ≤ s'.run.executions.length

theorem Grows.refl (s : Session) : s.Grows s :=
  ⟨Nat.le_refl _, Nat.le_refl _⟩

theorem Grows.trans {s s' s'' : Session} (h : s.Grows s') (h' : s'.Grows s'') : s.Grows s'' :=
  ⟨Nat.le_trans h.drawn h'.drawn, Nat.le_trans h.executions h'.executions⟩

theorem Stays.grows {s s' : Session} (h : s.Stays s') : s.Grows s' := by
  refine ⟨h.drawn, Nat.le_of_eq ?_⟩
  simpa [Run.marks] using (congrArg List.length h.marks).symm

theorem grows_modify (s : Session) (id : String) (change : Execution → Execution) :
    s.Grows { s with run := s.run.modify id change } :=
  ⟨Nat.le_refl _, Nat.le_of_eq (Sequence.length_modifyFirst _ _ _).symm⟩

theorem grows_fail (s : Session) (id reason : String) (now : Instant) :
    s.Grows (s.fail id reason now).1 := by
  unfold fail
  split
  · exact .refl s
  · split
    · exact ⟨Nat.le_refl _, (s.grows_modify id _).executions⟩
    · exact .refl s

end Session

/-- The execution that takes a submission: one that is shared and under way, with the assignment
still open. -/
def Run.takes? (r : Run) (execution assignment : String) : Option Execution :=
  (r.find? execution).filter fun x =>
    x.isShared && x.status.isCompletable
      && (x.findAssignment? assignment).any fun a => a.status == .pending

theorem Run.takes?_eq_some_iff {r : Run} {execution assignment : String} {x : Execution} :
    r.takes? execution assignment = some x ↔
      r.find? execution = some x ∧ x.isShared = true ∧ x.status.isCompletable = true ∧
        ∃ a, x.findAssignment? assignment = some a ∧ a.status = .pending := by
  simp [takes?, Option.filter_eq_some_iff, Option.any_eq_true, and_assoc]

namespace Session

/-- An execution is in another state from now on, which counts as activity of the run. -/
def update (s : Session) (execution : String) (x : Execution) (now : Instant) : Session :=
  { s with run := { s.run.modify execution fun _ => x with lastActivityAt := some now } }

/-- An execution is over with a result that was submitted. -/
def take (s : Session) (x : Execution) (result : Record) (now : Instant) : Session :=
  ({ s with run := { (s.finish x.id result now).run with lastActivityAt := some now } }).note
    (.completed x.id x.stepId (x.finish result now).status now)

theorem find?_finish {s : Session} {x : Execution} (hx : s.run.find? x.id = some x)
    (result : Record) (now : Instant) :
    (s.finish x.id result now).run.find? x.id = some (x.finish result now) := by
  rw [finish, Run.find?_modify fun y hy => (y.id_finish result now).trans hy, hx, Option.map_some,
    if_pos rfl]

/-- A run of a flow gets its times. -/
def dated (s : Session) (flow : Flow) (now : Instant) : Session :=
  { s with run := { s.run with
    flowId := flow.id
    startedAt := some now
    lastActivityAt := some now
    dueAt := flow.due.bind fun d => d.ofRun now } }

/-- Takes the forks of a plan, and the identifier of the one that it opens. -/
def settle (s : Session) (p : Planned) : Session :=
  { s.draw (if p.opened then 1 else 0) with run := { s.run with forks := p.forks } }

theorem grows_settle (s : Session) (p : Planned) : s.Grows (s.settle p) :=
  ⟨Nat.le_add_right _ _, Nat.le_refl _⟩

end Session

namespace Engine

variable (e : Engine) (flow : Flow) (now : Instant) (s : Session)

def follows (stepId : String) (result : Record) (fork : Option String) : Planned :=
  flow.outline.after e.policy s.run (e.nextId s "pg") stepId result fork

theorem grows_materialize (step : Step) : s.Grows (e.materialize flow s step).1 := by
  rcases e.materialize_cases flow s step with ⟨i, x, h, _⟩ | ⟨_, h⟩
  · rw [h]
    exact .refl s
  · obtain ⟨x, _, hrun⟩ := e.run_expect flow s step
    rw [h]
    exact ⟨Nat.le_of_lt (e.drawn_expect flow s step), by simp [hrun]⟩

theorem grows_activate (step : Step) (fork : Option String) :
    s.Grows (e.activate flow now s step fork).1 := by
  have hgrows := e.grows_materialize flow s step
  unfold activate
  split
  rename_i s' i h
  rw [h] at hgrows
  split
  · exact hgrows
  · split
    · exact ⟨hgrows.drawn, by simpa using hgrows.executions⟩
    · exact ⟨hgrows.drawn, by simpa [Session.note] using hgrows.executions⟩

variable {e flow now} in
theorem pass_zero {m : Motion} {x : Execution} {step : Step} {fork : Option String}
    (h : m.budget = 0) : e.pass flow now m x step fork = m := by
  unfold pass
  rw [h]

variable {e flow now} in
theorem pass_succ {m : Motion} {x : Execution} {step : Step} {fork : Option String} {budget : Nat}
    (h : m.budget = budget + 1) :
    e.pass flow now m x step fork =
      { m with
        session := (m.session.finish x.id [] now).settle
          (e.follows flow (m.session.finish x.id [] now) step.id [] fork)
        budget := budget
        pending := m.pending ++
          [(e.follows flow (m.session.finish x.id [] now) step.id [] fork).plan] } := by
  unfold pass
  rw [h]
  rfl

theorem grows_pass (m : Motion) (x : Execution) (step : Step) (fork : Option String) :
    m.session.Grows (e.pass flow now m x step fork).session := by
  cases h : m.budget with
  | zero =>
    rw [pass_zero h]
    exact .refl m.session
  | succ budget =>
    rw [pass_succ h]
    exact (m.session.grows_modify x.id _).trans (Session.grows_settle _ _)

variable {e flow now} in
theorem follow_of {m : Motion} {a : Activation} {place : Place} {x : Execution}
    (hf : flow.find? a.step = some place)
    (hx : (e.activate flow now m.session place.step a.fork).2 = some x) :
    e.follow flow now m a =
      if place.step.body.isPassThrough then
        e.pass flow now { m with session := (e.activate flow now m.session place.step a.fork).1 } x
          place.step a.fork
      else
        { m with
          session := (e.activate flow now m.session place.step a.fork).1
          advance := m.advance.activate x place.step } := by
  unfold follow
  simp only [hf]
  split
  · simp_all
  · rename_i s y h
    obtain rfl : x = y := by simpa [h] using hx.symm
    rw [h]

variable {e flow now} in
theorem grows_activate_follow {m : Motion} {a : Activation} {place : Place}
    (hf : flow.find? a.step = some place) :
    (e.activate flow now m.session place.step a.fork).1.Grows (e.follow flow now m a).session := by
  obtain ⟨x, hx, _⟩ := e.activate_starts flow now m.session place.step a.fork
  rw [follow_of hf hx]
  split
  · exact e.grows_pass flow now { m with session := _ } x place.step a.fork
  · exact .refl _

theorem grows_follow (m : Motion) (a : Activation) :
    m.session.Grows (e.follow flow now m a).session := by
  cases hf : flow.find? a.step with
  | none =>
    unfold follow
    simp only [hf]
    exact .refl m.session
  | some place =>
    exact (e.grows_activate flow now m.session place.step a.fork).trans (grows_activate_follow hf)

theorem grows_followAll (as : List Activation) (m : Motion) :
    m.session.Grows (e.followAll flow now m as).session := by
  induction as generalizing m with
  | nil => exact .refl m.session
  | cons a rest ih => exact (e.grows_follow flow now m a).trans (ih _)

variable {e flow now} in
theorem drive_nil {m : Motion} (h : m.pending = []) : e.drive flow now m = m := by
  rw [drive]
  split
  · rfl
  · simp_all

variable {e flow now} in
theorem drive_cons {m : Motion} {plan : Plan} {rest : List Plan} (h : m.pending = plan :: rest) :
    e.drive flow now m =
      match plan.ending? with
      | some status => ({ m with pending := rest }.mark plan).endRun status now
      | none => e.drive flow now
          (e.followAll flow now ({ m with pending := rest }.mark plan) plan.activations) := by
  rw [drive]
  split
  · simp_all
  · rename_i plan' rest' h'
    obtain ⟨rfl, rfl⟩ : plan = plan' ∧ rest = rest' := by simpa [h] using h'
    rfl

theorem grows_drive (m : Motion) : m.session.Grows (e.drive flow now m).session := by
  induction m using drive.induct e flow now with
  | case1 m h =>
    rw [drive_nil h]
    exact .refl m.session
  | case2 m plan rest h status hend =>
    rw [drive_cons h, hend]
    exact ⟨Nat.le_refl _, Nat.le_refl _⟩
  | case3 m plan rest h marked hend ih =>
    rw [drive_cons h, hend]
    have hmark : m.session.Grows marked.session := ⟨Nat.le_refl _, Nat.le_refl _⟩
    exact (hmark.trans (e.grows_followAll flow now plan.activations marked)).trans ih

/-- What a submission comes to by its review, if it is reviewed. -/
def judge (flags : Flags) (x : Execution) (result : Record) : Session × Verdict :=
  match flow.find? x.stepId with
  | some place => if flags.skipReview then (s, .approved) else e.review s place.step result
  | none => (s, .approved)

theorem run_judge (flags : Flags) (x : Execution) (result : Record) :
    (e.judge flow s flags x result).1.run = s.run := by
  unfold judge
  split
  · split
    · rfl
    · exact e.run_review s _ result
  · rfl

theorem stays_judge (flags : Flags) (x : Execution) (result : Record) :
    s.Stays (e.judge flow s flags x result).1 := by
  unfold judge
  split
  · split
    · exact .refl s
    · exact e.stays_review s _ result
  · exact .refl s

/-- The session in which a submission is accepted, and the execution that it completes. -/
def admits? (flags : Flags) (execution : String) (result : Record) :
    Option (Session × Execution) :=
  match s.run.find? execution with
  | none => none
  | some x =>
    if !x.status.isCompletable || !s.run.isActive then none
    else
      match (e.judge flow s flags x result).2 with
      | .approved => some ((e.judge flow s flags x result).1, x)
      | .revise _ _ => none

variable {e flow now s} in
theorem complete_of {flags : Flags} {execution : String} {x : Execution} (result : Record)
    (hx : s.run.find? execution = some x) :
    e.complete flow now flags s execution result =
      if !x.status.isCompletable || !s.run.isActive then (s, {})
      else
        match (e.judge flow s flags x result).2 with
        | .approved => e.accept flow now flags (e.judge flow s flags x result).1 x result
        | .revise feedback issues =>
          ((e.judge flow s flags x result).1,
            { revisionNeeded := true, feedback := feedback, issues := issues }) := by
  unfold complete
  simp only [hx]
  rfl

/-- A submission is accepted after its review, or nothing counts as changed. -/
theorem complete_cases (flags : Flags) (execution : String) (result : Record) :
    e.admits? flow s flags execution result = none ∧
        (e.complete flow now flags s execution result).1.run = s.run ∧
        s.Stays (e.complete flow now flags s execution result).1 ∨
      ∃ x t, e.admits? flow s flags execution result = some (t, x) ∧
        s.run.find? execution = some x ∧ x.status.isCompletable = true ∧
          s.run.isActive = true ∧
        s.Stays t ∧ t.run = s.run ∧
        e.complete flow now flags s execution result = e.accept flow now flags t x result := by
  unfold admits?
  cases hx : s.run.find? execution with
  | none =>
    have hsame : e.complete flow now flags s execution result = (s, {}) := by
      unfold complete
      simp only [hx]
    exact .inl ⟨rfl, by rw [hsame], hsame ▸ .refl s⟩
  | some x =>
    dsimp only
    rw [complete_of result hx]
    by_cases hclosed : (!x.status.isCompletable || !s.run.isActive) = true
    · rw [if_pos hclosed, if_pos hclosed]
      exact .inl ⟨rfl, rfl, .refl s⟩
    · rw [if_neg hclosed, if_neg hclosed]
      have hrun := e.run_judge flow s flags x result
      have hstays := e.stays_judge flow s flags x result
      simp only [Bool.or_eq_true, Bool.not_eq_true', not_or, Bool.not_eq_false] at hclosed
      cases (e.judge flow s flags x result).2 with
      | approved =>
        exact .inr ⟨x, _, rfl, rfl, hclosed.1, hclosed.2, hstays, hrun, rfl⟩
      | revise feedback issues => exact .inl ⟨rfl, hrun, hstays⟩

def setOut (plan : Plan) (advance : Advance) : Motion :=
  { session := s, advance := advance, budget := e.policy.chainLimit.toNat, pending := [plan] }

/-- All the way that a plan moves a run, with its end. -/
def travel (plan : Plan) (advance : Advance) : Motion :=
  let m := e.drive flow now (e.setOut s plan advance)
  if m.exhausted && m.session.run.isActive then m.endRun .completed now else m

theorem grows_travel (plan : Plan) (advance : Advance) :
    (e.drive flow now (e.setOut s plan advance)).session.Grows
      (e.travel flow now s plan advance).session := by
  unfold travel
  dsimp only
  split
  · exact ⟨Nat.le_refl _, Nat.le_refl _⟩
  · exact .refl _

theorem propagate_fst (flags : Flags) (plan : Plan) (advance : Advance) :
    (e.propagate flow now flags s plan advance).1 =
      if (e.travel flow now s plan advance).session.run.isActive && !flags.skipAutomation then
        e.automate flow (e.travel flow now s plan advance).session
          (e.travel flow now s plan advance).advance.activated
      else (e.travel flow now s plan advance).session := by
  unfold propagate
  exact apply_ite Prod.fst _ _ _

theorem run_propagate (flags : Flags) (plan : Plan) (advance : Advance) :
    (e.propagate flow now flags s plan advance).1.run =
      (e.travel flow now s plan advance).session.run := by
  rw [propagate_fst]
  split
  · exact (e.run_automate flow _ _).1
  · rfl

theorem stays_propagate (flags : Flags) (plan : Plan) (advance : Advance) :
    (e.travel flow now s plan advance).session.Stays
      (e.propagate flow now flags s plan advance).1 := by
  rw [propagate_fst]
  split
  · exact e.stays_automate flow _ _
  · exact .refl _

theorem grows_propagate (flags : Flags) (plan : Plan) (advance : Advance) :
    s.Grows (e.propagate flow now flags s plan advance).1 := by
  have hdrive := e.grows_drive flow now (e.setOut s plan advance)
  exact (hdrive.trans (e.grows_travel flow now s plan advance)).trans
    (e.stays_propagate flow now s flags plan advance).grows

/-- Sees to it that steps have a pending execution each. -/
def expectAll (steps : List Step) : Session :=
  steps.foldl (fun s step => (e.materialize flow s step).1) s

/-- A run that starts at some time and expects all steps of the main path. -/
def ready : Session :=
  e.expectAll flow (s.dated flow now) flow.steps

theorem grows_expectAll (steps : List Step) : s.Grows (e.expectAll flow s steps) := by
  induction steps generalizing s with
  | nil => exact .refl s
  | cons step rest ih => exact (e.grows_materialize flow s step).trans (ih _)

theorem keeps_expectAll (steps : List Step) : s.Keeps (e.expectAll flow s steps) := by
  induction steps generalizing s with
  | nil => exact .refl s
  | cons step rest ih => exact (e.keeps_materialize flow s step).trans (ih _)

theorem grows_ready : s.Grows (e.ready flow now s) := by
  have hdated : s.Grows (s.dated flow now) := ⟨Nat.le_refl _, Nat.le_refl _⟩
  exact hdated.trans (e.grows_expectAll flow _ flow.steps)

theorem keeps_ready : s.Keeps (e.ready flow now s) := by
  have hdated : s.Keeps (s.dated flow now) := ⟨rfl, rfl, Nat.le_refl _⟩
  exact hdated.trans (e.keeps_expectAll flow _ flow.steps)

variable {e flow now s} in
theorem start_fresh {flags : Flags} (ha : s.run.isActive = true) (hx : s.run.executions = []) :
    e.start flow now flags s =
      match flow.steps with
      | [] =>
        ((e.ready flow now s).endRun .completed now, { completed := true, flowCompleted := true })
      | first :: _ =>
        e.propagate flow now flags (e.ready flow now s) { activations := [⟨first.id, none⟩] }
          { completed := true } := by
  unfold start
  rw [if_neg (by simp [ha, hx])]
  rfl

variable {e flow now s} in
theorem start_again {flags : Flags} (h : s.run.isActive = true → s.run.executions ≠ []) :
    e.start flow now flags s = (s, {}) := by
  unfold start
  refine if_pos ?_
  cases ha : s.run.isActive with
  | false => rfl
  | true => simp [h ha]

theorem grows_start (flags : Flags) : s.Grows (e.start flow now flags s).1 := by
  by_cases h : s.run.isActive = true → s.run.executions ≠ []
  · rw [start_again h]
    exact .refl s
  · obtain ⟨ha, hx⟩ := Classical.not_imp.mp h
    rw [start_fresh ha (not_not.mp hx)]
    split
    · exact (e.grows_ready flow now s).trans ⟨Nat.le_refl _, Nat.le_refl _⟩
    · exact (e.grows_ready flow now s).trans (e.grows_propagate flow now _ flags _ _)

variable {e flow now s} in
theorem accept_of {flags : Flags} {x : Execution} {result : Record} {place : Place}
    (h : flow.find? x.stepId = some place) :
    e.accept flow now flags s x result =
      e.propagate flow now flags
        ((s.take x result now).settle
          (e.follows flow (s.take x result now) x.stepId result x.fork))
        (e.follows flow (s.take x result now) x.stepId result x.fork).plan
        { completed := true } := by
  unfold accept
  simp only [h]
  rfl

theorem grows_accept (flags : Flags) (x : Execution) (result : Record) :
    s.Grows (e.accept flow now flags s x result).1 := by
  have htake : s.Grows (s.take x result now) :=
    ⟨Nat.le_refl _, (s.grows_modify x.id fun x => x.finish result now).executions⟩
  cases h : flow.find? x.stepId with
  | none =>
    unfold accept
    simp only [h]
    exact htake
  | some place =>
    rw [accept_of h]
    exact (htake.trans (Session.grows_settle _ _)).trans (e.grows_propagate flow now _ flags _ _)

theorem grows_complete (flags : Flags) (execution : String) (result : Record) :
    s.Grows (e.complete flow now flags s execution result).1 := by
  rcases e.complete_cases flow now s flags execution result with 
    ⟨_, _, h⟩ | ⟨x, t, _, _, _, _, ht, _, h⟩
  · exact h.grows
  · rw [h]
    exact ht.grows.trans (e.grows_accept flow now t flags x result)

theorem stays_conclude (flags : Flags) (x : Execution) (assignment : String) (result : Record) :
    (e.complete flow now flags s x.id (x.sharedResult result)).1.Stays
      (e.conclude flow now flags s x assignment result).1 := by
  unfold conclude
  dsimp only
  split
  · exact Session.stays_modify fun _ => rfl
  · split
    · exact Session.stays_modify fun _ => rfl
    · exact .refl _

/-- The session in which a submission meets the quorum of a shared step, and what completes the step
then. -/
def meets? (execution assignment : String) (result : Record) :
    Option (Session × String × Record) :=
  match s.run.find? execution with
  | none => none
  | some x =>
    if !x.isShared || !x.status.isCompletable then none
    else
      match x.findAssignment? assignment with
      | none => none
      | some a =>
        if a.status ≠ .pending then none
        else
          let x := x.submit assignment result now
          let run := s.run.modify execution fun _ => x
          let s := { s with run := { run with lastActivityAt := some now } }
          if x.isQuorate then some (s, x.id, x.sharedResult result) else none

section Submission

variable {e flow now s}
variable {execution assignment : String} {result : Record} {flags : Flags} {x : Execution}

/-- A submission that no execution takes changes nothing. -/
theorem submit_refused (h : s.run.takes? execution assignment = none) :
    meets? now s execution assignment result = none ∧
      (e.submit flow now flags s execution assignment result).1 = s ∧
      (e.submit flow now flags s execution assignment result).2.advanced = false := by
  unfold submit meets?
  cases hx : s.run.find? execution with
  | none => exact ⟨rfl, rfl, rfl⟩
  | some x =>
    dsimp only
    by_cases hclosed : (!x.isShared || !x.status.isCompletable) = true
    · rw [if_pos hclosed, if_pos hclosed]
      exact ⟨rfl, rfl, rfl⟩
    · rw [if_neg hclosed, if_neg hclosed]
      cases ha : x.findAssignment? assignment with
      | none => exact ⟨rfl, rfl, rfl⟩
      | some a =>
        have hdone : a.status ≠ .pending := by
          intro hp
          simp only [Bool.or_eq_true, Bool.not_eq_true', not_or, Bool.not_eq_false] at hclosed
          have htakes := Run.takes?_eq_some_iff.mpr ⟨hx, hclosed.1, hclosed.2, a, ha, hp⟩
          exact Option.some_ne_none x (htakes.symm.trans h)
        dsimp only
        rw [if_pos hdone, if_pos hdone]
        exact ⟨rfl, rfl, rfl⟩

/-- A submission is kept, and then the step is completed or waits for others. -/
theorem submit_taken (h : s.run.takes? execution assignment = some x) :
    e.submit flow now flags s execution assignment result =
      if (x.submit assignment result now).isQuorate then
        e.conclude flow now flags (s.update execution (x.submit assignment result now) now)
          (x.submit assignment result now) assignment result
      else
        ({ s.update execution (x.submit assignment result now) now with
            run := (s.update execution (x.submit assignment result now) now).run.modify execution
              Execution.await },
          { completed := (x.submit assignment result now).submissions
            total := (x.submit assignment result now).assignments.length }) := by
  obtain ⟨hx, hshared, hopen, a, ha, hp⟩ := Run.takes?_eq_some_iff.mp h
  unfold submit
  simp only [hx, hshared, hopen, ha, hp, Bool.not_true, Bool.or_self, Bool.false_eq_true, if_false,
    ne_eq, not_true_eq_false]
  rfl

theorem meets?_taken (h : s.run.takes? execution assignment = some x) :
    meets? now s execution assignment result =
      if (x.submit assignment result now).isQuorate then
        some (s.update execution (x.submit assignment result now) now, x.id,
          (x.submit assignment result now).sharedResult result)
      else none := by
  obtain ⟨hx, hshared, hopen, a, ha, hp⟩ := Run.takes?_eq_some_iff.mp h
  unfold meets?
  simp only [hx, hshared, hopen, ha, hp, Bool.not_true, Bool.or_self, Bool.false_eq_true, if_false,
    ne_eq, not_true_eq_false]
  rfl

/-- A submission that is kept changes no mark. -/
theorem stays_update (h : s.run.takes? execution assignment = some x) :
    s.Stays (s.update execution (x.submit assignment result now) now) := by
  obtain ⟨rfl, pre, post, hmarks, hpre⟩ := Run.marks_of_find? (Run.takes?_eq_some_iff.mp h).1
  refine ⟨⟨rfl, rfl, Nat.le_refl _⟩, ?_⟩
  rw [hmarks]
  exact Run.marks_modify hmarks hpre fun _ _ => rfl

end Submission

/-- A submission to a shared step completes the step or does not; all else that it does changes no
mark. -/
theorem submit_cases (flags : Flags) (execution assignment : String) (result : Record) :
    meets? now s execution assignment result = none ∧
        s.Stays (e.submit flow now flags s execution assignment result).1 ∨
      ∃ t id last, meets? now s execution assignment result = some (t, id, last) ∧ s.Stays t ∧
        (e.complete flow now flags t id last).1.Stays
          (e.submit flow now flags s execution assignment result).1 := by
  cases htakes : s.run.takes? execution assignment with
  | none =>
    obtain ⟨hnone, hsame, _⟩ := submit_refused htakes
    exact .inl ⟨hnone, hsame.symm ▸ .refl s⟩
  | some x =>
    have hstays : s.Stays (s.update execution (x.submit assignment result now) now) :=
      stays_update htakes
    rw [submit_taken htakes, meets?_taken htakes]
    by_cases hquorate : (x.submit assignment result now).isQuorate = true
    · rw [if_pos hquorate, if_pos hquorate]
      exact .inr ⟨_, _, _, rfl, hstays, e.stays_conclude flow now _ flags
        (x.submit assignment result now) assignment result⟩
    · rw [if_neg hquorate, if_neg hquorate]
      exact .inl ⟨rfl, hstays.trans (Session.stays_modify Execution.mark_await)⟩

theorem grows_submit (flags : Flags) (execution assignment : String) (result : Record) :
    s.Grows (e.submit flow now flags s execution assignment result).1 := by
  rcases e.submit_cases flow now s flags execution assignment result with
    ⟨_, h⟩ | ⟨t, id, last, _, ht, h⟩
  · exact h.grows
  · exact (ht.grows.trans (e.grows_complete flow now t flags id last)).trans h.grows

theorem grows_play (m : Move) : s.Grows (e.play flow now s m).1 := by
  cases m with
  | start flags => exact e.grows_start flow now s flags
  | complete execution result flags => exact e.grows_complete flow now s flags execution result
  | submit execution assignment result flags =>
    exact e.grows_submit flow now s flags execution assignment result
  | fail execution reason => exact s.grows_fail execution reason now
  | escalate execution => exact (s.stays_escalate execution now).grows

/-- What a move of a run that has started comes to accept: the session at that point, the execution
that is complete, and its result. -/
def accepts? : Move → Option (Session × Execution × Record)
  | .complete execution result flags =>
    (e.admits? flow s flags execution result).map fun (t, x) => (t, x, result)
  | .submit execution assignment result flags =>
    (meets? now s execution assignment result).bind fun (t, id, last) =>
      (e.admits? flow t flags id last).map fun (t, x) => (t, x, last)
  | .start _ | .fail _ _ | .escalate _ => none

/-- All that a move can do if it does not start the run: nothing that counts, a failure, or a step
that is accepted. -/
theorem play_cases (m : Move)
    (hs : ∀ flags, m = .start flags → s.run.isActive = true → s.run.executions ≠ []) :
    e.accepts? flow now s m = none ∧ s.Stays (e.play flow now s m).1 ∨
      (∃ execution reason, m = .fail execution reason) ∧ s.Keeps (e.play flow now s m).1 ∧
        (∃ k, s.Closes (e.play flow now s m).1 k .failed) ∨
      ∃ t flags x result, e.accepts? flow now s m = some (t, x, result) ∧ s.Stays t ∧
        t.run.find? x.id = some x ∧ x.status.isCompletable = true ∧ t.run.isActive = true ∧
        (e.accept flow now flags t x result).1.Stays (e.play flow now s m).1 := by
  have hcomplete : ∀ (t s' : Session) (flags : Flags) (id : String) (result : Record),
      s.Stays t → (e.complete flow now flags t id result).1.Stays s' →
      e.admits? flow t flags id result = none ∧ s.Stays s' ∨
        ∃ u x, e.admits? flow t flags id result = some (u, x) ∧ s.Stays u ∧
          u.run.find? x.id = some x ∧ x.status.isCompletable = true ∧ u.run.isActive = true ∧
          (e.accept flow now flags u x result).1.Stays s' := by
    intro t s' flags id result ht h
    rcases e.complete_cases flow now t flags id result with
      ⟨hnone, _, hc⟩ | ⟨x, u, hsome, hx, hopen, ha, hu, hrun, hc⟩
    · exact .inl ⟨hnone, (ht.trans hc).trans h⟩
    · obtain ⟨rfl, _⟩ := Run.marks_of_find? hx
      exact .inr ⟨u, x, hsome, ht.trans hu, hrun ▸ hx, hopen, hrun ▸ ha, hc ▸ h⟩
  cases m with
  | start flags =>
    have h : (e.play flow now s (.start flags)).1 = s :=
      congrArg Prod.fst (start_again (hs flags rfl))
    exact .inl ⟨rfl, h.symm ▸ .refl s⟩
  | complete execution result flags =>
    rcases hcomplete s _ flags execution result (.refl s) (.refl _) with
      ⟨hnone, h⟩ | ⟨u, x, hsome, h⟩
    · exact .inl ⟨by simp only [accepts?, hnone, Option.map_none], h⟩
    · exact .inr
        (.inr ⟨u, flags, x, result, by simp only [accepts?, hsome, Option.map_some], h⟩)
  | submit execution assignment result flags =>
    rcases e.submit_cases flow now s flags execution assignment result with
      ⟨hno, h⟩ | ⟨t, id, last, hmeets, ht, h⟩
    · exact .inl ⟨by simp only [accepts?, hno, Option.bind_none], h⟩
    · rcases hcomplete t _ flags id last ht h with ⟨hnone, h⟩ | ⟨u, x, hsome, h⟩
      · exact .inl
          ⟨by simp only [accepts?, hmeets, Option.bind_some, hnone, Option.map_none], h⟩
      · exact .inr (.inr ⟨u, flags, x, last,
          by simp only [accepts?, hmeets, Option.bind_some, hsome, Option.map_some], h⟩)
  | fail execution reason =>
    rcases s.fail_cases execution reason now with h | h
    · have h : (e.play flow now s (.fail execution reason)).1 = s := h
      exact .inl ⟨rfl, h.symm ▸ .refl s⟩
    · exact .inr (.inl ⟨⟨execution, reason, rfl⟩, h⟩)
  | escalate execution => exact .inl ⟨rfl, s.stays_escalate execution now⟩

end Engine

end Workflow
