import Mathlib.Logic.Relation
import Workflow.Proofs.Ended

namespace Workflow

/-- How far a step has come. -/
def StepStatus.stage : StepStatus → Nat
  | .pending => 0
  | .inProgress => 1
  | .waitingForAssignee => 2
  | .completed | .failed => 3

theorem StepStatus.stage_lt_three {status : StepStatus} (h : status.isCompletable = true) :
    status.stage < 3 := by
  cases status <;> simp [isCompletable] at h <;> decide

namespace Execution

/-- What becomes of an execution: its step can only come further, and what is over stays as it
is. -/
structure Ages (x y : Execution) : Prop where
  id : y.id = x.id
  step : y.stepId = x.stepId
  status : y.status = x.status ∨ x.status.stage < y.status.stage
  settled : x.status.isTerminal = true → y = x

/-- What still becomes of an execution when its run has ended: it does not start, and is not
completed. -/
structure Idles (x y : Execution) : Prop where
  started : y.startedAt = x.startedAt
  pending : x.status = .pending → y = x
  completed : y.status = .completed → x.status = .completed

variable {x y z : Execution}

theorem Ages.refl (x : Execution) : x.Ages x :=
  ⟨rfl, rfl, .inl rfl, fun _ => rfl⟩

theorem Ages.trans (h : x.Ages y) (h' : y.Ages z) : x.Ages z := by
  refine ⟨h'.id.trans h.id, h'.step.trans h.step, ?_, fun hx => ?_⟩
  · rcases h.status with hxy | hxy
    · exact hxy ▸ h'.status
    · rcases h'.status with hyz | hyz
      · exact .inr (hyz ▸ hxy)
      · exact .inr (Nat.lt_trans hxy hyz)
  · obtain rfl := h.settled hx
    exact h'.settled hx

theorem Idles.refl (x : Execution) : x.Idles x :=
  ⟨rfl, fun _ => rfl, fun h => h⟩

theorem Idles.trans (h : x.Idles y) (h' : y.Idles z) : x.Idles z := by
  refine ⟨h'.started.trans h.started, fun hx => ?_, fun hz => h.completed (h'.completed hz)⟩
  obtain rfl := h.pending hx
  exact h'.pending hx

theorem not_isTerminal (h : x.status.isCompletable = true) : x.status.isTerminal = false := by
  cases hs : x.status <;> simp [hs, StepStatus.isCompletable] at h <;> rfl

/-- An execution under way that changes ages as long as it does not go back. -/
theorem ages_of_isCompletable (h : x.status.isCompletable = true) (hid : y.id = x.id)
    (hstep : y.stepId = x.stepId)
    (hstatus : y.status = x.status ∨ x.status.stage < y.status.stage) : x.Ages y :=
  ⟨hid, hstep, hstatus, fun hx => absurd hx (by simp [not_isTerminal h])⟩

theorem idles_of_isCompletable (h : x.status.isCompletable = true)
    (hstarted : y.startedAt = x.startedAt) (hstatus : y.status ≠ .completed) : x.Idles y := by
  refine ⟨hstarted, fun hx => ?_, fun hy => absurd hy hstatus⟩
  rw [hx] at h
  cases h

theorem ages_start {fork : Option String} (h : x.status = .pending)
    (hy : y.mark = ⟨x.id, x.stepId, fork, .underWay⟩) : x.Ages y := by
  refine ⟨congrArg Mark.id hy, congrArg Mark.step hy, .inr ?_, fun hx => ?_⟩
  · have hstanding : y.status.standing = .underWay := congrArg Mark.standing hy
    rw [h]
    cases hs : y.status <;> simp [hs, StepStatus.standing] at hstanding <;> decide
  · rw [h] at hx
    cases hx

theorem ages_fail (h : x.status.isCompletable = true) (reason : String) (now : Instant) :
    x.Ages (x.fail reason now) :=
  ages_of_isCompletable h rfl rfl (.inr (StepStatus.stage_lt_three h))

theorem ages_await (h : x.status.isCompletable = true) : x.Ages x.await := by
  rw [await_of h]
  refine ages_of_isCompletable h rfl rfl ?_
  cases hs : x.status <;> simp [hs, StepStatus.isCompletable] at h <;> simp [StepStatus.stage]

end Execution

namespace Run

/-- Every execution of a run is still at its place, and has become what `R` says. -/
def Carries (R : Execution → Execution → Prop) (r r' : Run) : Prop :=
  ∀ (i : Nat) (x : Execution), r.executions[i]? = some x →
    ∃ y, r'.executions[i]? = some y ∧ R x y

/-- Nothing starts in a run that has ended, and nothing is completed in it. -/
structure Rests (r r' : Run) : Prop where
  status : r'.status = r.status
  completedAt : r'.completedAt = r.completedAt
  terminateStatus : r'.terminateStatus = r.terminateStatus
  currentStepIndex : r'.currentStepIndex = r.currentStepIndex
  forks : r'.forks = r.forks
  length : r'.executions.length = r.executions.length
  executions : r.Carries Execution.Idles r'

/-- A run that goes on: its executions age, and once it has ended it rests. -/
structure Continues (r r' : Run) : Prop where
  executions : r.Carries Execution.Ages r'
  ended : r.status ≠ .active → r.Rests r'

variable {R : Execution → Execution → Prop} {r r' r'' : Run} {id : String}
  {change : Execution → Execution}

theorem Carries.of_eq (hR : ∀ x, R x x) (h : r'.executions = r.executions) : r.Carries R r' :=
  fun _ x hx => ⟨x, h ▸ hx, hR x⟩

theorem Carries.trans (hR : ∀ {x y z}, R x y → R y z → R x z) (h : r.Carries R r')
    (h' : r'.Carries R r'') : r.Carries R r'' := by
  intro i x hx
  obtain ⟨y, hy, hxy⟩ := h i x hx
  obtain ⟨z, hz, hyz⟩ := h' i y hy
  exact ⟨z, hz, hR hxy hyz⟩

theorem Carries.modify (h : r.Carries R r')
    (hc : ∀ x ∈ r.executions, ∀ y, R x y → r'.find? id = some y → R x (change y)) :
    r.Carries R (r'.modify id change) := by
  intro i x hx
  obtain ⟨y, hy, hxy⟩ := h i x hx
  rcases Sequence.getElem?_modifyFirst hy change with hsame | ⟨hfind, hchanged⟩
  · exact ⟨y, hsame, hxy⟩
  · exact ⟨change y, hchanged, hc x (List.mem_of_getElem? hx) y hxy hfind⟩

/-- Only the execution that is found changes. -/
theorem carries_modify (hR : ∀ x, R x x) {x : Execution} (hx : r.find? id = some x)
    (h : R x (change x)) : r.Carries R (r.modify id change) := by
  intro i y hy
  rcases Sequence.getElem?_modifyFirst hy change with hsame | ⟨hfind, hchanged⟩
  · exact ⟨y, hsame, hR y⟩
  · obtain rfl : x = y := Option.some.inj (hx.symm.trans hfind)
    exact ⟨change x, hchanged, h⟩

theorem carries_set (hR : ∀ x, R x x) {i : Nat} {x y : Execution} (hx : r.executions[i]? = some x)
    (hset : r'.executions = r.executions.set i y) (h : R x y) : r.Carries R r' := by
  intro j z hz
  rw [hset]
  by_cases hij : i = j
  · subst hij
    obtain rfl : x = z := Option.some.inj (hx.symm.trans hz)
    exact ⟨y, List.getElem?_set_self (List.getElem?_eq_some_iff.mp hx).1, h⟩
  · exact ⟨z, by rw [List.getElem?_set_ne hij, hz], hR z⟩

theorem Rests.refl (r : Run) : r.Rests r :=
  ⟨rfl, rfl, rfl, rfl, rfl, rfl, .of_eq .refl rfl⟩

theorem Rests.trans (h : r.Rests r') (h' : r'.Rests r'') : r.Rests r'' :=
  ⟨h'.status.trans h.status, h'.completedAt.trans h.completedAt,
    h'.terminateStatus.trans h.terminateStatus, h'.currentStepIndex.trans h.currentStepIndex,
    h'.forks.trans h.forks, h'.length.trans h.length, h.executions.trans .trans h'.executions⟩

/-- When a run has ended, an execution under way can change without being completed. -/
theorem rests_modify {x : Execution} {activity : Option Instant} (hx : r.find? id = some x)
    (hopen : x.status.isCompletable = true) (hstarted : (change x).startedAt = x.startedAt)
    (hstatus : (change x).status ≠ .completed) :
    r.Rests { r.modify id change with lastActivityAt := activity } :=
  ⟨rfl, rfl, rfl, rfl, rfl, Sequence.length_modifyFirst _ _ _,
    carries_modify .refl hx (Execution.idles_of_isCompletable hopen hstarted hstatus)⟩

end Run

namespace Run

def executionIds (r : Run) : List String :=
  r.executions.map Execution.id

/-- What a run comes to. Its executions keep their identifiers, and if these differ in the end, they
age. -/
structure Proceeds (r r' : Run) : Prop where
  ids : r.executionIds <+: r'.executionIds
  ages : r'.executionIds.Nodup → r.Carries Execution.Ages r'

variable {r r' r'' : Run} {change : Execution → Execution}

theorem Carries.ids (h : r.Carries Execution.Ages r') : r.executionIds <+: r'.executionIds := by
  rw [List.prefix_iff_getElem?]
  intro i hi
  have hlt : i < r.executions.length := by simpa [executionIds] using hi
  obtain ⟨y, hy, hages⟩ := h i r.executions[i] (List.getElem?_eq_getElem hlt)
  simp [executionIds, hy, hages.id]

theorem Carries.proceeds (h : r.Carries Execution.Ages r') : r.Proceeds r' :=
  ⟨h.ids, fun _ => h⟩

theorem Proceeds.of_eq (h : r'.executions = r.executions) : r.Proceeds r' :=
  (Carries.of_eq .refl h).proceeds

theorem Proceeds.refl (r : Run) : r.Proceeds r :=
  .of_eq rfl

theorem Proceeds.trans (h : r.Proceeds r') (h' : r'.Proceeds r'') : r.Proceeds r'' := by
  refine ⟨h.ids.trans h'.ids, fun differ => ?_⟩
  exact (h.ages (h'.ids.sublist.nodup differ)).trans .trans (h'.ages differ)

theorem eq_of_id (differ : r.executionIds.Nodup) {x y : Execution} (hx : x ∈ r.executions)
    (hy : y ∈ r.executions) (hid : x.id = y.id) : x = y :=
  List.inj_on_of_nodup_map differ hx hy hid

theorem executionIds_modify (hid : ∀ x, (change x).id = x.id) (id : String) :
    (r.modify id change).executionIds = r.executionIds := by
  unfold executionIds modify
  dsimp only
  induction r.executions with
  | nil => rfl
  | cons x rest ih =>
    rw [Sequence.modifyFirst]
    split
    · simp [hid]
    · simp [ih]

/-- What was open at first may change, even if it is over by then. -/
theorem Proceeds.modify {x : Execution} (h : r.Proceeds r') (hx : x ∈ r.executions)
    (hopen : x.status.isCompletable = true)
    (hc : ∀ y, (change y).id = y.id ∧ (change y).stepId = y.stepId ∧
      ((change y).status = y.status ∨ x.status.stage < (change y).status.stage)) :
    r.Proceeds (r'.modify x.id change) := by
  have hsame := r'.executionIds_modify (fun y => (hc y).1) x.id
  refine ⟨hsame ▸ h.ids, fun differ => ?_⟩
  rw [hsame] at differ
  refine (h.ages differ).modify ?_
  intro z hz y hzy hy
  have hyid : y.id = x.id := by simpa using List.find?_some hy
  obtain rfl : z = x :=
    eq_of_id (h.ids.sublist.nodup differ) hz hx (hzy.id.symm.trans hyid)
  obtain ⟨hid, hstep, hstatus⟩ := hc y
  refine Execution.ages_of_isCompletable hopen (hid.trans hzy.id) (hstep.trans hzy.step) ?_
  rcases hstatus with hstatus | hlater
  · exact hstatus ▸ hzy.status
  · exact .inr hlater

end Run

namespace Session

variable {s : Session}

/-- An execution that is finished goes forward. -/
theorem proceeds_finish {x : Execution} (hx : x ∈ s.run.executions)
    (hopen : x.status.isCompletable = true) (result : Record) (now : Instant) :
    s.run.Proceeds (s.finish x.id result now).run := by
  refine (Run.Proceeds.refl s.run).modify hx hopen fun y => ?_
  unfold Execution.finish
  split
  · exact ⟨rfl, rfl, .inl rfl⟩
  · rename_i status hmove
    have hstatus : status = .completed := by
      unfold StepStatus.move? at hmove
      split at hmove
      · exact (Option.some.inj hmove).symm
      · cases hmove
    rw [hstatus]
    exact ⟨rfl, rfl, .inr (StepStatus.stage_lt_three hopen)⟩

theorem carries_update {x y : Execution} (hx : s.run.find? x.id = some x) (hages : x.Ages y)
    (now : Instant) : s.run.Carries Execution.Ages (s.update x.id y now).run := by
  have hcarries : s.run.Carries Execution.Ages (s.run.modify x.id fun _ => y) :=
    Run.carries_modify .refl hx hages
  exact hcarries

theorem carries_fail (s : Session) (id reason : String) (now : Instant) :
    s.run.Carries Execution.Ages (s.fail id reason now).1.run := by
  cases hx : s.run.find? id with
  | none =>
    rw [fail_none hx]
    exact .of_eq .refl rfl
  | some x =>
    rw [fail_of hx]
    split
    · rename_i hopen
      exact Run.carries_modify .refl hx (Execution.ages_fail hopen reason now)
    · exact .of_eq .refl rfl

theorem carries_escalate (s : Session) (id : String) (now : Instant) :
    s.run.Carries Execution.Ages (s.escalate id now).1.run := by
  unfold escalate
  split
  · exact .of_eq .refl rfl
  · rename_i x hx
    split
    · rename_i hopen
      simp only [Bool.and_eq_true] at hopen
      exact Run.carries_modify .refl hx
        (Execution.ages_of_isCompletable hopen.1 rfl rfl (.inl rfl))
    · exact .of_eq .refl rfl

/-- A failure completes nothing, and an escalation neither. -/
theorem rests_fail (s : Session) (id reason : String) (now : Instant) :
    s.run.Rests (s.fail id reason now).1.run := by
  cases hx : s.run.find? id with
  | none =>
    rw [fail_none hx]
    exact .refl _
  | some x =>
    rw [fail_of hx]
    split
    · rename_i hopen
      exact Run.rests_modify hx hopen rfl StepStatus.noConfusion
    · exact .refl _

theorem rests_escalate (s : Session) (id : String) (now : Instant) :
    s.run.Rests (s.escalate id now).1.run := by
  unfold escalate
  split
  · exact .refl _
  · rename_i x hx
    split
    · rename_i hopen
      simp only [Bool.and_eq_true] at hopen
      exact Run.rests_modify hx hopen.1 rfl (Execution.status_ne_completed hopen.1)
    · exact .refl _

end Session

namespace Engine

variable (e : Engine) (flow : Flow) (now : Instant) (s : Session)

theorem carries_materialize (step : Step) :
    s.run.Carries Execution.Ages (e.materialize flow s step).1.run := by
  rcases e.materialize_cases flow s step with ⟨i, x, h, _⟩ | ⟨_, h⟩
  · rw [h]
    exact .of_eq .refl rfl
  · obtain ⟨x, _, hrun⟩ := e.run_expect flow s step
    rw [h, hrun]
    intro i y hy
    exact ⟨y, (List.getElem?_append_left (List.getElem?_eq_some_iff.mp hy).1).trans hy, .refl y⟩

theorem carries_expectAll (steps : List Step) :
    s.run.Carries Execution.Ages (e.expectAll flow s steps).run := by
  induction steps generalizing s with
  | nil => exact .of_eq .refl rfl
  | cons step rest ih => exact (e.carries_materialize flow s step).trans .trans (ih _)

theorem materialize_pending (step : Step) :
    ∃ x, (e.materialize flow s step).1.run.executions[(e.materialize flow s step).2]? = some x ∧
      x.status = .pending := by
  rcases e.materialize_cases flow s step with ⟨i, x, h, hx, _, hp⟩ | ⟨_, h⟩
  · rw [h]
    exact ⟨x, hx, hp⟩
  · obtain ⟨x, hx, hrun⟩ := e.run_expect flow s step
    rw [h, hrun]
    exact ⟨x, by simp, x.status_of_expected (congrArg Mark.standing hx)⟩

/-- A step that starts has an execution under way, and all others stay. -/
theorem activate_carries (step : Step) (fork : Option String) :
    ∃ x, (e.activate flow now s step fork).2 = some x ∧
      x ∈ (e.activate flow now s step fork).1.run.executions ∧
      x.status.isCompletable = true ∧
      s.run.Carries Execution.Ages (e.activate flow now s step fork).1.run := by
  obtain ⟨x, hx, hp⟩ := e.materialize_pending flow s step
  obtain ⟨y, hmark, hy, _, hset⟩ := activate_at now fork rfl hx hp
  refine ⟨y, hy, ?_, ?_, (e.carries_materialize flow s step).trans .trans ?_⟩
  · rw [hset]
    exact List.mem_of_getElem? (List.getElem?_set_self (List.getElem?_eq_some_iff.mp hx).1)
  · rw [y.isCompletable_iff, hmark]
  · exact Run.carries_set .refl hx hset (Execution.ages_start hp hmark)

theorem proceeds_pass (t : Motion) {x : Execution} (step : Step) (fork : Option String)
    (hx : x ∈ t.session.run.executions) (hopen : x.status.isCompletable = true) :
    t.session.run.Proceeds (e.pass flow now t x step fork).session.run := by
  cases hb : t.budget with
  | zero =>
    rw [pass_zero hb]
    exact .refl _
  | succ budget =>
    rw [pass_succ hb]
    exact (Session.proceeds_finish hx hopen [] now).trans (.of_eq rfl)

theorem proceeds_follow (t : Motion) (a : Activation) :
    t.session.run.Proceeds (e.follow flow now t a).session.run := by
  cases hf : flow.find? a.step with
  | none =>
    unfold follow
    simp only [hf]
    exact .refl _
  | some place =>
    obtain ⟨x, hx, hmem, hopen, hcarries⟩ :=
      e.activate_carries flow now t.session place.step a.fork
    rw [follow_of hf hx]
    split
    · exact hcarries.proceeds.trans
        (e.proceeds_pass flow now { t with session := _ } place.step a.fork hmem hopen)
    · exact hcarries.proceeds

theorem proceeds_followAll (as : List Activation) (t : Motion) :
    t.session.run.Proceeds (e.followAll flow now t as).session.run := by
  induction as generalizing t with
  | nil => exact .refl _
  | cons a rest ih => exact (e.proceeds_follow flow now t a).trans (ih _)

theorem proceeds_drive (t : Motion) :
    t.session.run.Proceeds (e.drive flow now t).session.run := by
  induction t using drive.induct e flow now with
  | case1 t h =>
    rw [drive_nil h]
    exact .refl _
  | case2 t plan rest h status hend =>
    rw [drive_cons h, hend]
    exact .of_eq rfl
  | case3 t plan rest h marked hend ih =>
    rw [drive_cons h, hend]
    have hmark : t.session.run.Proceeds marked.session.run := .of_eq rfl
    exact (hmark.trans (e.proceeds_followAll flow now plan.activations marked)).trans ih

theorem proceeds_propagate (flags : Flags) (plan : Plan) (advance : Advance) :
    s.run.Proceeds (e.propagate flow now flags s plan advance).1.run := by
  have htravel : (e.drive flow now (e.setOut s plan advance)).session.run.Proceeds
      (e.travel flow now s plan advance).session.run := by
    unfold travel
    dsimp only
    split
    · exact .of_eq rfl
    · exact .refl _
  rw [run_propagate]
  exact (e.proceeds_drive flow now (e.setOut s plan advance)).trans htravel

theorem proceeds_start (flags : Flags) : s.run.Proceeds (e.start flow now flags s).1.run := by
  by_cases h : s.run.isActive = true → s.run.executions ≠ []
  · rw [start_again h]
    exact .refl _
  · obtain ⟨ha, hx⟩ := Classical.not_imp.mp h
    have hcarries : s.run.Carries Execution.Ages (e.ready flow now s).run :=
      e.carries_expectAll flow (s.dated flow now) flow.steps
    rw [start_fresh ha (not_not.mp hx)]
    split
    · exact hcarries.proceeds.trans (.of_eq rfl)
    · exact hcarries.proceeds.trans (e.proceeds_propagate flow now _ flags _ _)

/-- A run goes forward on an accepted submission. -/
theorem proceeds_accept (flags : Flags) {x : Execution} (result : Record)
    (hx : x ∈ s.run.executions) (hopen : x.status.isCompletable = true) :
    s.run.Proceeds (e.accept flow now flags s x result).1.run := by
  have htake : s.run.Proceeds (s.take x result now).run :=
    (Session.proceeds_finish hx hopen result now).trans (.of_eq rfl)
  cases hf : flow.find? x.stepId with
  | none =>
    unfold accept
    simp only [hf]
    exact htake
  | some place =>
    have hsettle : (s.take x result now).run.Proceeds ((s.take x result now).settle
        (e.follows flow (s.take x result now) x.stepId result x.fork)).run := .of_eq rfl
    rw [accept_of hf]
    exact (htake.trans hsettle).trans (e.proceeds_propagate flow now _ flags _ _)

theorem proceeds_complete (flags : Flags) (execution : String) (result : Record) :
    s.run.Proceeds (e.complete flow now flags s execution result).1.run := by
  rcases e.complete_cases flow now s flags execution result with
    ⟨_, hrun, _⟩ | ⟨x, t, _, hx, hopen, _, _, hrun, h⟩
  · rw [hrun]
    exact .refl _
  · rw [h, ← hrun]
    exact e.proceeds_accept flow now t flags result
      (hrun.symm ▸ List.mem_of_find?_eq_some hx) hopen

/-- It goes forward on a submission to a shared step. -/
theorem proceeds_submit (flags : Flags) (execution assignment : String) (result : Record) :
    s.run.Proceeds (e.submit flow now flags s execution assignment result).1.run := by
  cases htakes : s.run.takes? execution assignment with
  | none =>
    obtain ⟨_, hsame, _⟩ := submit_refused htakes
    rw [hsame]
    exact .refl _
  | some x =>
    obtain ⟨hx, _, hopen, _⟩ := Run.takes?_eq_some_iff.mp htakes
    obtain ⟨rfl, _⟩ := Run.marks_of_find? hx
    have hmem := List.mem_of_find?_eq_some hx
    have hages : x.Ages (x.submit assignment result now) :=
      Execution.ages_of_isCompletable hopen rfl rfl (.inl rfl)
    by_cases hquorate : (x.submit assignment result now).isQuorate = true
    · have hcomplete := (Session.carries_update hx hages now).proceeds.trans
        (e.proceeds_complete flow now _ flags x.id
          ((x.submit assignment result now).sharedResult result))
      rw [submit_taken htakes, if_pos hquorate]
      unfold conclude
      dsimp only
      split
      · exact hcomplete.modify (x := x) hmem hopen fun _ => ⟨rfl, rfl, .inl rfl⟩
      · split
        · exact hcomplete.modify (x := x) hmem hopen fun _ => ⟨rfl, rfl, .inl rfl⟩
        · exact hcomplete
    · have hawait : (x.submit assignment result now).Ages (x.submit assignment result now).await :=
        Execution.ages_await hopen
      rw [(submit_waits htakes hquorate).1]
      exact (Session.carries_update hx (hages.trans hawait) now).proceeds

theorem proceeds_play (m : Move) : s.run.Proceeds (e.play flow now s m).1.run := by
  cases m with
  | start flags => exact e.proceeds_start flow now s flags
  | complete execution result flags => exact e.proceeds_complete flow now s flags execution result
  | submit execution assignment result flags =>
    exact e.proceeds_submit flow now s flags execution assignment result
  | fail execution reason => exact (s.carries_fail execution reason now).proceeds
  | escalate execution => exact (s.carries_escalate execution now).proceeds

variable {s}

theorem rests_submit (h : s.run.status ≠ .active) (flags : Flags) (execution assignment : String)
    (result : Record) :
    s.run.Rests (e.submit flow now flags s execution assignment result).1.run := by
  cases htakes : s.run.takes? execution assignment with
  | none =>
    obtain ⟨_, hsame, _⟩ := submit_refused htakes
    rw [hsame]
    exact .refl _
  | some x =>
    obtain ⟨hx, _, hopen, _⟩ := Run.takes?_eq_some_iff.mp htakes
    rw [(submit_kept h htakes).1]
    exact Run.rests_modify hx hopen (x.startedAt_keep assignment result now)
      (Execution.status_keep hopen assignment result now)

/-- Whatever is done to a run that has ended, it rests. -/
theorem rests_play (h : s.run.status ≠ .active) (m : Move) :
    s.run.Rests (e.play flow now s m).1.run := by
  cases m with
  | start flags =>
    have hagain : s.run.isActive = true → s.run.executions ≠ [] := fun ha =>
      absurd (s.run.isActive_iff.mp ha) h
    change s.run.Rests (e.start flow now flags s).1.run
    rw [start_again hagain]
    exact .refl _
  | complete execution result flags =>
    change s.run.Rests (e.complete flow now flags s execution result).1.run
    rw [complete_ended h]
    exact .refl _
  | submit execution assignment result flags =>
    exact e.rests_submit flow now h flags execution assignment result
  | fail execution reason => exact s.rests_fail execution reason now
  | escalate execution => exact s.rests_escalate execution now

/-- One session leads to another by moves, each at its time and on any flow. -/
def Leads : Session → Session → Prop :=
  Relation.ReflTransGen fun s s' => ∃ flow now m, (e.play flow now s m).1 = s'

namespace Leads

variable {e} {s' : Session}

theorem proceeds (h : e.Leads s s') : s.run.Proceeds s'.run := by
  induction h with
  | refl => exact .refl _
  | tail _ hstep ih =>
    obtain ⟨flow, now, m, rfl⟩ := hstep
    exact ih.trans (e.proceeds_play flow now _ m)

theorem rests (h : e.Leads s s') (ha : s.run.status ≠ .active) : s.run.Rests s'.run := by
  induction h with
  | refl => exact .refl _
  | @tail t _ _ hstep ih =>
    obtain ⟨flow, now, m, rfl⟩ := hstep
    have hended : t.run.status ≠ .active := ih.status.symm ▸ ha
    exact ih.trans (e.rests_play flow now hended m)

/-- The history of a run only moves forward, if the identifiers of its executions differ. -/
theorem continues (h : e.Leads s s') (differ : s'.run.executionIds.Nodup) :
    s.run.Continues s'.run :=
  ⟨h.proceeds.ages differ, h.rests⟩

end Leads

end Engine

namespace Sample

/-- The left path is submitted to and given up, though the run is over. -/
def late : Session :=
  (crew.play race ⟨6⟩ (crew.play race ⟨5⟩ won (.submit "exec_11" "asg_111" [] {})).1
    (.fail "exec_11" "late")).1

end Sample

namespace Engine.Leads

theorem continues_late : Sample.won.run.Continues Sample.late.run := by
  have hleads : Sample.crew.Leads Sample.won Sample.late :=
    .tail (.single ⟨_, _, _, rfl⟩) ⟨_, _, _, rfl⟩
  have hids : Sample.late.run.executionIds = ["exec_", "exec_11", "exec_11111"] := by
    cbv
  exact continues hleads (by rw [hids]; decide)

end Engine.Leads

end Workflow
