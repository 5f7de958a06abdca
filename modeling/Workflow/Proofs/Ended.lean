import Workflow.Proofs.Course

namespace Workflow

namespace Execution

/-- Keeps a submission, and waits for further ones if it has to. -/
def keep (x : Execution) (assignment : String) (result : Record) (now : Instant) : Execution :=
  if (x.submit assignment result now).isQuorate then x.submit assignment result now
  else (x.submit assignment result now).await

theorem status_ne_completed {x : Execution} (h : x.status.isCompletable = true) :
    x.status ≠ .completed := by
  intro hdone
  rw [hdone] at h
  cases h

theorem startedAt_keep (x : Execution) (assignment : String) (result : Record) (now : Instant) :
    (x.keep assignment result now).startedAt = x.startedAt := by
  unfold keep
  split <;> rfl

theorem status_keep {x : Execution} (h : x.status.isCompletable = true) (assignment : String)
    (result : Record) (now : Instant) : (x.keep assignment result now).status ≠ .completed := by
  unfold keep
  split
  · exact status_ne_completed h
  · rw [await_of (x := x.submit assignment result now) h]
    exact StepStatus.noConfusion

end Execution

/-- Two changes of one execution are one. -/
theorem Session.update_modify {s : Session} {execution : String} {x : Execution} {now : Instant}
    (hid : x.id = execution) {change : Execution → Execution} :
    { s.update execution x now with
        run := (s.update execution x now).run.modify execution change } =
      s.update execution (change x) now := by
  have hmerge := Sequence.modifyFirst_modifyFirst (p := fun y : Execution => y.id == execution)
    (f := fun _ => x) (fun _ _ => beq_iff_eq.mpr hid) change s.run.executions
  simp only [Session.update, Run.modify]
  rw [hmerge]

namespace Engine

variable {e : Engine} {flow : Flow} {now : Instant} {flags : Flags} {s : Session}
  {execution assignment : String} {result : Record}

theorem complete_ended (h : s.run.status ≠ .active) :
    e.complete flow now flags s execution result = (s, {}) := by
  cases hx : s.run.find? execution with
  | none =>
    unfold complete
    simp only [hx]
  | some x => rw [complete_of result hx, if_pos (by simp [Run.isActive, h])]

theorem conclude_ended {x : Execution} (h : s.run.status ≠ .active) :
    (e.conclude flow now flags s x assignment result).1 = s ∧
      (e.conclude flow now flags s x assignment result).2.advanced = false := by
  unfold conclude
  rw [complete_ended h]
  exact ⟨rfl, rfl⟩

/-- A submission that does not meet the quorum is kept, and its step waits for others. -/
theorem submit_waits {x : Execution} (htakes : s.run.takes? execution assignment = some x)
    (hwaits : ¬ (x.submit assignment result now).isQuorate = true) :
    (e.submit flow now flags s execution assignment result).1 =
        s.update execution (x.submit assignment result now).await now ∧
      (e.submit flow now flags s execution assignment result).2.advanced = false := by
  have hid : (x.submit assignment result now).id = execution :=
    (Run.marks_of_find? (Run.takes?_eq_some_iff.mp htakes).1).1
  rw [submit_taken htakes, if_neg hwaits]
  exact ⟨Session.update_modify hid, rfl⟩

/-- A submission that an execution of an ended run takes is kept, and that is all. -/
theorem submit_kept {x : Execution} (h : s.run.status ≠ .active)
    (htakes : s.run.takes? execution assignment = some x) :
    (e.submit flow now flags s execution assignment result).1 =
        s.update execution (x.keep assignment result now) now ∧
      (e.submit flow now flags s execution assignment result).2.advanced = false := by
  unfold Execution.keep
  by_cases hquorate : (x.submit assignment result now).isQuorate = true
  · have hended :
        (s.update execution (x.submit assignment result now) now).run.status ≠ .active := h
    rw [submit_taken htakes, if_pos hquorate, if_pos hquorate]
    exact conclude_ended hended
  · rw [if_neg hquorate]
    exact submit_waits htakes hquorate

/-- A submission to a run that has ended never advances it. Only the execution that takes it is
changed, besides the time of the last activity. -/
theorem submit_ended (h : s.run.status ≠ .active) :
    (e.submit flow now flags s execution assignment result).2.advanced = false ∧
      (e.submit flow now flags s execution assignment result).1 =
        match s.run.takes? execution assignment with
        | none => s
        | some x => s.update execution (x.keep assignment result now) now := by
  cases htakes : s.run.takes? execution assignment with
  | none =>
    obtain ⟨_, hsame, hadvanced⟩ := submit_refused htakes
    exact ⟨hadvanced, hsame⟩
  | some x => exact (submit_kept h htakes).symm

end Engine

namespace Sample

/-- Two people share the step `a`, and both have to submit. -/
def crew : Engine :=
  { engine with
    advisers.assignees := some fun step _ =>
      .ok (if step.id = "a" then [{ id := "u" }, { id := "v" }] else []) }

/-- A branch that goes on as soon as one of its two paths is over. -/
def race : Flow :=
  { Flow.empty "race" "" with
    steps := [⟨"fork", "", "", "", none, [], .branch .parallel .anyOne
      [⟨"left", "", {}, [⟨"a", "", "", "", none, [], .action ⟨.form, rfl⟩ .all false⟩]⟩,
        ⟨"right", "", {}, [Step.ofType "b" .form]⟩]⟩] }

/-- The right path is over, and the run with it. The step of the left path is still open. -/
def won : Session :=
  (crew.play race ⟨0⟩
    (crew.play race ⟨0⟩ (crew.play race ⟨0⟩ { run := {} } (.start {})).1
    (.complete "exec_" [] {})).1 (.complete "exec_11111" [] {})).1

theorem reaches_won : crew.Reaches race (fun _ => True) won :=
  .move (.move (.start ⟨rfl, rfl, rfl⟩) trivial) trivial

theorem status_won : won.run.status = .completed := by
  cbv

end Sample

namespace Engine

theorem submit_ended_won : Sample.won.run.status ≠ .active ∧
    (Sample.crew.submit Sample.race ⟨5⟩ {} Sample.won "exec_11" "asg_111" []).2.advanced =
      false ∧
      (Sample.crew.submit Sample.race ⟨5⟩ {} Sample.won "exec_11" "asg_111" []).1 =
        match Sample.won.run.takes? "exec_11" "asg_111" with
        | none => Sample.won
        | some x => Sample.won.update "exec_11" (x.keep "asg_111" [] ⟨5⟩) ⟨5⟩ := by
  have hended : Sample.won.run.status ≠ .active := by simp [Sample.status_won]
  exact ⟨hended, submit_ended hended⟩

/-- A submission can change a run that has ended. -/
theorem submit_late :
    ¬ ∀ (e : Engine) (flow : Flow) (s : Session) (now : Instant) (flags : Flags)
    (execution assignment : String) (result : Record),
    e.Reaches flow (fun _ => True) s → s.run.status ≠ .active →
    (e.submit flow now flags s execution assignment result).2.advanced = false ∧
      (e.submit flow now flags s execution assignment result).1.run = s.run := by
  intro h
  have hlate := (h Sample.crew Sample.race Sample.won ⟨5⟩ {} "exec_11" "asg_111" []
    Sample.reaches_won (by simp [Sample.status_won])).2
  have hactivity : (Sample.crew.submit Sample.race ⟨5⟩ {} Sample.won "exec_11" "asg_111"
      []).1.run.lastActivityAt = some ⟨5⟩ := by
    cbv
  have hbefore : Sample.won.run.lastActivityAt = some ⟨0⟩ := by
    cbv
  rw [hlate, hbefore] at hactivity
  exact absurd hactivity (by decide)

end Engine

end Workflow
