import Workflow.Proofs.AdvanceSteps
import Workflow.Proofs.Forward

namespace Workflow

theorem Execution.status_finish {x : Execution} (h : x.status = .completed) (result : Record)
    (now : Instant) : (x.finish result now).status = .completed := by
  unfold finish
  rw [h]
  rfl

namespace Session

variable {s s' : Session} {id : String} {x : Execution} {change : Execution → Execution}
  {ns : List Notice}

/-- Changing the execution with some identifier changes the one that is found. -/
theorem Turns.swaps (h : s.Turns s' (s.run.modify id change).executions ns)
    (hx : s.run.find? id = some x) : s.Swaps s' x (change x) ns := by
  obtain ⟨i, hi, hset⟩ := Sequence.modifyFirst_eq_set hx change
  exact ⟨i, hi, hset ▸ h⟩

theorem swaps_update (hx : s.run.find? id = some x) (y : Execution) (now : Instant) :
    s.Swaps (s.update id y now) x y [] := by
  have hturns : s.Turns (s.update id y now) (s.run.modify id fun _ => y).executions [] :=
    ⟨rfl, rfl, rfl, Nat.le_refl _, (List.append_nil _).symm⟩
  exact hturns.swaps hx

theorem find?_update {y : Execution} (hx : s.run.find? id = some x) (hy : y.id = id)
    (now : Instant) :
    (s.update id y now).run.find? id = some y := by
  have h : (s.run.modify id fun _ => y).find? id = some y := by
    rw [Run.find?_modify fun _ _ => hy, hx, Option.map_some, if_pos rfl]
  exact h

theorem find?_take (hx : s.run.find? x.id = some x) (result : Record) (now : Instant) :
    (s.take x result now).run.find? x.id = some (x.finish result now) :=
  find?_finish hx result now

theorem turns_take (s : Session) (x : Execution) (result : Record) (now : Instant) :
    s.Turns (s.take x result now) (s.run.modify x.id fun x => x.finish result now).executions
      [.completed x.id x.stepId (x.finish result now).status now] :=
  ⟨rfl, rfl, rfl, Nat.le_refl _, rfl⟩

/-- A change that goes on with an update makes one change with it. -/
theorem Turns.swaps_of_update {t : Session} {y : Execution} {now : Instant}
    (h : t.Turns s' (t.run.modify x.id change).executions ns)
    (hrun : t.run = (s.update x.id y now).run) (hx : s.run.find? x.id = some x)
    (hid : y.id = x.id) : ({ s with log := t.log } : Session).Swaps s' x (change y) ns := by
  have hmerge := Sequence.modifyFirst_modifyFirst (p := fun z : Execution => z.id == x.id)
    (f := fun _ => y) (fun _ _ => beq_iff_eq.mpr hid) change s.run.executions
  obtain ⟨i, hi, hset⟩ := Sequence.modifyFirst_eq_set hx fun _ => change y
  refine ⟨i, hi, ?_, ?_, ?_, h.drawn, h.notices⟩
  · rw [h.executions, hrun]
    exact hmerge.trans hset
  · rw [h.status, hrun]
    rfl
  · rw [h.completedAt, hrun]
    rfl

/-- What is over is found again after another execution has changed. -/
theorem Swaps.find?_completed {y z : Execution} (h : s.Swaps s' x y ns) (hp : x.status = .pending)
    (hid : y.id = x.id) (hz : s.run.find? id = some z) (hdone : z.status = .completed) :
    s'.run.find? id = some z := by
  obtain ⟨i, hx, h⟩ := h
  unfold Run.find?
  rw [h.executions]
  refine Sequence.find?_set hz hx (by rw [hid]) ?_
  rintro rfl
  rw [hp] at hdone
  cases hdone

/-- What was noted after a change of the run could have been noted before it. -/
theorem Aside.before {t : Session} (h : s.Aside s') (hlog : s.log = t.log) :
    t.Aside { t with log := s'.log } := by
  obtain ⟨ns, h, hns⟩ := h
  exact ⟨ns, ⟨rfl, rfl, rfl, hlog ▸ h.drawn, hlog ▸ h.notices⟩, hns⟩

end Session

namespace Execution

/-- Whether an execution takes a submission to an assignment. -/
structure Takes (x : Execution) (assignment : String) : Prop where
  shared : x.isShared = true
  isOpen : x.status.isCompletable = true
  pending : ∃ a, x.findAssignment? assignment = some a ∧ a.status = .pending

/-- What a move can make of an execution without moving the run on, and what is noted then. -/
inductive Amends (r : Run) (x : Execution) : Execution → List Notice → Prop
  | fail (reason : String) (now : Instant) (hopen : x.status.isCompletable = true) :
      Amends r x (x.fail reason now) [.failed x.id]
  | escalate (now : Instant) (hopen : x.status.isCompletable = true) :
      Amends r x { x with escalatedAt := some now } []
  /-- A submission is kept that does not meet the quorum. -/
  | wait {assignment : String} (result : Record) (now : Instant) (h : x.Takes assignment)
      (hwaits : (x.submit assignment result now).isQuorate = false) :
      Amends r x (x.submit assignment result now).await []
  /-- A submission is kept after the end of the run. -/
  | keep {assignment : String} (result : Record) (now : Instant) (h : x.Takes assignment)
      (hr : r.isActive = false) : Amends r x (x.submit assignment result now) []
  /-- A submission is taken back, since a revision is asked for. -/
  | revise {assignment : String} (result : Record) (now : Instant) (h : x.Takes assignment) :
      Amends r x ((x.submit assignment result now).reopen assignment) []
  /-- Assignments are cancelled when their step is over. -/
  | release (hdone : x.status = .completed) : Amends r x x.cancelPending []

/-- How a submission that is accepted completes an execution. -/
inductive Concludes (x : Execution) (now : Instant) : Execution → Prop
  | complete (result : Record) (hopen : x.status.isCompletable = true) :
      Concludes x now (x.finish result now)
  /-- The submission is that of an assignee, and meets the quorum. -/
  | submit {assignment : String} (result : Record) (h : x.Takes assignment) :
      Concludes x now ((x.submit assignment result now).finish
        ((x.submit assignment result now).sharedResult result) now)

variable {r : Run} {x y : Execution} {ns : List Notice} {now : Instant}

theorem Amends.id (h : x.Amends r y ns) : y.id = x.id := by
  cases h <;> rfl

theorem Concludes.id (h : x.Concludes now y) : y.id = x.id := by
  cases h with
  | complete => exact x.id_finish _ _
  | submit => exact id_finish _ _ _

theorem Concludes.isOpen (h : x.Concludes now y) : x.status.isCompletable = true := by
  cases h with
  | complete _ hopen => exact hopen
  | submit _ h => exact h.isOpen

theorem Concludes.status (h : x.Concludes now y) : y.status = .completed := by
  cases h with
  | complete _ hopen => rw [finish_of hopen]
  | @submit assignment result h =>
    have hopen : (x.submit assignment result now).status.isCompletable = true := h.isOpen
    rw [finish_of hopen]

theorem Amends.notices (h : x.Amends r y ns) : ns = [] ∨ ns = [.failed x.id] := by
  cases h with
  | fail => exact .inr rfl
  | escalate | wait | keep | revise | release => exact .inl rfl

end Execution

structure Advance.IsSilent (a : Advance) : Prop where
  completed : a.completed = false
  flowCompleted : a.flowCompleted = false
  activated : a.activated = []

theorem Advance.silent {r : Option Advance} (h : ∀ a ∈ r, a.IsSilent) :
    r.any Advance.completed = false ∧ r.any Advance.flowCompleted = false ∧
      (r.map Advance.activated).getD [] = [] := by
  cases r with
  | none => exact ⟨rfl, rfl, rfl⟩
  | some a =>
    obtain ⟨hcompleted, hflow, hactivated⟩ := h a rfl
    exact ⟨hcompleted, hflow, hactivated⟩

def Move.subject? : Move → Option String
  | .complete execution _ _ | .submit execution _ _ _ => some execution
  | .start _ | .fail _ _ | .escalate _ => none

def Answer.advance? : Answer → Option Advance
  | .advance a => some a
  | .submission s => s.advance
  | .done _ => none

namespace Engine

/-- What a move does, and what it answers of the way of the run. -/
inductive Deed (e : Engine) (flow : Flow) (s : Session) (m : Move) (s' : Session)
    (r : Option Advance) : Prop
  | idle (h : s.Aside s') (hr : ∀ a ∈ r, a.IsSilent)
  | amend {t : Session} {x y : Execution} {ns : List Notice} (ht : s.Aside t)
      (h : x.Amends t.run y ns) (hs' : t.Swaps s' x y ns) (hr : ∀ a ∈ r, a.IsSilent)
  | start {a : Advance} (ha : s.run.isActive = true) (hm : m.subject? = none)
      (h : e.Travels flow (s, { completed := true }) (s', a)) (hr : r = some a)
  /-- A submission completes an execution, and the run moves on. In the end, the assignments that
  are left may be cancelled. -/
  | accept {t u v : Session} {x y : Execution} {now : Instant} {a : Advance} (ht : s.Aside t)
      (ha : t.run.isActive = true) (hm : m.subject? = some x.id) (h : x.Concludes now y)
      (hu : t.Swaps u x y [.completed x.id x.stepId y.status now])
      (hv : e.Travels flow (u, { completed := true }) (v, a))
      (hs' : s' = v ∨ ∃ z, z.status = .completed ∧ v.Swaps s' z z.cancelPending [])
      (hr : r = some a)

variable {e : Engine} {flow : Flow} {p q : Session × Advance}

theorem Stride.completed (h : e.Stride flow p q) : q.2.completed = p.2.completed := by
  cases h <;> rfl

theorem Strides.completed (h : e.Strides flow p q) : q.2.completed = p.2.completed := by
  induction h with
  | refl => rfl
  | tail _ hstep ih => exact hstep.completed.trans ih

theorem Travels.completed (h : e.Travels flow p q) : q.2.completed = p.2.completed := by
  cases h with
  | onward h => exact h.completed
  | ended h _ _ _ hq =>
    rw [hq]
    exact h.completed

/-- A completed execution stays completed. -/
theorem Stride.find?_completed {id : String} {z : Execution} (h : e.Stride flow p q)
    (hz : p.1.run.find? id = some z) (hdone : z.status = .completed) :
    ∃ z', q.1.run.find? id = some z' ∧ z'.status = .completed := by
  cases h with
  | aside h =>
    refine ⟨z, ?_, hdone⟩
    unfold Run.find?
    rw [h.executions]
    exact hz
  | expect _ h =>
    refine ⟨z, ?_, hdone⟩
    unfold Run.find? at hz ⊢
    rw [h.executions, List.find?_append, hz]
    rfl
  | announce _ hp _ _ h | park _ hp _ _ h => exact ⟨z, h.find?_completed hp rfl hz hdone, hdone⟩
  | @pass s t s' a x step fork now _ hp _ _ h hfinish =>
    have ht := h.find?_completed hp rfl hz hdone
    have hmodify : s'.run.find? id =
        (t.run.modify x.id fun y => y.finish [] now).find? id := by
      unfold Run.find?
      rw [hfinish.executions]
    rw [hmodify, Run.find?_modify (fun y hy => (y.id_finish [] now).trans hy), ht]
    refine ⟨_, rfl, ?_⟩
    split
    · exact Execution.status_finish hdone [] now
    · exact hdone

theorem Strides.find?_completed {id : String} {z : Execution} (h : e.Strides flow p q)
    (hz : p.1.run.find? id = some z) (hdone : z.status = .completed) :
    ∃ z', q.1.run.find? id = some z' ∧ z'.status = .completed := by
  induction h with
  | refl => exact ⟨z, hz, hdone⟩
  | tail _ hstep ih =>
    obtain ⟨z', hz', hdone'⟩ := ih
    exact hstep.find?_completed hz' hdone'

theorem Travels.find?_completed {id : String} {z : Execution} (h : e.Travels flow p q)
    (hz : p.1.run.find? id = some z) (hdone : z.status = .completed) :
    ∃ z', q.1.run.find? id = some z' ∧ z'.status = .completed := by
  cases h with
  | onward h => exact h.find?_completed hz hdone
  | ended h _ _ _ hq =>
    rw [hq]
    exact h.find?_completed hz hdone

variable (e flow) (now : Instant) (s : Session)

theorem aside_judge (flags : Flags) (x : Execution) (result : Record) :
    s.Aside (e.judge flow s flags x result).1 := by
  unfold judge
  split
  · split
    · exact .refl s
    · unfold review
      split
      · exact .refl s
      · split
        · exact ⟨_, ⟨rfl, rfl, rfl, Nat.le_refl _, rfl⟩, by simp [Notice.isAside]⟩
        · exact .refl s
  · exact .refl s

theorem deed_start (flags : Flags) :
    e.Deed flow s (.start flags) (e.start flow now flags s).1
      (some (e.start flow now flags s).2) := by
  by_cases h : s.run.isActive = true → s.run.executions ≠ []
  · rw [start_again h]
    exact .idle (.refl s) (by rintro a ⟨⟩; exact ⟨rfl, rfl, rfl⟩)
  · obtain ⟨ha, hx⟩ := Classical.not_imp.mp h
    exact .start ha rfl (travels_start now ha (not_not.mp hx) flags) rfl

/-- Completing a step is one of the four things that a move does. -/
theorem deed_complete (flags : Flags) (execution : String) (result : Record) :
    e.Deed flow s (.complete execution result flags)
      (e.complete flow now flags s execution result).1
      (some (e.complete flow now flags s execution result).2) := by
  cases hx : s.run.find? execution with
  | none =>
    have hsame : e.complete flow now flags s execution result = (s, {}) := by
      unfold complete
      simp only [hx]
    rw [hsame]
    exact .idle (.refl s) (by rintro a ⟨⟩; exact ⟨rfl, rfl, rfl⟩)
  | some x =>
    obtain ⟨rfl, _⟩ := Run.marks_of_find? hx
    have hjudge := e.aside_judge flow s flags x result
    have hrun := e.run_judge flow s flags x result
    rw [complete_of result hx]
    split
    · exact .idle (.refl s) (by rintro a ⟨⟩; exact ⟨rfl, rfl, rfl⟩)
    · rename_i hopen
      simp only [Bool.or_eq_true, Bool.not_eq_true', not_or, Bool.not_eq_false] at hopen
      split
      · have ha : (e.judge flow s flags x result).1.run.isActive = true := hrun ▸ hopen.2
        exact .accept hjudge ha rfl (.complete result hopen.1)
          ((Session.turns_take _ x result now).swaps (hrun.symm ▸ hx))
          (travels_accept now ha flags x result) (.inl rfl) rfl
      · exact .idle hjudge (by rintro a ⟨⟩; exact ⟨rfl, rfl, rfl⟩)

section Submission

variable {e flow now s} {flags : Flags} {assignment feedback : String} {issues : List String}
  {result : Record} {x : Execution} {t : Session}

theorem complete_approved (hx : s.run.find? x.id = some x) (hopen : x.status.isCompletable = true)
    (ha : s.run.isActive = true) (hj : e.judge flow s flags x result = (t, .approved)) :
    e.complete flow now flags s x.id result = e.accept flow now flags t x result := by
  rw [complete_of result hx, hj, hopen, ha]
  rfl

theorem complete_revise (hx : s.run.find? x.id = some x) (hopen : x.status.isCompletable = true)
    (ha : s.run.isActive = true)
    (hj : e.judge flow s flags x result = (t, .revise feedback issues)) :
    e.complete flow now flags s x.id result =
      (t, { revisionNeeded := true, feedback := feedback, issues := issues }) := by
  rw [complete_of result hx, hj, hopen, ha]
  rfl

/-- A submission that meets the quorum and is approved completes the step. -/
theorem conclude_approved (hx : s.run.find? x.id = some x) (hopen : x.status.isCompletable = true)
    (ha : s.run.isActive = true)
    (hj : e.judge flow s flags x (x.sharedResult result) = (t, .approved)) :
    e.conclude flow now flags s x assignment result =
      ({ (e.accept flow now flags t x (x.sharedResult result)).1 with
          run := (e.accept flow now flags t x (x.sharedResult result)).1.run.modify x.id
            Execution.cancelPending },
        { advanced := true
          completed := x.submissions
          total := x.assignments.length
          advance := some (e.accept flow now flags t x (x.sharedResult result)).2 }) := by
  have hrun : t.run = s.run := by
    have h := e.run_judge flow s flags x (x.sharedResult result)
    rwa [hj] at h
  have htravel : e.Travels flow (t.take x (x.sharedResult result) now, { completed := true })
      (e.accept flow now flags t x (x.sharedResult result)) :=
    travels_accept now (hrun ▸ ha) flags x _
  have hcompleted : (e.accept flow now flags t x (x.sharedResult result)).2.completed = true :=
    htravel.completed
  unfold conclude
  rw [complete_approved hx hopen ha hj]
  dsimp only
  rw [if_pos hcompleted, hcompleted]

/-- A submission that meets the quorum and is to be revised is taken back. -/
theorem conclude_revise (hx : s.run.find? x.id = some x) (hopen : x.status.isCompletable = true)
    (ha : s.run.isActive = true)
    (hj : e.judge flow s flags x (x.sharedResult result) = (t, .revise feedback issues)) :
    e.conclude flow now flags s x assignment result =
      ({ t with run := t.run.modify x.id fun x => x.reopen assignment },
        { completed := (x.reopen assignment).submissions
          total := x.assignments.length
          advance :=
            some { revisionNeeded := true, feedback := feedback, issues := issues } }) := by
  have hrun : t.run = s.run := by
    have h := e.run_judge flow s flags x (x.sharedResult result)
    rwa [hj] at h
  have hreopened : (t.run.modify x.id fun x => x.reopen assignment).find? x.id =
      some (x.reopen assignment) := by
    have hid : ∀ y : Execution, y.id = x.id → (y.reopen assignment).id = x.id := fun _ hy => hy
    rw [Run.find?_modify hid, hrun, hx, Option.map_some, if_pos rfl]
  unfold conclude
  rw [complete_revise hx hopen ha hj]
  dsimp only
  rw [if_neg Bool.false_ne_true, if_pos rfl, hreopened]
  rfl

/-- A submission that meets the quorum is accepted, or opened again after its review. -/
theorem deed_conclude (hx : s.run.find? x.id = some x) (h : x.Takes assignment) :
    e.Deed flow s (.submit x.id assignment result flags)
      (e.conclude flow now flags (s.update x.id (x.submit assignment result now) now)
        (x.submit assignment result now) assignment result).1
      (e.conclude flow now flags (s.update x.id (x.submit assignment result now) now)
        (x.submit assignment result now) assignment result).2.advance := by
  obtain ⟨y, hy⟩ : ∃ y, y = x.submit assignment result now := ⟨_, rfl⟩
  obtain ⟨kept, hkept⟩ : ∃ kept, kept = s.update x.id y now := ⟨_, rfl⟩
  have hid : y.id = x.id := hy ▸ rfl
  have hstep : y.stepId = x.stepId := hy ▸ rfl
  have hfound : kept.run.find? y.id = some y := by
    rw [hkept, hid]
    exact Session.find?_update hx hid now
  have hopen : y.status.isCompletable = true := hy ▸ h.isOpen
  have hactive : kept.run.isActive = s.run.isActive := hkept ▸ rfl
  rw [← hy, ← hkept]
  cases ha : s.run.isActive with
  | false =>
    have hended : kept.run.status ≠ .active := by
      rw [ha] at hactive
      simpa [Run.isActive] using hactive
    unfold conclude
    rw [complete_ended hended, hkept, hy]
    exact .amend (.refl s) (.keep result now h ha) (Session.swaps_update hx _ now)
      (by rintro a ⟨⟩; exact ⟨rfl, rfl, rfl⟩)
  | true =>
    have ha' : kept.run.isActive = true := hactive.trans ha
    have hjudge := e.aside_judge flow kept flags y (y.sharedResult result)
    have hrun := e.run_judge flow kept flags y (y.sharedResult result)
    rcases hj : e.judge flow kept flags y (y.sharedResult result) with ⟨t, verdict⟩
    rw [hj] at hjudge hrun
    dsimp only at hjudge hrun
    have hbefore : s.Aside { s with log := t.log } := hjudge.before (by rw [hkept]; rfl)
    cases verdict with
    | revise feedback issues =>
      have hturns : t.Turns { t with run := t.run.modify x.id fun y => y.reopen assignment }
          (t.run.modify x.id fun y => y.reopen assignment).executions [] :=
        ⟨rfl, rfl, rfl, Nat.le_refl _, (List.append_nil _).symm⟩
      rw [conclude_revise hfound hopen ha' hj, hid]
      exact .amend hbefore (hy ▸ .revise result now h)
        (hturns.swaps_of_update (hrun.trans (by rw [hkept])) hx hid)
        (by rintro a ⟨⟩; exact ⟨rfl, rfl, rfl⟩)
    | approved =>
      have hconcludes : x.Concludes now (y.finish (y.sharedResult result) now) :=
        hy ▸ .submit result h
      have hu := (hstep ▸ hid ▸ t.turns_take y (y.sharedResult result) now).swaps_of_update
        (hrun.trans (by rw [hkept])) hx hid
      have hv : e.Travels flow (t.take y (y.sharedResult result) now, { completed := true })
          (e.accept flow now flags t y (y.sharedResult result)) :=
        travels_accept now (hrun ▸ ha') flags y _
      rw [conclude_approved hfound hopen ha' hj, hid]
      generalize e.accept flow now flags t y (y.sharedResult result) = accepted at hv ⊢
      obtain ⟨v, a⟩ := accepted
      obtain ⟨z, hz, hzdone⟩ :=
        hv.find?_completed (Session.find?_take (hrun ▸ hfound) _ now) hconcludes.status
      have hrelease : v.Turns { v with run := v.run.modify x.id Execution.cancelPending }
          (v.run.modify x.id Execution.cancelPending).executions [] :=
        ⟨rfl, rfl, rfl, Nat.le_refl _, (List.append_nil _).symm⟩
      exact .accept hbefore ha rfl hconcludes hu hv
        (.inr ⟨z, hzdone, hrelease.swaps (hid ▸ hz)⟩) rfl

/-- So is a submission to a shared step. -/
theorem deed_submit (execution : String) :
    e.Deed flow s (.submit execution assignment result flags)
      (e.submit flow now flags s execution assignment result).1
      (e.submit flow now flags s execution assignment result).2.advance := by
  cases htakes : s.run.takes? execution assignment with
  | none =>
    rw [(submit_refused htakes).2.1, submit_refused_snd htakes]
    refine .idle (.refl s) ?_
    intro a ha
    split at ha
    · cases ha
    · split at ha <;> cases ha
  | some x =>
    obtain ⟨hx, hshared, hopen, hpending⟩ := Run.takes?_eq_some_iff.mp htakes
    obtain ⟨rfl, _⟩ := Run.marks_of_find? hx
    have htake : x.Takes assignment := ⟨hshared, hopen, hpending⟩
    cases hquorate : (x.submit assignment result now).isQuorate with
    | true =>
      rw [submit_taken htakes, if_pos hquorate]
      exact deed_conclude hx htake
    | false =>
      have hwaits : ¬ (x.submit assignment result now).isQuorate = true := by simp [hquorate]
      have hsilent : (e.submit flow now flags s x.id assignment result).2.advance = none := by
        rw [submit_taken htakes, if_neg hwaits]
      rw [(submit_waits htakes hwaits).1, hsilent]
      exact .amend (.refl s) (.wait result now htake hquorate) (Session.swaps_update hx _ now)
        (by rintro a ⟨⟩)

end Submission

/-- Giving an execution up changes it alone. -/
theorem deed_fail (execution reason : String) :
    e.Deed flow s (.fail execution reason) (s.fail execution reason now).1 none := by
  cases hx : s.run.find? execution with
  | none =>
    rw [Session.fail_none hx]
    exact .idle (.refl s) (by rintro a ⟨⟩)
  | some x =>
    rw [Session.fail_of hx]
    obtain ⟨rfl, _⟩ := Run.marks_of_find? hx
    cases hopen : x.status.isCompletable with
    | false => exact .idle (.refl s) (by rintro a ⟨⟩)
    | true =>
      have hturns : s.Turns
          ({ s with run := s.run.modify x.id fun x => x.fail reason now }.note (.failed x.id))
          (s.run.modify x.id fun x => x.fail reason now).executions [.failed x.id] :=
        ⟨rfl, rfl, rfl, Nat.le_refl _, rfl⟩
      exact .amend (.refl s) (.fail reason now hopen) (hturns.swaps hx) (by rintro a ⟨⟩)

/-- So does an escalation. -/
theorem deed_escalate (execution : String) :
    e.Deed flow s (.escalate execution) (s.escalate execution now).1 none := by
  unfold Session.escalate
  split
  · exact .idle (.refl s) (by rintro a ⟨⟩)
  · rename_i x hx
    split
    · rename_i hopen
      rw [Bool.and_eq_true] at hopen
      have hturns : s.Turns
          { s with run := s.run.modify execution fun x => { x with escalatedAt := some now } }
          (s.run.modify execution fun x => { x with escalatedAt := some now }).executions [] :=
        ⟨rfl, rfl, rfl, Nat.le_refl _, (List.append_nil _).symm⟩
      exact .amend (.refl s) (.escalate now hopen.1) (hturns.swaps hx) (by rintro a ⟨⟩)
    · exact .idle (.refl s) (by rintro a ⟨⟩)

/-- Every move does one thing. -/
theorem deed_play (m : Move) :
    e.Deed flow s m (e.play flow now s m).1 (e.play flow now s m).2.advance? := by
  cases m with
  | start flags => exact e.deed_start flow now s flags
  | complete execution result flags => exact e.deed_complete flow now s flags execution result
  | submit execution assignment result flags => exact deed_submit execution
  | fail execution reason => exact e.deed_fail flow now s execution reason
  | escalate execution => exact e.deed_escalate flow now s execution

/-- The least that becomes of a session. -/
inductive Stroke (e : Engine) (s s' : Session) : Prop
  | stride {flow : Flow} {a a' : Advance} (h : e.Stride flow (s, a) (s', a'))
  | amend {x y : Execution} {ns : List Notice} (h : x.Amends s.run y ns) (hs' : s.Swaps s' x y ns)
  | conclude {x y : Execution} {now : Instant} (ha : s.run.isActive = true) (h : x.Concludes now y)
      (hs' : s.Swaps s' x y [.completed x.id x.stepId y.status now])
  | ended (ha : s.run.isActive = true) (status : TerminateStatus) (now : Instant)
      (hs' : s' = s.endRun status now)

/-- All that becomes of a session, stroke by stroke. -/
def Strokes (e : Engine) : Session → Session → Prop :=
  Relation.ReflTransGen e.Stroke

variable {e flow now s} {s' : Session}

theorem Strides.strokes (h : e.Strides flow p q) : e.Strokes p.1 q.1 := by
  induction h with
  | refl => exact .refl
  | tail _ hstep ih => exact ih.tail (.stride hstep)

theorem Travels.strokes (h : e.Travels flow p q) : e.Strokes p.1 q.1 := by
  cases h with
  | onward h => exact h.strokes
  | ended h ha status now hq => exact h.strokes.tail (.ended ha status now (by rw [hq]))

theorem strokes_of_aside (h : s.Aside s') : e.Strokes s s' := by
  have hstride : e.Stride (.empty "" "") (s, {}) (s', {}) := .aside h
  exact .single (.stride hstride)

theorem Deed.strokes {m : Move} {r : Option Advance} (h : e.Deed flow s m s' r) :
    e.Strokes s s' := by
  cases h with
  | idle h => exact strokes_of_aside h
  | amend ht h hs' => exact (strokes_of_aside ht).tail (.amend h hs')
  | start _ _ h => exact h.strokes
  | accept ht ha _ h hu hv hs' =>
    have hway := ((strokes_of_aside ht).tail (.conclude ha h hu)).trans hv.strokes
    rcases hs' with rfl | ⟨z, hdone, hrelease⟩
    · exact hway
    · exact hway.tail (.amend (.release hdone) hrelease)

theorem strokes_play (m : Move) : e.Strokes s (e.play flow now s m).1 :=
  (e.deed_play flow now s m).strokes

end Engine

end Workflow
