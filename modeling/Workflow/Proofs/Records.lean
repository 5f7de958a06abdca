import Workflow.Proofs.Journal.Account

namespace Workflow

/-- An execution tells the position of its step in reading order, when it started and ended, and who
has it. -/
structure Execution.WellFormed (flow : Flow) (x : Execution) : Prop where
  position : ∃ k : Nat, flow.ids[k]? = some x.stepId ∧ x.stepIndex = k
  started : x.startedAt.isSome = true ↔ x.status ≠ .pending
  ended : x.completedAt.isSome = true ↔ x.status = .completed ∨ x.status = .failed
  shared : x.isShared = true ↔ 2 ≤ x.assignments.length
  single : x.isShared = true → x.assignee = none
  apart : x.status = .pending → x.fork = none

/-- Executions of which those that are expected are each the only one of a step of the main path. -/
structure Execution.WellKept (flow : Flow) (xs : List Execution) : Prop where
  wellFormed : ∀ x ∈ xs, x.WellFormed flow
  main : ∀ x ∈ xs, x.status = .pending → x.stepId ∈ flow.steps.map Step.id
  alone : ∀ i j : Nat, ∀ x y, xs[i]? = some x → xs[j]? = some y → x.status = .pending →
    y.stepId = x.stepId → j = i

structure Run.WellFormed (flow : Flow) (r : Run) : Prop where
  executions : Execution.WellKept flow r.executions
  ended : r.completedAt.isSome = true ↔ r.status ≠ .active

namespace Execution

theorem not_pending {x : Execution} (hopen : x.status.isCompletable = true) :
    x.status ≠ .pending := by
  intro hp
  rw [hp] at hopen
  cases hopen

/-- An execution that may stand in the record where another one stood. -/
structure Replaces (flow : Flow) (y x : Execution) : Prop where
  wellFormed : x.WellFormed flow → y.WellFormed flow
  step : y.stepId = x.stepId
  pending : y.status = .pending → x.status = .pending

namespace Replaces

variable {flow : Flow} {x y z : Execution}

theorem refl (x : Execution) : x.Replaces flow x :=
  ⟨fun h => h, rfl, fun h => h⟩

theorem trans (h : y.Replaces flow x) (h' : z.Replaces flow y) : z.Replaces flow x :=
  ⟨fun hx => h'.wellFormed (h.wellFormed hx), h'.step.trans h.step,
    fun hz => h.pending (h'.pending hz)⟩

theorem begun (hp : x.status = .pending) (step : Step) (fork : Option String)
    (flowDue : Option Instant) (now : Instant) :
    (x.begun step fork flowDue now).Replaces flow x where
  wellFormed h := by
    have hended : x.completedAt.isSome = false := by simpa [hp] using h.ended
    exact ⟨h.position, by simp [Execution.begun], by simp [Execution.begun, hended], h.shared,
      h.single, by simp [Execution.begun]⟩
  step := rfl
  pending h := by cases h

/-- An execution ends only after it has started. -/
theorem closed (hx : x.status ≠ .pending) {status : StepStatus}
    (hstatus : status = .completed ∨ status = .failed) (result : Record) (failure : String)
    (now : Instant) :
    { x with status, result, failure, completedAt := some now }.Replaces flow x where
  wellFormed h := by
    have hstarted := h.started.mpr hx
    have hne : status ≠ .pending := by rcases hstatus with rfl | rfl <;> decide
    exact ⟨h.position, by simp [hstarted, hne], by simp [hstatus], h.shared, h.single,
      fun hp => absurd hp hne⟩
  step := rfl
  pending h := by rcases hstatus with rfl | rfl <;> cases h

theorem finish (x : Execution) (result : Record) (now : Instant) :
    (x.finish result now).Replaces flow x := by
  unfold Execution.finish
  split
  · exact .refl x
  · rename_i status hmove
    have hx : x.status ≠ .pending := by
      intro hp
      rw [hp] at hmove
      cases hmove
    have hstatus : status = .completed := by
      unfold StepStatus.move? at hmove
      split at hmove <;> simp_all
    exact closed hx (.inl hstatus) result x.failure now

/-- What becomes of the assignments changes nothing of the record, as long as they stay as many. -/
theorem assignments {as : List Assignment} (has : as.length = x.assignments.length) :
    { x with assignments := as }.Replaces flow x where
  wellFormed h := ⟨h.position, h.started, h.ended, by rw [h.shared, has], h.single, h.apart⟩
  step := rfl
  pending h := h

theorem submit (x : Execution) (assignment : String) (result : Record) (now : Instant) :
    (x.submit assignment result now).Replaces flow x :=
  assignments (Sequence.length_modifyFirst _ _ _)

theorem reopen (x : Execution) (assignment : String) : (x.reopen assignment).Replaces flow x :=
  assignments (Sequence.length_modifyFirst _ _ _)

theorem cancelPending (x : Execution) : x.cancelPending.Replaces flow x :=
  assignments (List.length_map _)

theorem await (hopen : x.status.isCompletable = true) : x.await.Replaces flow x where
  wellFormed h := by
    have hx := not_pending hopen
    have hended : x.completedAt.isSome = false := by
      rw [← Bool.not_eq_true, h.ended]
      rintro (hs | hs) <;> rw [hs] at hopen <;> cases hopen
    rw [await_of hopen]
    exact ⟨h.position, by simp [h.started.mpr hx], by simp [hended], h.shared, h.single, nofun⟩
  step := rfl
  pending h := by
    rw [await_of hopen] at h
    cases h

end Replaces

variable {flow : Flow} {r : Run} {x y : Execution} {ns : List Notice} {now : Instant}

theorem Amends.replaces (h : x.Amends r y ns) : y.Replaces flow x := by
  cases h with
  | fail reason now hopen => exact .closed (not_pending hopen) (.inr rfl) x.result reason now
  | escalate now hopen =>
    exact ⟨fun h => ⟨h.position, h.started, h.ended, h.shared, h.single, h.apart⟩,
      rfl, fun h => h⟩
  | @wait assignment result now h =>
    have hopen : (x.submit assignment result now).status.isCompletable = true := h.isOpen
    exact (Replaces.submit x assignment result now).trans (.await hopen)
  | keep result now => exact .submit x _ result now
  | revise result now => exact (Replaces.submit x _ result now).trans (.reopen _ _)
  | release => exact .cancelPending x

end Execution

namespace Execution.WellKept

variable {flow : Flow} {xs : List Execution} {x y : Execution} {i : Nat}

theorem nil : WellKept flow [] where
  wellFormed _ hx := by cases hx
  main _ hx := by cases hx
  alone _ _ _ _ hx := by simp at hx

theorem set (h : WellKept flow xs) (hx : xs[i]? = some x) (hy : y.Replaces flow x) :
    WellKept flow (xs.set i y) := by
  have hxs := List.mem_of_getElem? hx
  -- what stands at a position has replaced what stood there
  have before : ∀ (j : Nat) z, (xs.set i y)[j]? = some z →
      ∃ w, xs[j]? = some w ∧ z.Replaces flow w := by
    intro j z hz
    by_cases hij : i = j
    · subst hij
      obtain ⟨hlt, -⟩ := List.getElem?_eq_some_iff.mp hx
      obtain rfl : y = z := by simpa [List.getElem?_set_self hlt] using hz
      exact ⟨x, hx, hy⟩
    · rw [List.getElem?_set_ne hij] at hz
      exact ⟨z, hz, .refl z⟩
  refine ⟨fun z hz => ?_, fun z hz hp => ?_, fun j k u v hu hv hp hstep => ?_⟩
  · rcases List.mem_or_eq_of_mem_set hz with hz | rfl
    · exact h.wellFormed z hz
    · exact hy.wellFormed (h.wellFormed x hxs)
  · rcases List.mem_or_eq_of_mem_set hz with hz | rfl
    · exact h.main z hz hp
    · exact hy.step ▸ h.main x hxs (hy.pending hp)
  · obtain ⟨u', hu', hreplaces⟩ := before j u hu
    obtain ⟨v', hv', hreplaces'⟩ := before k v hv
    exact h.alone j k u' v' hu' hv' (hreplaces.pending hp)
      (by rw [← hreplaces.step, ← hreplaces'.step, hstep])

/-- What comes to a record is well-formed. Where its step is expected it is not expected again, and
if it is expected itself it is the first of its step. -/
theorem add (h : WellKept flow xs) (hy : y.WellFormed flow)
    (hnone : ∀ x ∈ xs, x.stepId = y.stepId → x.status ≠ .pending)
    (hpending : y.status = .pending → y.stepId ∈ flow.steps.map Step.id ∧
      ∀ x ∈ xs, x.stepId ≠ y.stepId) : WellKept flow (xs ++ [y]) := by
  refine ⟨fun z hz => ?_, fun z hz hp => ?_, fun j k u v hu hv hp hstep => ?_⟩
  · rcases List.mem_append.mp hz with hz | hz
    · exact h.wellFormed z hz
    · exact List.mem_singleton.mp hz ▸ hy
  · rcases List.mem_append.mp hz with hz | hz
    · exact h.main z hz hp
    · obtain rfl := List.mem_singleton.mp hz
      exact (hpending hp).1
  · rcases Sequence.getElem?_append_singleton_iff.mp hu with hold | ⟨rfl, rfl⟩
    · rcases Sequence.getElem?_append_singleton_iff.mp hv with hold' | ⟨rfl, rfl⟩
      · exact h.alone j k u v hold hold' hp hstep
      · exact absurd hp (hnone u (List.mem_of_getElem? hold) hstep.symm)
    · rcases Sequence.getElem?_append_singleton_iff.mp hv with hold' | ⟨rfl, rfl⟩
      · exact absurd hstep ((hpending hp).2 v (List.mem_of_getElem? hold'))
      · rfl

theorem modify (h : WellKept flow xs) (p : Execution → Bool) {change : Execution → Execution}
    (hchange : ∀ x, (change x).Replaces flow x) :
    WellKept flow (Sequence.modifyFirst p change xs) := by
  cases hfind : xs.find? p with
  | none =>
    rw [Sequence.modifyFirst_eq_self fun x hx => by rw [hfind] at hx; cases hx]
    exact h
  | some x =>
    obtain ⟨i, hi, hset⟩ := Sequence.modifyFirst_eq_set hfind change
    exact hset ▸ h.set hi (hchange x)

end Execution.WellKept

namespace Session

variable {flow : Flow} {s s' : Session} {xs : List Execution} {x y : Execution} {ns : List Notice}

theorem Turns.wellFormed (h : s.Turns s' xs ns) (hs : s.run.WellFormed flow)
    (hxs : Execution.WellKept flow xs) : s'.run.WellFormed flow :=
  ⟨h.executions ▸ hxs, by rw [h.status, h.completedAt]; exact hs.ended⟩

theorem Aside.wellFormed (h : s.Aside s') (hs : s.run.WellFormed flow) :
    s'.run.WellFormed flow := by
  obtain ⟨_, h, -⟩ := h
  exact h.wellFormed hs hs.executions

theorem Swaps.wellFormed (h : s.Swaps s' x y ns) (hs : s.run.WellFormed flow)
    (hy : y.Replaces flow x) : s'.run.WellFormed flow := by
  obtain ⟨i, hx, h⟩ := h
  exact h.wellFormed hs (hs.executions.set hx hy)

theorem wellFormed_modify (hs : s.run.WellFormed flow) (id : String)
    {change : Execution → Execution} (hchange : ∀ x, (change x).Replaces flow x) :
    (s.run.modify id change).WellFormed flow :=
  ⟨hs.executions.modify _ hchange, hs.ended⟩

theorem wellFormed_endRun (hs : s.run.WellFormed flow) (status : TerminateStatus) (now : Instant) :
    (s.endRun status now).run.WellFormed flow :=
  ⟨hs.executions, by cases status <;> simp [endRun, note]⟩

end Session

/-- The position of a step is its place in reading order. -/
theorem Session.exists_position {flow : Flow} {stepId : String} (hstep : stepId ∈ flow.ids) :
    ∃ k : Nat, flow.ids[k]? = some stepId ∧ position flow stepId = k := by
  obtain ⟨k, hk⟩ := Option.isSome_iff_exists.mp (List.isSome_idxOf?.mpr hstep)
  obtain ⟨hlt, hget, -⟩ := List.idxOf?_eq_some_iff.mp hk
  exact ⟨k, List.getElem?_eq_some_iff.mpr ⟨hlt, hget⟩, by rw [position, hk]; rfl⟩

/-- A new execution is shared if it has several assignees, and is somebody's own if it has one. -/
theorem Execution.wellFormed_assign {flow : Flow} {id stepId : String} {quorum : Quorum}
    (hstep : stepId ∈ flow.ids) (newId : Nat → String) (assignees : List Assignee) :
    ((Execution.assign { id, stepId, stepIndex := Session.position flow stepId, quorum } newId
      assignees).WellFormed flow) := by
  have hposition := Session.exists_position hstep
  rcases assignees with _ | ⟨a, _ | ⟨b, rest⟩⟩
  · exact ⟨hposition, by simp [assign], by simp [assign], by simp [assign], by simp [assign],
      fun _ => rfl⟩
  · exact ⟨hposition, by simp [assign], by simp [assign], by simp [assign], by simp [assign],
      fun _ => rfl⟩
  · exact ⟨hposition, by simp [assign], by simp [assign], by simp [assign], fun _ => rfl,
      fun _ => rfl⟩

namespace Engine

variable {e : Engine} {flow : Flow} {now : Instant} {s : Session} {step : Step}

theorem wellFormed_expected (hstep : step.id ∈ flow.ids) :
    (e.expected flow s step).WellFormed flow :=
  Execution.wellFormed_assign hstep _ _

theorem stepId_expected : (e.expected flow s step).stepId = step.id :=
  congrArg Mark.step (e.mark_expected flow s step)

/-- Either a step is expected already, or it is from now on. -/
theorem materialize_expects (e : Engine) (flow : Flow) (s : Session) (step : Step) :
    (∃ i x, e.materialize flow s step = (s, i) ∧ s.run.executions[i]? = some x ∧
      x.stepId = step.id ∧ x.status = .pending) ∨
    (∀ x ∈ s.run.executions, x.stepId = step.id → x.status ≠ .pending) ∧
      e.materialize flow s step = (e.expect flow s step, s.run.executions.length) ∧
      (e.expect flow s step).run =
        { s.run with executions := s.run.executions ++ [e.expected flow s step] } := by
  rcases e.materialize_cases flow s step with h | ⟨hnone, h⟩
  · exact .inl h
  · refine .inr ⟨fun x hx hstep hp => ?_, h, (e.expect_fields flow s step).1⟩
    refine hnone x.mark (List.mem_map_of_mem hx) hstep ?_
    rw [Execution.mark, hp]
    rfl

/-- What starts was expected, or is expected and started in one go. -/
theorem wellFormed_activate (hs : s.run.WellFormed flow) (hstep : step.id ∈ flow.ids)
    (fork : Option String) : (e.activate flow now s step fork).1.run.WellFormed flow := by
  rcases e.materialize_expects flow s step with ⟨i, x, h, hx, -, hp⟩ | ⟨hnone, h, hrun⟩
  · exact (activate_swaps now fork h hx hp).2.wellFormed hs (.begun hp step fork _ now)
  · have hx : (e.expect flow s step).run.executions[s.run.executions.length]? =
        some (e.expected flow s step) := by simp [hrun]
    have hp := e.status_expected flow s step
    have hbegun : ((e.expected flow s step).begun step fork s.run.dueAt now).Replaces flow
        (e.expected flow s step) := .begun hp step fork s.run.dueAt now
    obtain ⟨y, -, hy, -, hset⟩ := activate_at now fork h hx hp
    obtain ⟨hstarts, _, -, hturns⟩ := activate_swaps now fork h hx hp
    obtain rfl := Option.some.inj (hstarts.symm.trans hy)
    have hadd : (e.activate flow now s step fork).1.run.executions = s.run.executions ++
        [(e.expected flow s step).begun step fork s.run.dueAt now] := by
      simp [hset, hrun]
    refine ⟨hadd ▸
      hs.executions.add (hbegun.wellFormed (wellFormed_expected hstep)) ?_ nofun, ?_⟩
    · rw [hbegun.step, stepId_expected]
      exact hnone
    · rw [hturns.status, hturns.completedAt, hrun]
      exact hs.ended

theorem wellFormed_pass {m : Motion} (hm : m.session.run.WellFormed flow) (x : Execution)
    (step : Step) (fork : Option String) :
    (e.pass flow now m x step fork).session.run.WellFormed flow := by
  cases hb : m.budget with
  | zero =>
    rw [pass_zero hb]
    exact hm
  | succ budget =>
    rw [pass_succ hb]
    exact ⟨hm.executions.modify _ fun y => .finish y [] now, hm.ended⟩

/-- Records stay well-formed when a step starts. -/
theorem wellFormed_follow {m : Motion} (hm : m.session.run.WellFormed flow) (a : Activation) :
    (e.follow flow now m a).session.run.WellFormed flow := by
  cases hf : flow.find? a.step with
  | none =>
    rw [(followJournal_none e now m hf).2]
    exact hm
  | some place =>
    obtain ⟨x, hx, -⟩ := e.activate_starts flow now m.session place.step a.fork
    have hstep : place.step.id ∈ flow.ids := by
      rw [← flow.map_id_places]
      exact List.mem_map_of_mem (List.mem_of_find?_eq_some hf)
    have hactivate : (e.activate flow now m.session place.step a.fork).1.run.WellFormed flow :=
      wellFormed_activate hm hstep a.fork
    rw [follow_of hf hx]
    split
    · exact wellFormed_pass hactivate x place.step a.fork
    · exact hactivate

theorem wellFormed_drive {m : Motion} (hm : m.session.run.WellFormed flow) :
    (e.drive flow now m).session.run.WellFormed flow := by
  refine drive_keeps (P := fun _ m => m.session.run.WellFormed flow) ?_ ?_ ?_ [] m hm
  · intro _ m plan rest _ _ hm
    exact ⟨hm.executions, hm.ended⟩
  · intro _ m a hm
    exact wellFormed_follow hm a
  · intro _ m plan rest status _ _ hm
    exact Session.wellFormed_endRun (s := ({ m with pending := rest }.mark plan).session)
      ⟨hm.executions, hm.ended⟩ status now

theorem wellFormed_propagate (hs : s.run.WellFormed flow) (flags : Flags) (plan : Plan)
    (advance : Advance) : (e.propagate flow now flags s plan advance).1.run.WellFormed flow := by
  have hdrive : (e.drive flow now (e.setOut s plan advance)).session.run.WellFormed flow :=
    wellFormed_drive hs
  rw [run_propagate]
  unfold travel
  dsimp only
  split
  · exact Session.wellFormed_endRun hdrive .completed now
  · exact hdrive

/-- As long as everything in a record is expected, a step of the main path can be. -/
theorem wellFormed_expectAll (steps : List Step) (hsteps : steps ⊆ flow.steps)
    (hs : s.run.WellFormed flow) (hall : ∀ x ∈ s.run.executions, x.status = .pending) :
    (e.expectAll flow s steps).run.WellFormed flow := by
  induction steps generalizing s with
  | nil => exact hs
  | cons step rest ih =>
    have hrest : rest ⊆ flow.steps := fun t ht => hsteps (List.mem_cons_of_mem _ ht)
    have hmain : step.id ∈ flow.steps.map Step.id :=
      List.mem_map_of_mem (hsteps List.mem_cons_self)
    have hstep : step.id ∈ flow.ids := (Step.map_id_sublist flow.steps).subset hmain
    rcases e.materialize_expects flow s step with ⟨i, x, h, -⟩ | ⟨hnone, h, hrun⟩
    · have hsame : e.expectAll flow s (step :: rest) = e.expectAll flow s rest := by
        simp [expectAll, h]
      exact hsame ▸ ih hrest hs hall
    · have hnext : e.expectAll flow s (step :: rest) =
          e.expectAll flow (e.expect flow s step) rest := by simp [expectAll, h]
      rw [hnext]
      refine ih hrest ⟨?_, by rw [hrun]; exact hs.ended⟩ ?_
      · rw [hrun]
        refine hs.executions.add (wellFormed_expected hstep) ?_ fun _ => ?_
        · rw [stepId_expected]
          exact hnone
        · rw [stepId_expected]
          exact ⟨hmain, fun x hx hsame => hnone x hx hsame (hall x hx)⟩
      · intro x hx
        rw [hrun] at hx
        rcases List.mem_append.mp hx with hx | hx
        · exact hall x hx
        · exact List.mem_singleton.mp hx ▸ e.status_expected flow s step

/-- They are well-formed once a run has started. -/
theorem wellFormed_start (hs : s.run.WellFormed flow) (flags : Flags) :
    (e.start flow now flags s).1.run.WellFormed flow := by
  by_cases h : s.run.isActive = true → s.run.executions ≠ []
  · rw [start_again h]
    exact hs
  · obtain ⟨ha, hx⟩ := Classical.not_imp.mp h
    have hnone : s.run.executions = [] := not_not.mp hx
    have hready : (e.ready flow now s).run.WellFormed flow := by
      refine wellFormed_expectAll flow.steps (List.Subset.refl _) ⟨hs.executions, hs.ended⟩ ?_
      simp [Session.dated, hnone]
    rw [start_fresh ha hnone]
    cases flow.steps with
    | nil => exact Session.wellFormed_endRun hready .completed now
    | cons first rest => exact wellFormed_propagate hready flags _ _

theorem wellFormed_accept (hs : s.run.WellFormed flow) (flags : Flags) (x : Execution)
    (result : Record) : (e.accept flow now flags s x result).1.run.WellFormed flow := by
  have htake : (s.take x result now).run.WellFormed flow :=
    ⟨hs.executions.modify _ fun y => .finish y result now, hs.ended⟩
  cases hf : flow.find? x.stepId with
  | none =>
    unfold accept
    simp only [hf]
    exact htake
  | some place =>
    rw [accept_of hf]
    exact wellFormed_propagate ((Session.aside_settle _ _).wellFormed htake) flags _ _

theorem wellFormed_complete (hs : s.run.WellFormed flow) (flags : Flags) (execution : String)
    (result : Record) : (e.complete flow now flags s execution result).1.run.WellFormed flow := by
  rcases e.complete_cases flow now s flags execution result with
    ⟨-, hrun, -⟩ | ⟨x, t, -, -, -, -, -, hrun, h⟩
  · exact hrun ▸ hs
  · rw [h]
    exact wellFormed_accept (hrun ▸ hs) flags x result

theorem wellFormed_conclude (hs : s.run.WellFormed flow) (flags : Flags) (x : Execution)
    (assignment : String) (result : Record) :
    (e.conclude flow now flags s x assignment result).1.run.WellFormed flow := by
  have hcomplete :
      (e.complete flow now flags s x.id (x.sharedResult result)).1.run.WellFormed flow :=
    wellFormed_complete hs flags x.id (x.sharedResult result)
  unfold conclude
  dsimp only
  split
  · exact Session.wellFormed_modify hcomplete _ Execution.Replaces.cancelPending
  · split
    · exact Session.wellFormed_modify hcomplete _ fun y => .reopen y assignment
    · exact hcomplete

/-- They stay well-formed on a submission to a shared step. -/
theorem wellFormed_submit (hs : s.run.WellFormed flow) (flags : Flags)
    (execution assignment : String) (result : Record) :
    (e.submit flow now flags s execution assignment result).1.run.WellFormed flow := by
  cases htakes : s.run.takes? execution assignment with
  | none =>
    rw [(submit_refused htakes).2.1]
    exact hs
  | some x =>
    obtain ⟨hx, hshared, hopen, hpending⟩ := Run.takes?_eq_some_iff.mp htakes
    have hsubmit : (x.submit assignment result now).Replaces flow x :=
      .submit x assignment result now
    cases hquorate : (x.submit assignment result now).isQuorate with
    | true =>
      rw [submit_taken htakes, if_pos hquorate]
      exact wellFormed_conclude ((Session.swaps_update hx _ now).wellFormed hs hsubmit) flags _
        assignment result
    | false =>
      obtain ⟨rfl, -⟩ := Run.marks_of_find? hx
      rw [(submit_waits htakes (by simp [hquorate])).1]
      exact (Session.swaps_update hx _ now).wellFormed hs (hsubmit.trans (.await hopen))

/-- They stay well-formed on every move. -/
theorem wellFormed_play (hs : s.run.WellFormed flow) (m : Move) :
    (e.play flow now s m).1.run.WellFormed flow := by
  have quiet : ∀ {t : Session} {m : Move}, e.Deed flow s m t none → t.run.WellFormed flow := by
    intro t m h
    cases h with
    | idle h => exact h.wellFormed hs
    | amend ht h ht' => exact ht'.wellFormed (ht.wellFormed hs) h.replaces
    | start _ _ _ hr | accept _ _ _ _ _ _ _ hr => cases hr
  cases m with
  | start flags => exact wellFormed_start hs flags
  | complete execution result flags => exact wellFormed_complete hs flags execution result
  | submit execution assignment result flags =>
    exact wellFormed_submit hs flags execution assignment result
  | fail execution reason => exact quiet (e.deed_fail flow now s execution reason)
  | escalate execution => exact quiet (e.deed_escalate flow now s execution)

/-- The sessions that come about when calls are made on a run that was made, in any order and at any
times. Calls that are refused count. -/
inductive Arises (e : Engine) (flow : Flow) : Session → Prop where
  | made {s : Session} (hs : s.run.IsFresh) (hended : s.run.completedAt = none) : Arises e flow s
  | move {s : Session} (hs : Arises e flow s) (now : Instant) (m : Move) :
      Arises e flow (e.play flow now s m).1

theorem wellFormed_made (hs : s.run.IsFresh) (hended : s.run.completedAt = none) :
    s.run.WellFormed flow := by
  have hactive := (Run.isActive_iff _).mp hs.active
  exact ⟨hs.executions ▸ .nil, by simp [hended, hactive]⟩

/-- The records of a run are well-formed. The position of an execution is that of its step in the
whole tree. What is expected is the only execution of a step of the main path, has not started and
is on no path. Times, assignees and the end of the run agree with the statuses. So there is always
an execution that can start when a step is reached. -/
theorem Arises.records_wellFormed (h : e.Arises flow s) :
    s.run.WellFormed flow ∧ ∀ step fork now,
      ∃ x, (e.materialize flow s step).1.run.executions[(e.materialize flow s step).2]? =
        some x ∧
        x.stepId = step.id ∧ x.status = .pending ∧
        (e.activate flow now s step fork).2 = some (x.begun step fork s.run.dueAt now) := by
  constructor
  · induction h with
    | made hs hended => exact wellFormed_made hs hended
    | move _ now m ih => exact wellFormed_play ih m
  · intro step fork now
    rcases e.materialize_expects flow s step with ⟨i, x, h, hx, hstep, hp⟩ | ⟨-, h, hrun⟩
    · exact ⟨x, by rw [h]; exact hx, hstep, hp, (activate_swaps now fork h hx hp).1⟩
    · have hx : (e.expect flow s step).run.executions[s.run.executions.length]? =
          some (e.expected flow s step) := by simp [hrun]
      have hp := e.status_expected flow s step
      have hdue : (e.expect flow s step).run.dueAt = s.run.dueAt := by rw [hrun]
      refine ⟨e.expected flow s step, by rw [h]; exact hx, stepId_expected, hp, ?_⟩
      rw [(activate_swaps now fork h hx hp).1, hdue]

end Engine

namespace Sample

/-- A step that is asked for again and again, and one that is never reached. -/
def loop : Flow :=
  { Flow.empty "loop" "" with
    steps := [⟨"gate", "", "", "", none, [], .gotoDestination "gate"⟩, Step.ofType "ask" .form,
      ⟨"back", "", "", "", none, [], .goto "gate"⟩, Step.ofType "done" .form] }

/-- The step was asked for once, and is asked for again. -/
def looped : Session :=
  (engine.play loop ⟨0⟩ (engine.play loop ⟨0⟩ { run := {} } (.start {})).1
    (.complete "exec_1" [] {})).1

theorem arises_looped : engine.Arises loop looped :=
  .move (.move (.made ⟨rfl, rfl, rfl⟩ rfl) _ _) _ _

end Sample

/-- What is never reached is still expected, with its position behind the loop. -/
theorem Engine.Arises.records_wellFormed_looped :
    Sample.looped.run.executions.map (fun x => (x.stepId, x.status)) =
        [("gate", .completed), ("ask", .completed), ("back", .completed), ("done", .pending),
          ("gate", .completed), ("ask", .inProgress)] ∧
      Sample.looped.run.WellFormed Sample.loop ∧
      ∃ x, (Sample.engine.activate Sample.loop ⟨0⟩ Sample.looped
        (Step.ofType "done" .form) none).2 =
        some x := by
  obtain ⟨hrecords, hstarts⟩ := records_wellFormed Sample.arises_looped
  obtain ⟨x, -, -, -, hx⟩ := hstarts (Step.ofType "done" .form) none ⟨0⟩
  exact ⟨by cbv, hrecords, _, hx⟩

end Workflow
