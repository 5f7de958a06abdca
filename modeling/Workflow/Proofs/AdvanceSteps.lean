import Mathlib.Logic.Relation
import Workflow.Proofs.Alike
import Workflow.Proofs.Simulation

namespace Workflow

/-- Whether a notice is only of questions and of work that is handed on, and not of what becomes of
an execution or of the run. -/
def Notice.isAside : Notice → Bool
  | .resolved _ _ | .reviewed _ _ | .automated _ _ => true
  | .activated _ _ _ _ | .completed _ _ _ _ | .failed _ | .ended _ _ => false

namespace Session

/-- The run has other executions, and something was noted. The run does not end. -/
structure Turns (s s' : Session) (xs : List Execution) (ns : List Notice) : Prop where
  executions : s'.run.executions = xs
  status : s'.run.status = s.run.status
  completedAt : s'.run.completedAt = s.run.completedAt
  drawn : s.log.drawn ≤ s'.log.drawn
  notices : s'.log.notices = s.log.notices ++ ns

/-- Nothing becomes of any execution, nor of the run. -/
def Aside (s s' : Session) : Prop :=
  ∃ ns, s.Turns s' s.run.executions ns ∧ ∀ n ∈ ns, n.isAside = true

/-- One execution is in another state, and something was noted. -/
def Swaps (s s' : Session) (x y : Execution) (ns : List Notice) : Prop :=
  ∃ i, s.run.executions[i]? = some x ∧ s.Turns s' (s.run.executions.set i y) ns

variable {s s' s'' : Session} {xs ys : List Execution} {ns ns' : List Notice}

theorem Turns.refl (s : Session) : s.Turns s s.run.executions [] :=
  ⟨rfl, rfl, rfl, Nat.le_refl _, (List.append_nil _).symm⟩

theorem Turns.trans (h : s.Turns s' xs ns) (h' : s'.Turns s'' ys ns') :
    s.Turns s'' ys (ns ++ ns') :=
  ⟨h'.executions, h'.status.trans h.status, h'.completedAt.trans h.completedAt,
    Nat.le_trans h.drawn h'.drawn, by rw [h'.notices, h.notices, List.append_assoc]⟩

theorem Swaps.status {x y : Execution} (h : s.Swaps s' x y ns) :
    s'.run.status = s.run.status := by
  obtain ⟨_, _, h⟩ := h
  exact h.status

theorem Turns.isActive (h : s.Turns s' xs ns) : s'.run.isActive = s.run.isActive := by
  rw [Run.isActive, h.status]
  rfl

theorem turns_finish (s : Session) (id : String) (result : Record) (now : Instant) :
    s.Turns (s.finish id result now) (s.run.modify id fun y => y.finish result now).executions [] :=
  ⟨rfl, rfl, rfl, Nat.le_refl _, (List.append_nil _).symm⟩

theorem Turns.settle (h : s.Turns s' xs ns) (p : Planned) : s.Turns (s'.settle p) xs ns :=
  ⟨h.executions, h.status, h.completedAt,
    Nat.le_trans h.drawn (Nat.le_add_right _ _), h.notices⟩

theorem Aside.refl (s : Session) : s.Aside s :=
  ⟨[], .refl s, by simp⟩

theorem Aside.trans (h : s.Aside s') (h' : s'.Aside s'') : s.Aside s'' := by
  obtain ⟨ns, hs, hns⟩ := h
  obtain ⟨ns', hs', hns'⟩ := h'
  rw [hs.executions] at hs'
  refine ⟨ns ++ ns', hs.trans hs', fun n hn => ?_⟩
  rcases List.mem_append.mp hn with hn | hn
  · exact hns n hn
  · exact hns' n hn

theorem Aside.executions (h : s.Aside s') : s'.run.executions = s.run.executions := by
  obtain ⟨_, h, _⟩ := h
  exact h.executions

theorem Aside.isActive (h : s.Aside s') : s'.run.isActive = s.run.isActive := by
  obtain ⟨_, h, _⟩ := h
  exact h.isActive

/-- A change of the run that leaves its executions and its end alone. -/
theorem Aside.of_run (hx : s'.run.executions = s.run.executions)
    (hs : s'.run.status = s.run.status) (hc : s'.run.completedAt = s.run.completedAt)
    (hlog : s'.log = s.log) : s.Aside s' :=
  ⟨[], ⟨hx, hs, hc, Nat.le_of_eq (by rw [hlog]), by rw [hlog, List.append_nil]⟩, by simp⟩

theorem aside_note (s : Session) {n : Notice} (hn : n.isAside = true) : s.Aside (s.note n) :=
  ⟨[n], ⟨rfl, rfl, rfl, Nat.le_refl _, rfl⟩, by simp [hn]⟩

theorem aside_draw (s : Session) (n : Nat) : s.Aside (s.draw n) :=
  ⟨[], ⟨rfl, rfl, rfl, Nat.le_add_right _ _, (List.append_nil _).symm⟩, by simp⟩

theorem aside_settle (s : Session) (p : Planned) : s.Aside (s.settle p) :=
  (s.aside_draw _).trans (.of_run rfl rfl rfl rfl)

end Session

namespace Execution

def begun (x : Execution) (step : Step) (fork : Option String) (flowDue : Option Instant)
    (now : Instant) : Execution :=
  { x with
    status := .inProgress
    startedAt := some now
    fork := fork
    dueAt := step.due.bind fun d => d.ofStep now flowDue }

theorem start?_of_pending {x : Execution} (h : x.status = .pending) (step : Step)
    (fork : Option String) (flowDue : Option Instant) (now : Instant) :
    x.start? step fork flowDue now = some (x.begun step fork flowDue now) := by
  unfold start?
  rw [h]
  rfl

end Execution

namespace Engine

def timers (e : Engine) (x : Execution) (now : Instant) : List Timer :=
  match x.dueAt with
  | some due => e.policy.reminders.timers due now
  | none => []

/-- The least that is done on the way of a run, and what it adds to the answer. -/
inductive Stride (e : Engine) (flow : Flow) : Session × Advance → Session × Advance → Prop
  | aside {s s' : Session} {a : Advance} (h : s.Aside s') : Stride e flow (s, a) (s', a)
  /-- A step is expected that was not. -/
  | expect {s s' : Session} {a : Advance} {step : Step} {ns : List Notice}
      (hnone : ∀ x ∈ s.run.executions, x.stepId = step.id → x.status ≠ .pending)
      (h : s.Turns s' (s.run.executions ++ [e.expected flow s step]) ns)
      (hns : ∀ n ∈ ns, n.isAside = true)
      (hdrawn : s.log.drawn + 1 + (e.expected flow s step).assignments.length ≤ s'.log.drawn) :
      Stride e flow (s, a) (s', a)
  /-- A step starts and waits for someone. -/
  | announce {s s' : Session} {a : Advance} {x : Execution} {step : Step} {fork : Option String}
      {now : Instant} (ha : s.run.isActive = true) (hp : x.status = .pending)
      (hstep : x.stepId = step.id) (hwaits : step.body.isPassThrough = false)
      (h : s.Swaps s' x (x.begun step fork s.run.dueAt now)
        [.activated (x.begun step fork s.run.dueAt now) step s.run.dueAt
          (e.timers (x.begun step fork s.run.dueAt now) now)]) :
      Stride e flow (s, a) (s', a.activate (x.begun step fork s.run.dueAt now) step)
  /-- A step starts that would be over at once, but for the limit of the chain. -/
  | park {s s' : Session} {a : Advance} {x : Execution} {step : Step} {fork : Option String}
      {now : Instant} (ha : s.run.isActive = true) (hp : x.status = .pending)
      (hstep : x.stepId = step.id) (hpass : step.body.isPassThrough = true)
      (h : s.Swaps s' x (x.begun step fork s.run.dueAt now) []) :
      Stride e flow (s, a) (s', a)
  /-- A step starts and is over. The execution that finishes is looked up by its identifier. -/
  | pass {s t s' : Session} {a : Advance} {x : Execution} {step : Step} {fork : Option String}
      {now : Instant} (ha : s.run.isActive = true) (hp : x.status = .pending)
      (hstep : x.stepId = step.id) (hpass : step.body.isPassThrough = true)
      (h : s.Swaps t x (x.begun step fork s.run.dueAt now) [])
      (hfinish : t.Turns s' (t.run.modify x.id fun y => y.finish [] now).executions []) :
      Stride e flow (s, a) (s', a)

def Strides (e : Engine) (flow : Flow) : Session × Advance → Session × Advance → Prop :=
  Relation.ReflTransGen (e.Stride flow)

/-- All the way of a run that goes on: some strides, and maybe the end of the run. -/
inductive Travels (e : Engine) (flow : Flow) (p q : Session × Advance) : Prop
  | onward (h : e.Strides flow p q)
  | ended {s : Session} {a : Advance} (h : e.Strides flow p (s, a)) (ha : s.run.isActive = true)
      (status : TerminateStatus) (now : Instant)
      (hq : q = (s.endRun status now,
        { a with flowCompleted := a.flowCompleted || status == .completed }))

variable {e : Engine} {flow : Flow} {p q r : Session × Advance}

theorem Stride.strides (h : e.Stride flow p q) : e.Strides flow p q :=
  .single h

theorem Strides.aside {s s' : Session} (h : s.Aside s') (a : Advance) :
    e.Strides flow (s, a) (s', a) :=
  (Stride.aside h).strides

theorem Stride.status (h : e.Stride flow p q) : q.1.run.status = p.1.run.status := by
  cases h with
  | aside h =>
    obtain ⟨_, h, _⟩ := h
    exact h.status
  | expect _ h => exact h.status
  | announce _ _ _ _ h | park _ _ _ _ h => exact h.status
  | pass _ _ _ _ h hfinish => exact hfinish.status.trans h.status

theorem Strides.status (h : e.Strides flow p q) : q.1.run.status = p.1.run.status := by
  induction h with
  | refl => rfl
  | tail _ hstep ih => exact hstep.status.trans ih

theorem Strides.isActive (h : e.Strides flow p q) : q.1.run.isActive = p.1.run.isActive := by
  rw [Run.isActive, h.status]
  rfl

theorem Travels.after (h : e.Strides flow p q) (h' : e.Travels flow q r) :
    e.Travels flow p r := by
  cases h' with
  | onward h' => exact .onward (h.trans h')
  | ended h' ha status now hq => exact .ended (h.trans h') ha status now hq

section Way

variable (e flow) (now : Instant) (s : Session)

theorem mark_expected (step : Step) :
    (e.expected flow s step).mark = ⟨e.nextId s "exec", step.id, none, .expected⟩ :=
  Execution.mark_assign _ _ _

theorem status_expected (step : Step) : (e.expected flow s step).status = .pending :=
  Execution.status_of_expected _ (congrArg Mark.standing (e.mark_expected flow s step))

theorem turns_resolve (step : Step) :
    ∃ ns, s.Turns (e.resolve s step).1 s.run.executions ns ∧
      ∀ n ∈ ns, n.isAside = true := by
  unfold resolve
  split
  · exact Session.Aside.refl s
  · split
    · exact s.aside_note rfl
    · exact Session.Aside.refl s

theorem turns_expect (step : Step) :
    ∃ ns, s.Turns (e.expect flow s step) (s.run.executions ++ [e.expected flow s step]) ns ∧
      ∀ n ∈ ns, n.isAside = true := by
  obtain ⟨ns, hresolve, hns⟩ := e.turns_resolve (s.draw 1) step
  obtain ⟨hrun, hdrawn, _⟩ := e.expect_fields flow s step
  have hnotices : (e.expect flow s step).log.notices = (e.resolve (s.draw 1) step).1.log.notices :=
    rfl
  refine ⟨ns, ⟨by rw [hrun], by rw [hrun], by rw [hrun], by omega, ?_⟩, hns⟩
  rw [hnotices, hresolve.notices]
  rfl

/-- Once a step is seen to, an execution of it is expected. -/
theorem strides_materialize (step : Step) (a : Advance) :
    e.Strides flow (s, a) ((e.materialize flow s step).1, a) ∧
      ∃ x, (e.materialize flow s step).1.run.executions[(e.materialize flow s step).2]? =
        some x ∧
        x.status = .pending ∧ x.stepId = step.id := by
  rcases e.materialize_cases flow s step with ⟨i, x, h, hx, hstep, hp⟩ | ⟨hnone, h⟩
  · rw [h]
    exact ⟨.refl, x, hx, hp, hstep⟩
  · obtain ⟨ns, hturns, hns⟩ := e.turns_expect flow s step
    obtain ⟨_, hdrawn, _⟩ := e.expect_fields flow s step
    rw [h]
    refine ⟨(Stride.expect ?_ hturns hns hdrawn.symm.le).strides, e.expected flow s step, ?_,
      e.status_expected flow s step, congrArg Mark.step (e.mark_expected flow s step)⟩
    · intro x hx hstep hp
      refine hnone x.mark (List.mem_map_of_mem hx) hstep ?_
      rw [Execution.mark, hp]
      rfl
    · rw [hturns.executions]
      simp

theorem strides_expectAll (steps : List Step) (a : Advance) :
    e.Strides flow (s, a) (e.expectAll flow s steps, a) := by
  induction steps generalizing s with
  | nil => exact .refl
  | cons step rest ih => exact (e.strides_materialize flow s step a).1.trans (ih _)

theorem strides_ready (a : Advance) : e.Strides flow (s, a) (e.ready flow now s, a) := by
  have haside : s.Aside (s.dated flow now) := .of_run rfl rfl rfl rfl
  exact (Strides.aside haside a).trans (e.strides_expectAll flow _ flow.steps a)

variable {e flow s}

/-- Activating a step starts the execution that is expected then. -/
theorem activate_swaps {t : Session} {i : Nat} {x : Execution} {step : Step} (fork : Option String)
    (h : e.materialize flow s step = (t, i)) (hx : t.run.executions[i]? = some x)
    (hp : x.status = .pending) :
    (e.activate flow now s step fork).2 = some (x.begun step fork t.run.dueAt now) ∧
      t.Swaps (e.activate flow now s step fork).1 x (x.begun step fork t.run.dueAt now)
        (if step.body.isPassThrough then []
          else [.activated (x.begun step fork t.run.dueAt now) step t.run.dueAt
            (e.timers (x.begun step fork t.run.dueAt now) now)]) := by
  unfold activate
  rw [h]
  simp only [hx, Option.bind_some, Execution.start?_of_pending hp]
  cases step.body.isPassThrough with
  | true => exact ⟨rfl, i, hx, rfl, rfl, rfl, Nat.le_refl _, (List.append_nil _).symm⟩
  | false => exact ⟨rfl, i, hx, rfl, rfl, rfl, Nat.le_refl _, rfl⟩

/-- What a motion has come to, as far as it counts for the run and the answer. -/
def view (m : Motion) : Session × Advance :=
  (m.session, m.advance)

theorem stride_pass {m : Motion} {x : Execution} {step : Step} {fork : Option String}
    (ha : s.run.isActive = true) (hp : x.status = .pending) (hstep : x.stepId = step.id)
    (hpass : step.body.isPassThrough = true)
    (h : s.Swaps m.session x (x.begun step fork s.run.dueAt now) []) :
    e.Stride flow (s, m.advance)
      (view (e.pass flow now m (x.begun step fork s.run.dueAt now) step fork)) := by
  cases hb : m.budget with
  | zero =>
    rw [pass_zero hb]
    exact .park ha hp hstep hpass h
  | succ budget =>
    rw [pass_succ hb]
    exact .pass ha hp hstep hpass h ((m.session.turns_finish x.id [] now).settle _)

/-- Starting a step is a few strides: its record is drawn, it starts, and it is over at once if
nothing waits at it. -/
theorem strides_follow {m : Motion} (ha : m.session.run.isActive = true) (a : Activation) :
    e.Strides flow (view m) (view (e.follow flow now m a)) := by
  cases hf : flow.find? a.step with
  | none =>
    unfold follow
    simp only [hf]
    exact .refl
  | some place =>
    have hfirst := e.strides_materialize flow m.session place.step m.advance
    rcases hm : e.materialize flow m.session place.step with ⟨t, i⟩
    rw [hm] at hfirst
    obtain ⟨hfirst, x, hx, hp, hstep⟩ := hfirst
    obtain ⟨hy, hswaps⟩ := activate_swaps now a.fork hm hx hp
    have ha' : t.run.isActive = true := hfirst.isActive.trans ha
    refine hfirst.trans (Stride.strides ?_)
    rw [follow_of hf hy]
    cases hpass : place.step.body.isPassThrough with
    | false =>
      rw [if_neg (by simp [hpass])] at hswaps
      exact .announce ha' hp hstep hpass hswaps
    | true =>
      rw [if_pos hpass] at hswaps
      exact stride_pass (m := { m with session := _ }) now ha' hp hstep hpass hswaps

theorem strides_followAll (as : List Activation) {m : Motion} (ha : m.session.run.isActive = true) :
    e.Strides flow (view m) (view (e.followAll flow now m as)) := by
  induction as generalizing m with
  | nil => exact .refl
  | cons a rest ih =>
    have hfirst : e.Strides flow (view m) (view (e.follow flow now m a)) := strides_follow now ha a
    exact hfirst.trans (ih (hfirst.isActive.trans ha))

/-- The whole way that a plan moves a run is made of strides. -/
theorem travels_drive {m : Motion} (ha : m.session.run.isActive = true) :
    e.Travels flow (view m) (view (e.drive flow now m)) := by
  induction m using drive.induct e flow now with
  | case1 m h =>
    rw [drive_nil h]
    exact .onward .refl
  | case2 m plan rest h status hend =>
    rw [drive_cons h, hend]
    have haside : m.session.Aside ({ m with pending := rest }.mark plan).session :=
      .of_run rfl rfl rfl rfl
    have hmark : e.Strides flow (view m) (view ({ m with pending := rest }.mark plan)) :=
      Strides.aside haside m.advance
    exact .ended hmark ha status now rfl
  | case3 m plan rest h marked hend ih =>
    rw [drive_cons h, hend]
    have haside : m.session.Aside marked.session := .of_run rfl rfl rfl rfl
    have hmark : e.Strides flow (view m) (view marked) := Strides.aside haside m.advance
    have hall : e.Strides flow (view m) (view (e.followAll flow now marked plan.activations)) :=
      hmark.trans (strides_followAll now plan.activations (hmark.isActive.trans ha))
    exact .after hall (ih (hall.isActive.trans ha))

/-- A run that is still active has not come to its end on the way. -/
theorem Travels.onward_of (h : e.Travels flow p q) (ha : q.1.run.isActive = true) :
    e.Strides flow p q := by
  cases h with
  | onward h => exact h
  | ended _ _ _ _ hq =>
    rw [hq, Session.isActive_endRun] at ha
    cases ha

theorem travels_travel (ha : s.run.isActive = true) (plan : Plan) (a : Advance) :
    e.Travels flow (s, a) (view (e.travel flow now s plan a)) := by
  have hdrive : e.Travels flow (s, a) (view (e.drive flow now (e.setOut s plan a))) :=
    travels_drive now (m := e.setOut s plan a) ha
  unfold travel
  dsimp only
  split
  · rename_i hend
    rw [Bool.and_eq_true] at hend
    exact .ended (hdrive.onward_of hend.2) hend.2 .completed now rfl
  · exact hdrive

theorem aside_automate (ids : List String) : s.Aside (e.automate flow s ids) := by
  induction ids generalizing s with
  | nil => exact .refl s
  | cons id rest ih =>
    refine .trans ?_ (ih (s := _))
    dsimp only
    split
    · split
      · split
        · exact s.aside_note rfl
        · exact .refl s
      · exact .refl s
    · exact .refl s

/-- Moving a run on is some strides, and maybe the end of the run. -/
theorem travels_propagate (ha : s.run.isActive = true) (flags : Flags) (plan : Plan) (a : Advance) :
    e.Travels flow (s, a) (e.propagate flow now flags s plan a) := by
  have htravel : e.Travels flow (s, a) (view (e.travel flow now s plan a)) :=
    travels_travel now ha plan a
  have hpropagate : e.propagate flow now flags s plan a =
      if (e.travel flow now s plan a).session.run.isActive && !flags.skipAutomation then
        (e.automate flow (e.travel flow now s plan a).session
          (e.travel flow now s plan a).advance.activated, (e.travel flow now s plan a).advance)
      else view (e.travel flow now s plan a) := rfl
  rw [hpropagate]
  split
  · rename_i hactive
    rw [Bool.and_eq_true] at hactive
    exact .onward ((htravel.onward_of hactive.1).trans (Strides.aside (aside_automate _) _))
  · exact htravel

theorem travels_start (ha : s.run.isActive = true) (hx : s.run.executions = []) (flags : Flags) :
    e.Travels flow (s, { completed := true }) (e.start flow now flags s) := by
  have hready := e.strides_ready flow now s { completed := true }
  have ha' := hready.isActive.trans ha
  rw [start_fresh ha hx]
  cases flow.steps with
  | nil => exact .ended hready ha' .completed now rfl
  | cons first rest => exact .after hready (travels_propagate now ha' flags _ _)

/-- So is the way of a submission, but for the completion that it begins with. -/
theorem travels_accept (ha : s.run.isActive = true) (flags : Flags) (x : Execution)
    (result : Record) :
    e.Travels flow (s.take x result now, { completed := true })
      (e.accept flow now flags s x result) := by
  cases hf : flow.find? x.stepId with
  | none =>
    unfold accept
    simp only [hf]
    exact .onward .refl
  | some place =>
    rw [accept_of hf]
    have hsettle := (s.take x result now).aside_settle
      (e.follows flow (s.take x result now) x.stepId result x.fork)
    exact .after (Strides.aside hsettle _)
      (travels_propagate now (hsettle.isActive.trans ha) flags _ _)

end Way

end Engine

end Workflow
