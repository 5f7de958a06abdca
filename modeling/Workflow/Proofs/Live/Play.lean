import Workflow.Proofs.Live

namespace Workflow

namespace Live

variable {α β : Type} {t t' t'' : Stage}

/-- The work goes through, with some outcome. -/
def Gives (work : Live α) (t : Stage) (a : α) (t' : Stage) : Prop :=
  work.run t = .ok a t'

theorem Gives.pure (a : α) : Gives (pure a) t a t :=
  rfl

theorem Gives.bind {work : Live α} {next : α → Live β} {a : α} {b : β}
    (h : Gives work t a t')
    (hnext : Gives (next a) t' b t'') : Gives (work >>= next) t b t'' := by
  unfold Gives EStateM.run at h hnext ⊢
  simp only [Bind.bind, EStateM.bind, h, hnext]

theorem Gives.map {work : Live α} {a : α} (h : Gives work t a t') (f : α → β) :
    Gives (f <$> work) t (f a) t' := by
  unfold Gives EStateM.run at h ⊢
  simp only [Functor.map, EStateM.map, h]

/-- The work is broken off. -/
def Breaks (work : Live α) (t t' : Stage) : Prop :=
  ∃ failure, work.run t = .error failure t'

theorem Breaks.bind {work : Live α} (h : Breaks work t t') (next : α → Live β) :
    Breaks (work >>= next) t t' := by
  obtain ⟨failure, h⟩ := h
  unfold EStateM.run at h
  exact ⟨failure, by simp only [EStateM.run, Bind.bind, EStateM.bind, h]⟩

theorem Gives.guarded {work : Live α} {a : α} (h : Gives work t a t') (instead : α) :
    Gives (guarded instead work) t a t' := by
  unfold Gives EStateM.run at h ⊢
  simp only [Live.guarded, tryCatch, tryCatchThe, MonadExceptOf.tryCatch, EStateM.tryCatch, h]

theorem Breaks.guarded {work : Live α} (h : Breaks work t t') (instead : α) :
    Gives (guarded instead work) t instead t' := by
  obtain ⟨failure, h⟩ := h
  unfold EStateM.run at h
  unfold Gives EStateM.run
  simp only [Live.guarded, tryCatch, tryCatchThe, MonadExceptOf.tryCatch, EStateM.tryCatch, h]
  rfl

/-- A guard for two things in a row is a guard for the second, once the first has gone through. -/
theorem Gives.bind_guarded {work : Live α} {next : α → Live β} {a : α} {b instead : β}
    (h : Gives work t a t') (hnext : Gives (Live.guarded instead (next a)) t' b t'') :
    Gives (Live.guarded instead (work >>= next)) t b t'' := by
  unfold Gives EStateM.run at h hnext ⊢
  simp only [Live.guarded, tryCatch, tryCatchThe, MonadExceptOf.tryCatch, EStateM.tryCatch,
    Bind.bind, EStateM.bind, h] at hnext ⊢
  exact hnext

theorem gives_hear (event : Event) (a : α) :
    Gives (hear event (.ok a)) t a { t with calls := t.calls ++ [⟨event, none⟩] } :=
  rfl

theorem breaks_hear (event : Event) (failure : String) :
    Breaks (hear event (.error failure) : Live α) t
      { t with calls := t.calls ++ [⟨event, some failure⟩] } :=
  ⟨failure, rfl⟩

/-- Whatever the reply is, a guarded call goes through. -/
theorem gives_guarded_hear (instead : α) (event : Event) (reply : Reply α) :
    Gives (guarded instead (hear event reply)) t (reply.toOption.getD instead)
      { t with calls := t.calls ++ [⟨event, reply.failure?⟩] } := by
  cases reply with
  | ok a => exact (gives_hear event a).guarded instead
  | error failure => exact (breaks_hear event failure).guarded instead

/-- The work makes calls and does nothing else. -/
def Tells (work : Live Unit) (change : List Call → List Call) : Prop :=
  ∀ t, Gives work t () { t with calls := change t.calls }

theorem Tells.none : Tells (Pure.pure ()) fun calls => calls :=
  fun _ => .pure ()

theorem Tells.bind {work work' : Live Unit} {change change' : List Call → List Call}
    (h : Tells work change) (h' : Tells work' change') :
    Tells (work >>= fun _ => work') fun calls => change' (change calls) :=
  fun t => (h t).bind (h' _)

theorem Tells.forM {work : α → Live Unit} {change : List Call → α → List Call}
    (h : ∀ a, Tells (work a) fun calls => change calls a) (as : List α) :
    Tells (as.forM work) fun calls => as.foldl change calls := by
  induction as with
  | nil => exact .none
  | cons a rest ih => exact (h a).bind ih

theorem tells_tell (listener : Option (Listener Unit)) (event : Event) :
    Tells (tell listener event) fun calls => Listener.hear listener calls event := by
  intro t
  cases listener with
  | none => exact .pure ()
  | some answer => exact gives_guarded_hear () event (answer t.calls event)

end Live

open Live

def Motion.trip (m : Motion) {weight : Nat} (h : m.weight = weight) : Trip weight where
  advance := m.advance
  budget := m.budget
  pending := m.pending
  exhausted := m.exhausted
  weighs := h

/-- What is before a live engine where an engine has a session. -/
def Session.stage (s : Session) (e : LiveEngine) (calls : List Call) : Stage where
  run := s.run
  drawn := s.log.drawn
  reviews := s.log.reviews
  calls := e.listeners.tellAll e.hours calls s.log.notices

theorem Session.stage_note (s : Session) (n : Notice) (e : LiveEngine) (calls : List Call) :
    (s.note n).stage e calls =
      { s.stage e calls with
        calls := e.listeners.tell e.hours (s.stage e calls).calls n } := by
  simp [stage, note, Listeners.tellAll]

namespace LiveEngine

section Calls

variable (e : LiveEngine)

theorem tells_sendLink (execution step : String) (contact : Assignee) :
    Tells (e.sendLink execution step contact) fun calls =>
      e.listeners.sendLink e.hours execution step calls contact := by
  intro t
  unfold sendLink Listeners.sendLink
  cases e.listeners.links with
  | none => exact .pure ()
  | some answer =>
    dsimp only
    cases htoken : answer t.calls (.token execution e.hours) with
    | error failure =>
      have hbroken := breaks_hear (α := String) (t := t) (.token execution e.hours) failure
      rw [← htoken] at hbroken
      exact (hbroken.bind _).guarded ()
    | ok token =>
      have hheard := gives_hear (t := t) (.token execution e.hours) token
      rw [← htoken] at hheard
      refine Gives.bind_guarded hheard ?_
      dsimp only
      split
      · exact Gives.guarded (.pure ()) ()
      · cases e.listeners.email with
        | none => exact Gives.guarded (.pure ()) ()
        | some answer' => exact gives_guarded_hear () _ _

theorem tells_startSubFlow (execution : String) (step : Step) :
    Tells (e.startSubFlow execution step) fun calls =>
      e.listeners.startSubFlow execution step calls := by
  unfold startSubFlow Listeners.startSubFlow
  cases step.body with
  | subFlow template quorum => exact tells_tell _ _
  | _ => exact .none

theorem tells_announce (x : Execution) (step : Step) (flowDue : Option Instant)
    (timers : List Timer) :
    Tells (e.announce x step flowDue timers) fun calls =>
      e.listeners.tell e.hours calls (.activated x step flowDue timers) :=
  (Tells.forM (fun timer => tells_tell _ (.schedule x.id timer)) timers).bind
    ((tells_tell _ _).bind
      ((e.tells_startSubFlow x.id step).bind (Tells.forM (e.tells_sendLink x.id step.id) _)))

theorem tells_tellEnded (status : RunStatus) (left : List String) :
    Tells (e.tellEnded status left) fun calls =>
      e.listeners.tell e.hours calls (.ended status left) := by
  have hleft := Tells.forM (fun id => tells_tell e.listeners.timers (.cancelAll id)) left
  cases status with
  | completed => exact hleft.bind (tells_tell _ _)
  | active => exact hleft.bind .none
  | cancelled => exact hleft.bind .none

end Calls

variable {α β : Type} {e : LiveEngine} {flow : Flow} {now : Instant} {s : Session}

/-- The work goes through with the outcome that an engine has, and makes the calls for its
notices. -/
def Does (e : LiveEngine) (work : Live α) (s : Session) (outcome : Session × α) : Prop :=
  ∀ calls, Gives work (s.stage e calls) outcome.2 (outcome.1.stage e calls)

theorem Does.pure (a : α) : e.Does (pure a) s (s, a) :=
  fun _ => .pure a

theorem Does.bind {work : Live α} {next : α → Live β} {outcome : Session × α}
    {outcome' : Session × β} (h : e.Does work s outcome)
    (hnext : e.Does (next outcome.2) outcome.1 outcome') : e.Does (work >>= next) s outcome' :=
  fun calls => (h calls).bind (hnext calls)

theorem Does.map {work : Live α} {outcome : Session × α} (h : e.Does work s outcome)
    (f : α → β) :
    e.Does (f <$> work) s (outcome.1, f outcome.2) :=
  fun calls => (h calls).map f

theorem Does.getRun {next : Run → Live β} {outcome : Session × β}
    (h : e.Does (next s.run) s outcome) : e.Does (getRun >>= next) s outcome :=
  h

theorem Does.setRun {change : Run → Run} {next : Unit → Live β} {outcome : Session × β}
    (h : e.Does (next ()) { s with run := change s.run } outcome) :
    e.Does (setRun change >>= next) s outcome :=
  h

theorem does_told {work : Live Unit} {n : Notice}
    (h : Tells work fun calls => e.listeners.tell e.hours calls n) :
    e.Does work s (s.note n, ()) := by
  intro calls
  dsimp only
  rw [s.stage_note]
  exact h _

section Executions

theorem does_resolve (step : Step) : e.Does (e.resolve step) s (e.engine.resolve s step) := by
  intro calls
  unfold resolve Engine.resolve
  cases e.engine.advisers.assignees with
  | none => exact .pure _
  | some answer =>
    dsimp only
    split
    · rw [Session.stage_note]
      exact gives_guarded_hear [] (.resolve step.id) (answer step s.run)
    · exact .pure _

theorem does_review (step : Step) (result : Record) :
    e.Does (e.review step result) s (e.engine.review s step result) := by
  intro calls
  unfold review Engine.review
  cases e.engine.advisers.reviewer with
  | none => exact .pure _
  | some answer =>
    dsimp only
    split
    · rw [Session.stage_note]
      exact gives_guarded_hear .approved (.review step.id) (answer s.log.reviews step result)
    · exact .pure _

theorem does_expect (step : Step) :
    e.Does (e.expect flow step) s (e.engine.expect flow s step, ()) := by
  have hdraw : e.Does (e.draw "exec") s (s.draw 1, e.engine.nextId s "exec") := fun _ => rfl
  exact hdraw.bind ((does_resolve step).bind fun _ => rfl)

theorem does_materialize (step : Step) :
    e.Does (e.materialize flow step) s (e.engine.materialize flow s step) := by
  unfold materialize Engine.materialize
  refine .getRun ?_
  cases s.run.executions.findIdx? fun x => x.stepId == step.id && x.status == .pending with
  | some i => exact .pure i
  | none => exact (does_expect step).bind (.pure _)

/-- The live engine starts a step as the engine does. -/
theorem does_activate (step : Step) (fork : Option String) :
    e.Does (e.activate flow now step fork) s (e.engine.activate flow now s step fork) := by
  unfold activate Engine.activate
  refine (does_materialize step).bind (.getRun ?_)
  rcases e.engine.materialize flow s step with ⟨s, i⟩
  dsimp only
  cases (s.run.executions[i]?).bind fun x => x.start? step fork s.run.dueAt now with
  | none => exact .pure _
  | some x =>
    refine .setRun ?_
    dsimp only
    split
    · exact .pure _
    · exact (does_told (e.tells_announce x step _ _)).bind (.pure _)

/-- A step that cannot be finished stays as it is. -/
theorem finish_same {execution : String} {result : Record}
    (h : ∀ x, s.run.find? execution = some x → x.status.move? .completed = none) :
    s.finish execution result now = s := by
  have hsame : s.run.modify execution (fun x => x.finish result now) = s.run := by
    unfold Run.modify
    rw [Sequence.modifyFirst_eq_self fun x hx => by rw [Execution.finish, h x hx]]
  rw [Session.finish, hsame]

/-- It finishes an execution as the engine does. -/
theorem does_finish (execution : String) (result : Record) :
    e.Does (e.finish execution result false now) s (s.finish execution result now, ()) := by
  unfold finish
  refine .getRun ?_
  cases hx : s.run.find? execution with
  | none =>
    rw [finish_same fun x h => nomatch hx.symm.trans h]
    exact .pure ()
  | some x =>
    dsimp only
    cases hmove : x.status.move? .completed with
    | none =>
      rw [finish_same fun y h => Option.some.inj (hx.symm.trans h) ▸ hmove]
      exact .pure ()
    | some status => exact .setRun (.pure ())

theorem gives_tellStep {t : Stage} {id : String} {x : Execution} (hx : t.run.find? id = some x) :
    Gives (e.tellStep id) t () { t with
      calls := Listener.hear e.listeners.notifier t.calls
        (.stepCompleted x.id x.stepId x.status) } := by
  have hread : Gives getRun t t.run t := rfl
  refine hread.bind ?_
  rw [hx]
  exact tells_tell _ _ t

/-- The step is told of as the run has it when the telling begins. -/
theorem does_tellCompleted {x : Execution} (hx : s.run.find? x.id = some x) :
    e.Does (e.tellCompleted x.id now) s
      (({ s with run := { s.run with lastActivityAt := some now } } : Session).note
        (.completed x.id x.stepId x.status now), ()) := by
  intro calls
  dsimp only
  rw [Session.stage_note]
  exact (tells_tell _ _ _).bind ((gives_tellStep hx).bind (Gives.bind rfl (tells_tell _ _ _)))

/-- It takes a submission as the engine does, and announces the execution as it stands then. -/
theorem does_take {execution : String} {x : Execution} (result : Record)
    (hx : s.run.find? execution = some x) (hopen : x.status.isCompletable = true) :
    e.Does (e.finish x.id result true now) s (s.take x result now, ()) := by
  have hid : x.id = execution := by simpa using List.find?_some hx
  have hmove : x.status.move? .completed = some .completed := by
    revert hopen
    cases x.status <;> decide
  subst hid
  have hdone : (s.finish x.id result now).run.find? (x.finish result now).id =
      some (x.finish result now) := by
    rw [x.id_finish]
    exact Session.find?_finish hx result now
  have htell : e.Does (e.tellCompleted (x.finish result now).id now)
      (s.finish x.id result now) _ := does_tellCompleted hdone
  rw [x.id_finish, x.stepId_finish] at htell
  unfold finish
  refine .getRun ?_
  rw [hx]
  dsimp only
  rw [hmove]
  exact .setRun htell

theorem does_endRun (status : TerminateStatus) :
    e.Does (e.endRun status now) s (s.endRun status now, ()) :=
  .setRun (.getRun (does_told (e.tells_tellEnded _ _)))

end Executions

section Way

variable {weight : Nat} {m : Motion}

theorem does_plan (stepId : String) (result : Record) (fork : Option String) :
    e.Does (e.plan flow stepId result fork) s
      (s.settle (e.engine.follows flow s stepId result fork),
        (e.engine.follows flow s stepId result fork).plan) :=
  fun _ => rfl

/-- The work takes what is ahead of one motion to what is ahead of another. -/
def Takes (e : LiveEngine) (work : Live (Trip weight)) (m m' : Motion) : Prop :=
  ∀ h : m'.weight = weight, e.Does work m.session (m'.session, m'.trip h)

theorem takes_pass (h : m.weight = weight) (x : Execution) (step : Step) (fork : Option String) :
    e.Takes (e.pass flow now (m.trip h) x step fork) m (e.engine.pass flow now m x step fork) := by
  obtain ⟨s, advance, budget, pending, exhausted⟩ := m
  cases budget with
  | zero => exact fun _ => .pure _
  | succ budget =>
    exact fun _ => (does_finish x.id []).bind ((does_plan step.id [] fork).bind (.pure _))

/-- It follows a plan as the engine does. -/
theorem takes_follow (h : m.weight = weight) (a : Activation) :
    e.Takes (e.follow flow now (m.trip h) a) m (e.engine.follow flow now m a) := by
  unfold follow Engine.follow
  cases flow.find? a.step with
  | none => exact fun _ => .pure _
  | some place =>
    dsimp only
    have hactivate : e.Does (e.activate flow now place.step a.fork) m.session
      (e.engine.activate flow now m.session place.step a.fork) := does_activate place.step a.fork
    generalize e.engine.activate flow now m.session place.step a.fork = outcome at hactivate ⊢
    obtain ⟨s, started⟩ := outcome
    cases started with
    | none => exact fun _ => hactivate.bind (.pure _)
    | some x =>
      refine fun h' => hactivate.bind ?_
      dsimp only at h' ⊢
      by_cases hpass : place.step.body.isPassThrough = true
      · simp only [if_pos hpass] at h' ⊢
        exact takes_pass (m := { m with session := s }) h x place.step a.fork h'
      · simp only [if_neg hpass] at h' ⊢
        exact .pure _

theorem takes_followAll (as : List Activation) (h : m.weight = weight) :
    e.Takes (as.foldlM (e.follow flow now) (m.trip h)) m (e.engine.followAll flow now m as) := by
  induction as generalizing m with
  | nil => exact fun _ => .pure _
  | cons a rest ih =>
    have hfollow := (e.engine.weight_follow flow now m a).trans h
    exact fun h' => (takes_follow h a hfollow).bind (ih hfollow h')

/-- It goes the way of a plan to its end. -/
theorem does_drive (h : m.weight = weight) :
    e.Does (e.drive flow now weight (m.trip h)) m.session
      ((e.engine.drive flow now m).session, (e.engine.drive flow now m).advance,
        (e.engine.drive flow now m).exhausted) := by
  -- Both loops take one plan off at each round, and the weight counts the rounds that are left.
  induction weight generalizing m with
  | zero =>
    have hnil : m.pending = [] := List.eq_nil_of_length_eq_zero (Nat.eq_zero_of_add_eq_zero_left h)
    rw [Engine.drive_nil hnil]
    exact .pure _
  | succ weight ih =>
    obtain ⟨s, advance, budget, pending, exhausted⟩ := m
    cases pending with
    | nil =>
      rw [Engine.drive_nil rfl]
      exact .pure _
    | cons plan rest =>
      rw [Engine.drive_cons rfl]
      refine .setRun ?_
      cases hend : plan.ending? with
      | some status => exact (does_endRun status).bind (.pure _)
      | none =>
        have hmarked :
            (Motion.mark ⟨s, advance, budget, rest, exhausted⟩ plan).weight = weight :=
          Nat.succ.inj h
        have hweight := (e.engine.weight_followAll flow now plan.activations _).trans hmarked
        exact (takes_followAll plan.activations hmarked hweight).bind (ih hweight)

end Way

section Moves

/-- It asks for the automation of a step when the engine notes it. -/
theorem does_automate (id : String) :
    e.Does (e.automate flow id) s (e.engine.automate flow s [id], ()) := by
  unfold automate Engine.automate
  refine .getRun ?_
  rw [List.foldl_cons, List.foldl_nil]
  cases s.run.find? id with
  | none => exact .pure ()
  | some x =>
    dsimp only
    cases x.status with
    | inProgress =>
      cases flow.find? x.stepId with
      | none => exact .pure ()
      | some place =>
        dsimp only
        split
        · exact does_told (tells_tell _ _)
        · exact .pure ()
    | _ => exact .pure ()

theorem does_automateAll (ids : List String) :
    e.Does (ids.forM (e.automate flow)) s (e.engine.automate flow s ids, ()) := by
  induction ids generalizing s with
  | nil => exact .pure ()
  | cons id rest ih => exact (does_automate id).bind ih

theorem does_complete? (m : Motion) :
    e.Does (e.complete? now m.advance m.exhausted) m.session
      ((if m.exhausted && m.session.run.isActive then m.endRun .completed now else m).session,
        (if m.exhausted && m.session.run.isActive then m.endRun .completed now
          else m).advance) := by
  have hadvance : (m.endRun .completed now).advance = { m.advance with flowCompleted := true } := by
    simp [Motion.endRun]
  unfold complete?
  refine .getRun ?_
  split
  · rw [hadvance]
    exact (does_endRun .completed).bind (.pure _)
  · exact .pure _

/-- It moves a run on as the engine does. -/
theorem does_propagate (flags : Flags) (plan : Plan) (advance : Advance) :
    e.Does (e.propagate flow now flags plan advance) s
      (e.engine.propagate flow now flags s plan advance) := by
  have hpropagate : e.engine.propagate flow now flags s plan advance =
      if (e.engine.travel flow now s plan advance).session.run.isActive &&
        !flags.skipAutomation then
        (e.engine.automate flow (e.engine.travel flow now s plan advance).session
          (e.engine.travel flow now s plan advance).advance.activated,
          (e.engine.travel flow now s plan advance).advance)
      else ((e.engine.travel flow now s plan advance).session,
        (e.engine.travel flow now s plan advance).advance) := rfl
  have hcomplete : e.Does _ _ ((e.engine.travel flow now s plan advance).session,
        (e.engine.travel flow now s plan advance).advance) :=
    does_complete? (e.engine.drive flow now (e.engine.setOut s plan advance))
  rw [hpropagate]
  refine (does_drive (m := e.engine.setOut s plan advance) rfl).bind (hcomplete.bind (.getRun ?_))
  dsimp only
  split
  · exact (does_automateAll _).bind (.pure _)
  · exact .pure _

theorem does_expectAll (steps : List Step) :
    e.Does (steps.forM fun step => do
      let _ ← e.materialize flow step
      pure ()) s (e.engine.expectAll flow s steps, ()) := by
  induction steps generalizing s with
  | nil => exact .pure ()
  | cons step rest ih => exact ((does_materialize step).bind (.pure ())).bind ih

/-- It starts a run as the engine does. -/
theorem does_start (flags : Flags) :
    e.Does (e.start flow now flags) s (e.engine.start flow now flags s) := by
  unfold start
  refine .getRun ?_
  by_cases h : (!s.run.isActive || !s.run.executions.isEmpty) = true
  · rw [if_pos h, Engine.start, if_pos h]
    exact .pure _
  · obtain ⟨hactive, hfresh⟩ : s.run.isActive = true ∧ s.run.executions = [] := by
      simpa using h
    rw [if_neg h, Engine.start_fresh hactive hfresh]
    have hready : e.Does _ (s.dated flow now) (e.engine.ready flow now s, ()) :=
      does_expectAll flow.steps
    refine .setRun (hready.bind ?_)
    cases flow.steps with
    | nil => exact (does_endRun .completed).bind (.pure _)
    | cons first rest => exact does_propagate flags _ _

theorem does_accept {execution : String} {x : Execution} (flags : Flags) (result : Record)
    (hx : s.run.find? execution = some x) (hopen : x.status.isCompletable = true) :
    e.Does (e.accept flow now flags x result) s (e.engine.accept flow now flags s x result) := by
  refine (does_take result hx hopen).bind ?_
  unfold Engine.accept
  cases flow.find? x.stepId with
  | none => exact .pure _
  | some place =>
    exact (does_plan x.stepId result x.fork).bind (does_propagate flags _ _)

theorem does_judge (flags : Flags) (x : Execution) (result : Record) :
    e.Does (e.judge flow flags x result) s (e.engine.judge flow s flags x result) := by
  unfold judge Engine.judge
  cases flow.find? x.stepId with
  | none => exact .pure _
  | some place =>
    dsimp only
    split
    · exact .pure _
    · exact does_review place.step result

/-- It completes a step as the engine does. -/
theorem does_complete (flags : Flags) (execution : String) (result : Record) :
    e.Does (e.complete flow now flags execution result) s
      (e.engine.complete flow now flags s execution result) := by
  unfold complete
  refine .getRun ?_
  cases hx : s.run.find? execution with
  | none =>
    unfold Engine.complete
    rw [hx]
    exact .pure _
  | some x =>
    rw [Engine.complete_of result hx]
    dsimp only
    split
    · exact .pure _
    · rename_i hopen
      simp only [Bool.or_eq_true, Bool.not_eq_true', not_or, Bool.not_eq_false] at hopen
      refine (does_judge flags x result).bind ?_
      cases (e.engine.judge flow s flags x result).2 with
      | approved =>
        have hx' : (e.engine.judge flow s flags x result).1.run.find? execution = some x := by
          rw [e.engine.run_judge, hx]
        exact does_accept flags result hx' hopen.1
      | revise feedback issues => exact .pure _

theorem does_conclude (flags : Flags) (x : Execution) (assignment : String) (result : Record) :
    e.Does (e.conclude flow now flags x assignment result) s
      (e.engine.conclude flow now flags s x assignment result) := by
  unfold Engine.conclude
  refine (does_complete flags x.id (x.sharedResult result)).bind ?_
  dsimp only
  split
  · exact .setRun (.pure _)
  · split
    · exact .setRun (.getRun (.pure _))
    · exact .pure _

/-- It takes a submission to a shared step as the engine does. -/
theorem does_submit (flags : Flags) (execution assignment : String) (result : Record) :
    e.Does (e.submit flow now flags execution assignment result) s
      (e.engine.submit flow now flags s execution assignment result) := by
  unfold submit Engine.submit
  refine .getRun ?_
  cases s.run.find? execution with
  | none => exact .pure _
  | some x =>
    dsimp only
    split
    · exact .pure _
    · cases x.findAssignment? assignment with
      | none => exact .pure _
      | some a =>
        dsimp only
        split
        · exact .pure _
        · refine .setRun ?_
          split
          · exact does_conclude flags _ assignment result
          · exact .setRun (.pure _)

/-- It gives an execution up as the engine does. -/
theorem does_fail (execution reason : String) :
    e.Does (e.fail now execution reason) s (s.fail execution reason now) := by
  unfold fail Session.fail
  refine .getRun ?_
  cases s.run.find? execution with
  | none => exact .pure _
  | some x =>
    dsimp only
    cases x.status.isCompletable with
    | false => exact .pure _
    | true =>
      cases x.status.move? .failed with
      | none => exact .pure _
      | some status => exact .setRun ((does_told (tells_tell _ _)).bind (.pure _))

theorem does_escalate (execution : String) :
    e.Does (escalate now execution) s (s.escalate execution now) := by
  unfold escalate Session.escalate
  refine .getRun ?_
  cases s.run.find? execution with
  | none => exact .pure _
  | some x =>
    dsimp only
    split
    · exact .setRun (.pure _)
    · exact .pure _

/-- A live engine makes every move as the engine alone does, whatever becomes of its calls. -/
theorem does_play (move : Move) :
    e.Does (e.play flow now move) s (e.engine.play flow now s move) := by
  cases move with
  | start flags => exact (does_start flags).map _
  | complete execution result flags => exact (does_complete flags execution result).map _
  | submit execution assignment result flags =>
    exact (does_submit flags execution assignment result).map _
  | fail execution reason => exact (does_fail execution reason).map _
  | escalate execution => exact (does_escalate execution).map _

end Moves

end LiveEngine

end Workflow
