import Workflow.Proofs.Live.Hearing

namespace Workflow

namespace Event

def activated? : Event → Option String
  | .stepActivated execution _ _ _ => some execution
  | _ => none

/-- The execution that is told of as completed, its step, and the status that it is shown with. -/
def completed? : Event → Option (String × String × StepStatus)
  | .stepCompleted execution step status => some (execution, step, status)
  | _ => none

/-- The status with which the flow is told of as completed. -/
def flowCompleted? : Event → Option RunStatus
  | .flowCompleted status => some status
  | _ => none

end Event

theorem Event.filterMap_cancelAll {β : Type} {f : Event → Option β}
    (hf : ∀ id, f (.cancelAll id) = none) (ids : List String) :
    (ids.map Event.cancelAll).filterMap f = [] := by
  rw [List.filterMap_map]
  exact List.filterMap_eq_nil_iff.mpr fun id _ => hf id

/-- Of an execution that starts to wait, nothing but that is told. -/
theorem Notice.told_activated (x : Execution) (step : Step) (flowDue : Option Instant)
    (timers : List Timer) :
    ([Notice.activated x step flowDue timers].flatMap Notice.events).filterMap
        Event.flowCompleted? = [] ∧
      ([Notice.activated x step flowDue timers].flatMap Notice.events).filterMap
        Event.activated? = [x.id] ∧
      ([Notice.activated x step flowDue timers].flatMap Notice.events).filterMap
        Event.completed? = [] := by
  have hnone : ∀ {β : Type} (f : Event → Option β),
      (∀ timer, f (.schedule x.id timer) = none) →
      (timers.map (Event.schedule x.id)).filterMap f = [] := by
    intro β f hf
    rw [List.filterMap_map]
    exact List.filterMap_eq_nil_iff.mpr fun timer _ => hf timer
  simp only [List.flatMap_singleton, Notice.events, List.filterMap_append]
  rw [hnone _ fun _ => rfl, hnone _ fun _ => rfl, hnone _ fun _ => rfl]
  exact ⟨rfl, rfl, rfl⟩

namespace Session

def activated (s : Session) : List String :=
  s.events.filterMap Event.activated?

def completed (s : Session) : List String :=
  (s.events.filterMap Event.completed?).map Prod.fst

/-- What has been told of steps fits what has become of them. -/
structure Notified (s : Session) : Prop where
  introduced : s.Introduced
  ended : s.events.filterMap Event.flowCompleted? =
    if s.run.status = .completed then [.completed] else []
  completed : ∀ id ∈ s.completed,
    ∃ x ∈ s.run.executions, x.id = id ∧ x.status = .completed
  once : s.completed.Nodup
  passed : ∀ x ∈ s.run.executions, x.status = .completed → x.id ∈ s.activated →
    x.id ∈ s.completed

variable {s s' : Session} {x y : Execution} {ns : List Notice}

/-- Nothing was told of a run that has not started. -/
theorem notified_of_fresh (hrun : s.run.IsFresh) (hnotices : s.log.notices = []) : s.Notified := by
  have hevents : s.events = [] := by rw [events, hnotices, List.flatMap_nil]
  have hactive : s.run.status = .active := s.run.isActive_iff.mp hrun.active
  have hnone : s.completed = [] := by rw [Session.completed, hevents]; rfl
  refine ⟨?_, ?_, ?_, ?_, ?_⟩
  · intro event hevent
    rw [hevents] at hevent
    cases hevent
  · rw [hevents, hactive]
    rfl
  · rw [hnone]
    nofun
  · rw [hnone]
    exact .nil
  · intro x hx
    rw [hrun.executions] at hx
    cases hx

theorem mem_activated {id : String} (h : id ∈ s.activated) :
    ∃ event ∈ s.events, event.execution? = some id := by
  obtain ⟨event, hevent, hid⟩ := List.mem_filterMap.mp h
  cases event <;> first | exact ⟨_, hevent, hid⟩ | cases hid

/-- The notices of a change tell of no end, and of the step only when it starts to wait or when it
is completed. -/
theorem Becomes.told (h : s.Becomes x y ns) (hid : y.id = x.id) :
    (ns.flatMap Notice.events).filterMap Event.flowCompleted? = [] ∧
      ((ns.flatMap Notice.events).filterMap Event.activated? = [] ∨
        y.status ≠ .completed ∧
          (ns.flatMap Notice.events).filterMap Event.activated? = [x.id]) ∧
      ((ns.flatMap Notice.events).filterMap Event.completed? = [] ∨
        x.status.isCompletable = true ∧ y.status = .completed ∧
          (ns.flatMap Notice.events).filterMap Event.completed? =
            [(x.id, x.stepId, .completed)]) := by
  cases h with
  | announced _ _ hy step flowDue timers =>
    obtain ⟨hflow, hactivated, hcompleted⟩ := Notice.told_activated y step flowDue timers
    rw [hid] at hactivated
    exact ⟨hflow, .inr ⟨by simp [hy], hactivated⟩, .inl hcompleted⟩
  | parked | passed | stayed => exact ⟨rfl, .inl rfl, .inl rfl⟩
  | concluded _ hx hy => exact ⟨rfl, .inl rfl, .inr ⟨hx, hy, by rw [← hy]; rfl⟩⟩
  | failed => exact ⟨rfl, .inl rfl, .inl rfl⟩

/-- What is completed stays so. -/
theorem Becomes.status_of_completed (h : s.Becomes x y ns) (hx : x.status = .completed) :
    y.status = .completed := by
  cases h with
  | announced _ hp | parked _ hp | passed _ hp =>
    rw [hx] at hp
    cases hp
  | concluded _ hopen | failed hopen =>
    rw [hx] at hopen
    cases hopen
  | stayed _ _ hover => rw [hover (.inl (by rw [hx]; rfl)), hx]

/-- What an execution becomes is what is told of it. -/
theorem Notified.swap (h : s.Notified) (differ : s.run.executionIds.Nodup)
    (hs' : s.Swaps s' x y ns) (hid : y.id = x.id) (hbecomes : s.Becomes x y ns)
    (introduced : s'.Introduced) : s'.Notified := by
  obtain ⟨hflow, hactivated, hcompleted⟩ := hbecomes.told hid
  have hs'completed : s'.completed =
      s.completed ++ ((ns.flatMap Notice.events).filterMap Event.completed?).map Prod.fst := by
    rw [Session.completed, hs'.events, List.filterMap_append, List.map_append, Session.completed]
  have hs'activated : s'.activated =
      s.activated ++ (ns.flatMap Notice.events).filterMap Event.activated? := by
    rw [activated, hs'.events, List.filterMap_append, activated]
  have hnew : x.status.isCompletable = true → x.id ∉ s.completed := by
    intro hopen hmem
    obtain ⟨z, hz, hzid, hdone⟩ := h.completed x.id hmem
    rw [Run.eq_of_id differ hz hs'.mem hzid] at hdone
    rw [hdone] at hopen
    cases hopen
  refine ⟨introduced, ?_, ?_, ?_, ?_⟩
  · rw [hs'.events, List.filterMap_append, hflow, List.append_nil, hs'.status]
    exact h.ended
  · intro id hmem
    rw [hs'completed, List.mem_append] at hmem
    rcases hmem with hmem | hmem
    · obtain ⟨z, hz, rfl, hdone⟩ := h.completed id hmem
      by_cases hzx : z.id = x.id
      · obtain rfl := Run.eq_of_id differ hz hs'.mem hzx
        exact ⟨y, (hs'.mem_iff differ).mpr (.inl rfl), hid, hbecomes.status_of_completed hdone⟩
      · exact ⟨z, (hs'.mem_iff differ).mpr (.inr ⟨hz, hzx⟩), rfl, hdone⟩
    · rcases hcompleted with hnone | ⟨_, hdone, hone⟩
      · rw [hnone] at hmem
        cases hmem
      · rw [hone] at hmem
        obtain rfl := List.mem_singleton.mp hmem
        exact ⟨y, (hs'.mem_iff differ).mpr (.inl rfl), hid, hdone⟩
  · rw [hs'completed]
    rcases hcompleted with hnone | ⟨hopen, _, hone⟩
    · rw [hnone, List.map_nil, List.append_nil]
      exact h.once
    · rw [hone]
      exact h.once.append (List.nodup_singleton _)
        (by simpa using hnew hopen)
  · intro z hz hdone hmem
    rw [hs'activated, List.mem_append] at hmem
    rw [hs'completed, List.mem_append]
    rcases (hs'.mem_iff differ).mp hz with rfl | ⟨hz, hne⟩
    · rw [hid] at hmem ⊢
      have hbefore : x.id ∈ s.activated := by
        refine hmem.resolve_right fun hmem => ?_
        rcases hactivated with hnone | ⟨hopen, _⟩
        · rw [hnone] at hmem
          cases hmem
        · exact hopen hdone
      obtain ⟨event, hevent, hof⟩ := mem_activated hbefore
      cases hbecomes with
      | announced _ hx | parked _ hx | passed _ hx =>
        exact absurd hx (h.introduced.not_pending differ hs'.mem hevent hof)
      | concluded => exact .inr (by simp [Notice.events, Event.completed?])
      | failed _ hy =>
        rw [hy] at hdone
        cases hdone
      | stayed _ _ hover =>
        have hx : x.status = .completed := (hover (.inr (by rw [hdone]; rfl))).symm.trans hdone
        exact .inl (h.passed x hs'.mem hx hbefore)
    · rcases hmem with hmem | hmem
      · exact .inl (h.passed z hz hdone hmem)
      · rcases hactivated with hnone | ⟨_, hone⟩
        · rw [hnone] at hmem
          cases hmem
        · rw [hone] at hmem
          exact absurd (List.mem_singleton.mp hmem) hne

/-- Only a run that goes on can end, so that it ends once. -/
theorem Notified.endRun {status : TerminateStatus} {now : Instant} (h : s.Notified)
    (ha : s.run.isActive = true) (introduced : (s.endRun status now).Introduced) :
    (s.endRun status now).Notified := by
  have hactive : s.run.status ≠ .completed := by
    rw [s.run.isActive_iff.mp ha]
    exact RunStatus.noConfusion
  have hcompleted : (s.endRun status now).completed = s.completed := by
    rw [Session.completed, events_endRun, List.filterMap_append, List.filterMap_append,
      Event.filterMap_cancelAll fun _ => rfl]
    cases status <;> simp [Event.completed?, Session.completed]
  have hactivated : (s.endRun status now).activated = s.activated := by
    rw [activated, events_endRun, List.filterMap_append, List.filterMap_append,
      Event.filterMap_cancelAll fun _ => rfl]
    cases status <;> simp [Event.activated?, activated]
  refine ⟨introduced, ?_, ?_, ?_, ?_⟩
  · rw [events_endRun, List.filterMap_append, List.filterMap_append,
      Event.filterMap_cancelAll fun _ => rfl, h.ended, if_neg hactive]
    cases status <;> rfl
  · rw [hcompleted]
    exact h.completed
  · rw [hcompleted]
    exact h.once
  · rw [hcompleted, hactivated]
    exact h.passed

/-- Every stroke keeps what was told in step with the executions. -/
theorem Shift.notified (h : s.Shift s') (differ : s.run.executionIds.Nodup)
    (differ' : s'.run.executionIds.Nodup) (hs : s.Notified) : s'.Notified := by
  have introduced := h.introduced differ hs.introduced
  have hsame : s'.events = s.events →
      s'.completed = s.completed ∧ s'.activated = s.activated := by
    intro hevents
    rw [Session.completed, activated, hevents]
    exact ⟨rfl, rfl⟩
  cases h with
  | aside h =>
    obtain ⟨hcompleted, hactivated⟩ := hsame h.events
    obtain ⟨_, hturns, _⟩ := id h
    refine ⟨introduced, ?_, ?_, hcompleted ▸ hs.once, ?_⟩
    · rw [h.events, hturns.status]
      exact hs.ended
    · rw [hcompleted, h.executions]
      exact hs.completed
    · rw [hcompleted, hactivated, h.executions]
      exact hs.passed
  | @expect x _ hx h hns =>
    obtain ⟨hcompleted, hactivated⟩ := hsame (h.events_aside hns)
    refine ⟨introduced, ?_, ?_, hcompleted ▸ hs.once, ?_⟩
    · rw [h.events_aside hns, h.status]
      exact hs.ended
    · intro id hid
      obtain ⟨z, hz, hzid, hdone⟩ := hs.completed id (hcompleted ▸ hid)
      exact ⟨z, h.executions ▸ List.mem_append_left _ hz, hzid, hdone⟩
    · intro z hz hdone
      rw [h.executions, List.mem_append, List.mem_singleton] at hz
      rw [hcompleted, hactivated]
      rcases hz with hz | rfl
      · exact hs.passed z hz hdone
      · rw [hx] at hdone
        cases hdone
  | swap h hid hbecomes => exact hs.swap differ h hid hbecomes introduced
  | ended ha status now hs' =>
    subst hs'
    exact hs.endRun ha introduced

end Session

/-- Whether the answer says that the flow is complete. -/
def Answer.flowCompleted (a : Answer) : Bool :=
  a.advance?.any Advance.flowCompleted

def Answer.activated (a : Answer) : List String :=
  (a.advance?.map Advance.activated).getD []

/-- The execution that a move completes, if the answer says so. -/
def Move.completes? (m : Move) (r : Option Advance) : Option String :=
  if r.any Advance.completed then m.subject? else none

/-- The executions that some moves have completed, by their answers. -/
def Move.completions (past : List (Move × Answer)) : List String :=
  past.filterMap fun (m, a) => m.completes? a.advance?

theorem Move.completions_append (past : List (Move × Answer)) (m : Move) (a : Answer) :
    completions (past ++ [(m, a)]) = completions past ++ (m.completes? a.advance?).toList := by
  unfold completions
  rw [List.filterMap_append]
  cases h : m.completes? a.advance? <;> simp [h]

namespace Engine

variable {e : Engine} {flow : Flow} {p q r : Session × Advance} {ns ns' : List Notice}

/-- What is noted on the way of a run is what the answer says, as far as steps start. -/
structure Reports (p q : Session × Advance) (ns : List Notice) : Prop where
  notices : q.1.log.notices = p.1.log.notices ++ ns
  activated : q.2.activated =
    p.2.activated ++ (ns.flatMap Notice.events).filterMap Event.activated?
  completed : (ns.flatMap Notice.events).filterMap Event.completed? = []

theorem Reports.trans (h : Reports p q ns) (h' : Reports q r ns') : Reports p r (ns ++ ns') := by
  refine ⟨?_, ?_, ?_⟩
  · rw [h'.notices, h.notices, List.append_assoc]
  · rw [h'.activated, h.activated, List.flatMap_append, List.filterMap_append, List.append_assoc]
  · rw [List.flatMap_append, List.filterMap_append, h.completed, h'.completed, List.append_nil]

/-- Each stride tells of the execution that it starts, and adds it to the answer. -/
theorem Stride.reports (h : e.Stride flow p q) :
    ∃ ns, Reports p q ns ∧ (ns.flatMap Notice.events).filterMap Event.flowCompleted? = [] ∧
      q.2.flowCompleted = p.2.flowCompleted := by
  cases h with
  | aside h =>
    obtain ⟨ns, h, hns⟩ := h
    have hnone := Notice.flatMap_events_of_isAside hns
    exact ⟨ns, ⟨h.notices, by simp [hnone], by simp [hnone]⟩, by simp [hnone], rfl⟩
  | @expect _ _ _ _ ns _ h hns =>
    have hnone := Notice.flatMap_events_of_isAside hns
    exact ⟨ns, ⟨h.notices, by simp [hnone], by simp [hnone]⟩, by simp [hnone], rfl⟩
  | @announce s s' a x step fork now _ _ _ _ h =>
    obtain ⟨_, _, h⟩ := h
    obtain ⟨hflow, hactivated, hcompleted⟩ := Notice.told_activated
      (x.begun step fork s.run.dueAt now) step s.run.dueAt
      (e.timers (x.begun step fork s.run.dueAt now) now)
    exact ⟨_, ⟨h.notices, by rw [hactivated]; rfl, hcompleted⟩, hflow, rfl⟩
  | park _ _ _ _ h =>
    obtain ⟨_, _, h⟩ := h
    exact ⟨[], ⟨h.notices, by simp, rfl⟩, rfl, rfl⟩
  | pass _ _ _ _ h hfinish =>
    obtain ⟨_, _, h⟩ := h
    exact ⟨[], ⟨by rw [hfinish.notices, h.notices, List.append_nil], by simp, rfl⟩,
      rfl, rfl⟩

theorem Strides.reports (h : e.Strides flow p q) :
    ∃ ns, Reports p q ns ∧ (ns.flatMap Notice.events).filterMap Event.flowCompleted? = [] ∧
      q.2.flowCompleted = p.2.flowCompleted := by
  induction h with
  | refl => exact ⟨[], ⟨by simp, by simp, rfl⟩, rfl, rfl⟩
  | tail _ hstride ih =>
    obtain ⟨ns, hns, hflow, hanswer⟩ := ih
    obtain ⟨ns', hns', hflow', hanswer'⟩ := hstride.reports
    refine ⟨ns ++ ns', hns.trans hns', ?_, hanswer'.trans hanswer⟩
    rw [List.flatMap_append, List.filterMap_append, hflow, hflow', List.append_nil]

/-- If the run ends on its way, then as it is told and as the answer says. -/
theorem Travels.reports (h : e.Travels flow p q) (ha : p.1.run.isActive = true)
    (hp : p.2.flowCompleted = false) :
    ∃ ns, Reports p q ns ∧
      (ns.flatMap Notice.events).filterMap Event.flowCompleted? =
        (if q.1.run.status = .completed then [.completed] else []) ∧
      (q.2.flowCompleted = true ↔ q.1.run.status = .completed) := by
  have hactive : p.1.run.status = .active := p.1.run.isActive_iff.mp ha
  cases h with
  | onward h =>
    obtain ⟨ns, hns, hflow, hanswer⟩ := h.reports
    refine ⟨ns, hns, ?_, ?_⟩
    · rw [hflow, h.status, hactive]
      rfl
    · rw [hanswer, hp, h.status, hactive]
      simp
  | @ended s a h _ status now hq =>
    obtain ⟨ns, hns, hflow, hanswer⟩ := h.reports
    subst hq
    have hanswer' : a.flowCompleted = false := hanswer.trans hp
    have hend : Reports (s, a)
        (s.endRun status now, { a with flowCompleted := a.flowCompleted || status == .completed })
        [.ended (s.endRun status now).run.status (Session.openExecutions s.run)] := by
      refine ⟨rfl, ?_, ?_⟩
      · simp only [List.flatMap_singleton, Notice.events, List.filterMap_append]
        rw [Event.filterMap_cancelAll fun _ => rfl]
        cases status <;> exact (List.append_nil _).symm
      · simp only [List.flatMap_singleton, Notice.events, List.filterMap_append]
        rw [Event.filterMap_cancelAll fun _ => rfl]
        cases status <;> rfl
    refine ⟨_, hns.trans hend, ?_, ?_⟩
    · simp only [List.flatMap_append, List.flatMap_singleton, Notice.events, List.filterMap_append,
        hflow]
      rw [Event.filterMap_cancelAll fun _ => rfl]
      cases status <;> rfl
    · dsimp only
      rw [hanswer']
      cases status <;> simp [Session.endRun, Session.note]

structure Accounts (s : Session) (m : Move) (s' : Session) (r : Option Advance) (ns : List Notice) :
    Prop where
  notices : s'.log.notices = s.log.notices ++ ns
  activated : (ns.flatMap Notice.events).filterMap Event.activated? =
    (r.map Advance.activated).getD []
  flowCompleted : (ns.flatMap Notice.events).filterMap Event.flowCompleted? =
    if s.run.status ≠ .completed ∧ s'.run.status = .completed then [.completed] else []
  reported : r.any Advance.flowCompleted = true ↔
    s.run.status ≠ .completed ∧ s'.run.status = .completed
  completed : match m.completes? r with
    | none => (ns.flatMap Notice.events).filterMap Event.completed? = []
    | some id => ∃ x ∈ s.run.executions, x.id = id ∧ x.status.isCompletable = true ∧
        (ns.flatMap Notice.events).filterMap Event.completed? = [(id, x.stepId, .completed)] ∧
        (s'.run.executionIds.Nodup → ∃ y ∈ s'.run.executions, y.id = id ∧
          y.status = .completed)

/-- What an answer does not report has not happened. -/
theorem accounts_of_silent {s s' : Session} {m : Move} {r : Option Advance} {ns : List Notice}
    (hr : ∀ a ∈ r, a.IsSilent) (hstatus : s'.run.status = s.run.status)
    (hnotices : s'.log.notices = s.log.notices ++ ns)
    (hactivated : (ns.flatMap Notice.events).filterMap Event.activated? = [])
    (hflow : (ns.flatMap Notice.events).filterMap Event.flowCompleted? = [])
    (hcompleted : (ns.flatMap Notice.events).filterMap Event.completed? = []) :
    Accounts s m s' r ns := by
  obtain ⟨hrcompleted, hrflow, hractivated⟩ := Advance.silent hr
  have hnever : ¬ (s.run.status ≠ .completed ∧ s'.run.status = .completed) := by
    rw [hstatus]
    exact fun h => h.1 h.2
  refine ⟨hnotices, hactivated.trans hractivated.symm, hflow.trans (if_neg hnever).symm, ?_, ?_⟩
  · rw [hrflow]
    exact iff_of_false Bool.false_ne_true hnever
  · rw [Move.completes?, hrcompleted]
    exact hcompleted

/-- The execution that a submission completes is completed in the end. -/
theorem completed_of_accept {s s' u v : Session} {x y : Execution} {now : Instant} {a : Advance}
    (h : x.Concludes now y) (hu : s.Swaps u x y ns)
    (hv : e.Travels flow (u, { completed := true }) (v, a))
    (hs' : s' = v ∨ ∃ z, z.status = .completed ∧ v.Swaps s' z z.cancelPending [])
    (differ : s'.run.executionIds.Nodup) :
    ∃ z ∈ s'.run.executions, z.id = x.id ∧ z.status = .completed := by
  have hids : v.run.executionIds = s'.run.executionIds := by
    rcases hs' with rfl | ⟨z, _, hrelease⟩
    · rfl
    · exact (hrelease.executionIds rfl).symm
  have differv : v.run.executionIds.Nodup := hids ▸ differ
  have differu : u.run.executionIds.Nodup := hv.strokes.ids.sublist.nodup differv
  have hy : y ∈ u.run.executions :=
    (hu.mem_iff ((hu.executionIds h.id) ▸ differu)).mpr (.inl rfl)
  obtain ⟨z, hz, hdone⟩ := hv.find?_completed (Run.find?_of_nodup differu hy) h.status
  have hzid : z.id = x.id := by
    have hfound : z.id = y.id := by simpa using List.find?_some hz
    exact hfound.trans h.id
  have hzv : z ∈ v.run.executions := List.mem_of_find?_eq_some hz
  rcases hs' with rfl | ⟨w, hw, hrelease⟩
  · exact ⟨z, hzv, hzid, hdone⟩
  · by_cases hzw : z.id = w.id
    · exact ⟨w.cancelPending, (hrelease.mem_iff differv).mpr (.inl rfl),
        hzw.symm.trans hzid, hw⟩
    · exact ⟨z, (hrelease.mem_iff differv).mpr (.inr ⟨hzv, hzw⟩), hzid, hdone⟩

/-- The answer to a move says what was told on it. -/
theorem Deed.accounts {s s' : Session} {m : Move} {r : Option Advance} (h : e.Deed flow s m s' r) :
    ∃ ns, Accounts s m s' r ns := by
  cases h with
  | idle h hr =>
    obtain ⟨ns, h, hns⟩ := h
    have hnone := Notice.flatMap_events_of_isAside hns
    exact ⟨ns, accounts_of_silent hr h.status h.notices (by simp [hnone]) (by simp [hnone])
      (by simp [hnone])⟩
  | @amend t x y ns ht h hs' hr =>
    obtain ⟨ns₀, ht, hns₀⟩ := ht
    obtain ⟨_, _, hs'⟩ := hs'
    have hevents : (ns₀ ++ ns).flatMap Notice.events = ns.flatMap Notice.events := by
      rw [List.flatMap_append, Notice.flatMap_events_of_isAside hns₀, List.nil_append]
    refine ⟨ns₀ ++ ns, accounts_of_silent hr (hs'.status.trans ht.status)
      (ht.trans (ht.executions ▸ hs')).notices ?_ ?_ ?_⟩
    all_goals
      rw [hevents]
      rcases h.notices with rfl | rfl <;> rfl
  | start ha hm h hr =>
    obtain ⟨ns, hns, hflow, hanswer⟩ := h.reports ha rfl
    have hactive : s.run.status ≠ .completed := by
      rw [s.run.isActive_iff.mp ha]
      exact RunStatus.noConfusion
    subst hr
    refine ⟨ns, hns.notices, hns.activated.symm, ?_, ?_, ?_⟩
    · rw [hflow]
      simp [hactive]
    · simpa [hactive] using hanswer
    · rw [Move.completes?, hm, ite_self]
      exact hns.completed
  | @accept t u v x y now a ht ha hm h hu hv hs' hr =>
    have hdone := completed_of_accept h hu hv hs'
    obtain ⟨hlast, hstatus⟩ :
        s'.log.notices = v.log.notices ∧ s'.run.status = v.run.status := by
      rcases hs' with rfl | ⟨_, _, _, _, hrelease⟩
      · exact ⟨rfl, rfl⟩
      · exact ⟨hrelease.notices.trans (List.append_nil _), hrelease.status⟩
    obtain ⟨ns₀, ht, hns₀⟩ := ht
    obtain ⟨_, hx, hu⟩ := hu
    have hactive : s.run.status = .active := by
      rw [← ht.status]
      exact t.run.isActive_iff.mp ha
    obtain ⟨ns, hns, hflow, hanswer⟩ := hv.reports (hu.isActive.trans ha) rfl
    have hevents : (ns₀ ++ ([Notice.completed x.id x.stepId y.status now] ++ ns)).flatMap
        Notice.events =
        [.cancelAll x.id, .stepCompleted x.id x.stepId .completed] ++ ns.flatMap Notice.events := by
      rw [List.flatMap_append, Notice.flatMap_events_of_isAside hns₀,
        List.flatMap_append, h.status]
      rfl
    have hcompleted : a.completed = true := hv.completed
    subst hr
    refine ⟨ns₀ ++ ([.completed x.id x.stepId y.status now] ++ ns), ?_, ?_, ?_, ?_, ?_⟩
    · rw [hlast, hns.notices, hu.notices, ht.notices, List.append_assoc, List.append_assoc]
    · rw [hevents, List.filterMap_append]
      exact hns.activated.symm
    · rw [hevents, List.filterMap_append, hflow, hstatus, hactive]
      simp [Event.flowCompleted?]
    · rw [hstatus, hactive]
      simpa using hanswer
    · have hsubject : m.completes? (some a) = some x.id := by
        simp [Move.completes?, hcompleted, hm]
      rw [hsubject, hevents, List.filterMap_append, hns.completed]
      have hmem : x ∈ s.run.executions := ht.executions ▸ List.mem_of_getElem? hx
      exact ⟨x, hmem, rfl, h.isOpen, rfl, hdone⟩

end Engine

open Call

/-- What a call tells the notifier: the steps that are active by its answer, in order, the one step
that it completes, if it completes one, shown as completed, and the end of the flow, if it comes to
that. -/
structure Stage.Notifies (t : Stage) (m : Move) (a : Answer) (t' : Stage) (new : List Call) :
    Prop where
  calls : t'.calls = t.calls ++ new
  activated : heard Event.activated? new = a.activated
  flowCompleted : heard Event.flowCompleted? new =
    if t.run.status ≠ .completed ∧ t'.run.status = .completed then [.completed] else []
  reported : a.flowCompleted = true ↔ t.run.status ≠ .completed ∧ t'.run.status = .completed
  completed : match m.completes? a.advance? with
    | none => heard Event.completed? new = []
    | some id => ∃ x ∈ t.run.executions, x.id = id ∧ x.status.isCompletable = true ∧
        heard Event.completed? new = [(id, x.stepId, .completed)] ∧
        (t'.run.executionIds.Nodup → ∃ y ∈ t'.run.executions, y.id = id ∧
          y.status = .completed)

namespace LiveEngine

variable {e : LiveEngine} {past : List (Move × Answer)} {t : Stage}

/-- The notifier hears all news. -/
theorem concern_news (h : e.listeners.notifier.isSome = true) :
    e.listeners.Concern Event.activated? ∧ e.listeners.Concern Event.completed? ∧
      e.listeners.Concern Event.flowCompleted? := by
  refine ⟨?_, ?_, ?_⟩
  all_goals
    intro event hevent
    refine .inr ⟨?_, h⟩
    cases event <;> first | rfl | cases hevent

/-- A call is never broken off, and it tells the notifier what it does. -/
theorem notifies_play (h : e.listeners.notifier.isSome = true) (s : Session) (flow : Flow)
    (now : Instant) (m : Move) :
    ∃ a t' new, (e.play flow now m).run (s.stage e []) = .ok a t' ∧
      (s.stage e []).Notifies m a t' new := by
  obtain ⟨ns, hns⟩ := (e.engine.deed_play flow now s m).accounts
  obtain ⟨new, hnew, hheard⟩ := Session.heard_next (e := e) [] hns.notices
  obtain ⟨hcactivated, hccompleted, hcflow⟩ := concern_news h
  have hactivated := hheard hcactivated
  have hcompleted := hheard hccompleted
  have hflow := hheard hcflow
  refine ⟨_, _, new, does_play m [], hnew, hactivated.trans hns.activated,
    hflow.trans hns.flowCompleted, hns.reported, ?_⟩
  rw [hcompleted]
  exact hns.completed

/-- What was told of steps as completed is what the answers say, and each of them was shown as
completed. -/
theorem told_of_lived {s : Session} (h : e.engine.Lived past s) :
    s.completed = Move.completions past ∧
      ∀ told ∈ s.events.filterMap Event.completed?, told.2.2 = .completed := by
  induction h with
  | @fresh s _ hnotices =>
    have hevents : s.events = [] := by rw [Session.events, hnotices, List.flatMap_nil]
    rw [Session.completed, hevents]
    exact ⟨rfl, nofun⟩
  | @move past s flow now m h ih =>
    obtain ⟨ns, hns⟩ := (e.engine.deed_play flow now s m).accounts
    obtain ⟨hpast, hshown⟩ := ih
    have hnext : (e.engine.play flow now s m).1.events.filterMap Event.completed? =
        s.events.filterMap Event.completed? ++
          (ns.flatMap Notice.events).filterMap Event.completed? := by
      simp [Session.events, hns.notices]
    have hcompleted := hns.completed
    rw [Session.completed, hnext, List.map_append, Move.completions_append, ← hpast]
    cases hid : m.completes? (e.engine.play flow now s m).2.advance? with
    | none =>
      simp only [hid] at hcompleted
      rw [hcompleted, List.append_nil]
      exact ⟨rfl, hshown⟩
    | some id =>
      simp only [hid] at hcompleted
      obtain ⟨x, _, _, _, hone, _⟩ := hcompleted
      rw [hone]
      refine ⟨rfl, fun told htold => ?_⟩
      rcases List.mem_append.mp htold with htold | htold
      · exact hshown told htold
      · rw [List.mem_singleton.mp htold]

/-- Notifications are exact. The end of the flow is told once, if it has come, and never otherwise.
The steps that are told of as completed are those that calls have completed, each once, and the run
has each as completed when it is told of. What is completed without a call is told of neither as
activated nor as completed. And every call that follows is not broken off, and tells what it
does. -/
theorem Lives.notified_exactly (h : e.Lives past t) (notifier : e.listeners.notifier.isSome = true)
    (differ : t.run.executionIds.Nodup) :
    heard Event.flowCompleted? t.calls =
        (if t.run.status = .completed then [.completed] else []) ∧
      (heard Event.completed? t.calls).map Prod.fst =
        Move.completions past ∧
      (∀ told ∈ heard Event.completed? t.calls, told.2.2 = .completed) ∧
      (Move.completions past).Nodup ∧
      (∀ x ∈ t.run.executions, x.status = .completed → x.id ∉ Move.completions past →
        x.id ∉ heard Event.activated? t.calls ∧
          x.id ∉ (heard Event.completed? t.calls).map Prod.fst) ∧
      ∀ flow now m, ∃ a t' new, (e.play flow now m).run t = .ok a t' ∧
        t.Notifies m a t' new := by
  obtain ⟨s, hlived, rfl⟩ := h.lived
  have hs : s.Notified := hlived.induct differ (fun _ => Session.notified_of_fresh)
    fun _ _ differ differ' hshift => hshift.notified differ differ'
  obtain ⟨hcactivated, hccompleted, hcflow⟩ := concern_news notifier
  obtain ⟨hpast, hshown⟩ := told_of_lived hlived
  rw [s.heard_stage hccompleted, ← hpast, s.heard_stage hcactivated, s.heard_stage hcflow]
  refine ⟨hs.ended, rfl, hshown, hs.once,
    fun x hx hdone hnot => ⟨?_, hnot⟩, fun flow now m => ?_⟩
  · exact fun hactivated => hnot (hs.passed x hx hdone hactivated)
  · exact notifies_play notifier s flow now m

namespace Sample

def ringing : LiveEngine :=
  { engine := Workflow.Sample.engine
    listeners := { notifier := some fun _ _ => .ok () } }

def lane : Flow :=
  { Flow.empty "lane" "" with
    steps := [Step.ofType "place" .gotoDestination, Step.ofType "a" .form] }

def walking : Session :=
  (ringing.engine.play lane ⟨0⟩ { run := {} } (.start {})).1

/-- The place was passed, and the step was completed by a call. -/
def walked : Session :=
  (ringing.engine.play lane ⟨0⟩ walking (.complete "exec_1" [] {})).1

def walk : List (Move × Answer) :=
  [(.start {}, (ringing.engine.play lane ⟨0⟩ { run := {} } (.start {})).2),
    (.complete "exec_1" [] {},
      (ringing.engine.play lane ⟨0⟩ walking (.complete "exec_1" [] {})).2)]

theorem lives_walked : ringing.Lives walk (walked.stage ringing []) := by
  have hfresh : ringing.Lives [] (({ run := {} } : Session).stage ringing []) :=
    .fresh ⟨rfl, rfl, rfl⟩ rfl
  exact (hfresh.move (does_play (.start {}) [])).move (does_play (.complete "exec_1" [] {}) [])

theorem completions_walk : Move.completions walk = ["exec_1"] := by
  cbv

end Sample

/-- A run of two steps, up to the end of the flow. -/
theorem Lives.notified_exactly_walked :
    (Sample.walked.stage Sample.ringing []).run.executionIds.Nodup ∧
      heard Event.flowCompleted? (Sample.walked.stage Sample.ringing []).calls = [.completed] ∧
      (heard Event.completed? (Sample.walked.stage Sample.ringing []).calls).map Prod.fst =
        ["exec_1"] ∧
      (∀ told ∈ heard Event.completed? (Sample.walked.stage Sample.ringing []).calls,
        told.2.2 = .completed) ∧
      ∃ x ∈ (Sample.walked.stage Sample.ringing []).run.executions, x.id = "exec_" ∧
        x.status = .completed ∧
        x.id ∉ heard Event.activated? (Sample.walked.stage Sample.ringing []).calls := by
  have hids : (Sample.walked.stage Sample.ringing []).run.executionIds = ["exec_", "exec_1"] := by
    cbv
  have hdiffer : (Sample.walked.stage Sample.ringing []).run.executionIds.Nodup := by
    rw [hids]
    decide
  have hstatus : (Sample.walked.stage Sample.ringing []).run.status = .completed := by
    cbv
  obtain ⟨hflow, hcompleted, hshown, _, hpassed, _⟩ :=
    Sample.lives_walked.notified_exactly rfl hdiffer
  rw [Sample.completions_walk] at hcompleted hpassed
  refine ⟨hdiffer, by rw [hflow, if_pos hstatus], hcompleted, hshown, ?_⟩
  have hstatuses : (Sample.walked.stage Sample.ringing []).run.executions.map
      (fun x => (x.id, x.status)) = [("exec_", .completed), ("exec_1", .completed)] := by
    cbv
  obtain ⟨x, hx, hpair⟩ := List.mem_map.mp (hstatuses ▸ List.mem_cons_self)
  obtain ⟨hxid, hdone⟩ := Prod.mk.inj hpair
  exact ⟨x, hx, hxid, hdone, (hpassed x hx hdone (by rw [hxid]; decide)).1⟩

end LiveEngine

end Workflow
