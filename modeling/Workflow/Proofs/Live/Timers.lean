import Workflow.Proofs.Live.Hearing

namespace Workflow

namespace Session

/-- The timers of a session are in order: those of what is over are cancelled, for good. -/
structure Timely (s : Session) : Prop where
  introduced : s.Introduced
  final : s.events.Pairwise fun a b => ∀ id timer, a = .cancelAll id → b ≠ .schedule id timer
  cancelled : ∀ x ∈ s.run.executions, ∀ timer, .schedule x.id timer ∈ s.events →
    x.status.isTerminal = true ∨ s.run.isActive = false → .cancelAll x.id ∈ s.events

variable {s s' : Session} {x y : Execution} {ns : List Notice} {id : String} {timer : Timer}

theorem timely_of_fresh (hrun : s.run.IsFresh) (hnotices : s.log.notices = []) : s.Timely := by
  have hevents : s.events = [] := by rw [events, hnotices, List.flatMap_nil]
  refine ⟨?_, ?_, ?_⟩
  · intro event hevent
    rw [hevents] at hevent
    cases hevent
  · rw [hevents]
    exact .nil
  · intro x hx
    rw [hrun.executions] at hx
    cases hx

/-- Timers are only set when a step starts. -/
theorem Becomes.schedule (h : s.Becomes x y ns)
    (hevent : .schedule id timer ∈ ns.flatMap Notice.events) : x.status = .pending := by
  cases h with
  | announced _ hx => exact hx
  | parked | passed | stayed => cases hevent
  | concluded | failed => simp [Notice.events] at hevent

/-- Timers are only cancelled when a step was open. -/
theorem Becomes.cancelAll (h : s.Becomes x y ns)
    (hevent : .cancelAll id ∈ ns.flatMap Notice.events) : x.status.isCompletable = true := by
  cases h with
  | announced => simp [Notice.events] at hevent
  | parked | passed | stayed => cases hevent
  | concluded _ hx | failed hx => exact hx

/-- Timers follow what an execution becomes. -/
theorem Timely.swap (h : s.Timely) (differ : s.run.executionIds.Nodup) (hs' : s.Swaps s' x y ns)
    (hid : y.id = x.id) (hbecomes : s.Becomes x y ns) (introduced : s'.Introduced) : s'.Timely := by
  have hevents := hs'.events
  refine ⟨introduced, ?_, ?_⟩
  · rw [hevents, List.pairwise_append]
    refine ⟨h.final, List.pairwise_of_forall_mem_list ?_, ?_⟩
    · rintro _ ha _ hb id timer rfl rfl
      have hopen := hbecomes.cancelAll ha
      rw [hbecomes.schedule hb] at hopen
      cases hopen
    · rintro _ ha _ hb id timer rfl rfl
      have hx : id = x.id := hbecomes.execution hid hb rfl
      subst hx
      exact h.introduced.not_pending differ hs'.mem ha rfl (hbecomes.schedule hb)
  · intro z hz timer hset hover
    have hactive : s'.run.isActive = s.run.isActive := by
      rw [Run.isActive, hs'.status, Run.isActive]
    rw [hevents, List.mem_append] at hset ⊢
    rcases (hs'.mem_iff differ).mp hz with rfl | ⟨hz, hne⟩
    · rw [hid] at hset ⊢
      cases hbecomes with
      | announced ha _ hy | parked ha _ hy => simp [hactive, ha, hy, StepStatus.isTerminal] at hover
      | passed _ hx =>
        have hbefore : .schedule x.id timer ∈ s.events := by simpa using hset
        exact absurd hx (h.introduced.not_pending differ hs'.mem hbefore rfl)
      | concluded | failed => exact .inr (by simp [Notice.events])
      | stayed _ _ hstays =>
        have hbefore : .schedule x.id timer ∈ s.events := by simpa using hset
        refine .inl (h.cancelled x hs'.mem timer hbefore ?_)
        exact hover.imp (fun hz => hstays (.inr hz) ▸ hz) fun ha => hactive ▸ ha
    · rcases hset with hset | hset
      · exact .inl (h.cancelled z hz timer hset (hactive ▸ hover))
      · exact absurd (hbecomes.execution hid hset rfl) hne

/-- The end of a run cancels the timers of all that is open then. -/
theorem Timely.endRun {status : TerminateStatus} {now : Instant} (h : s.Timely)
    (differ : s.run.executionIds.Nodup) (introduced : (s.endRun status now).Introduced) :
    (s.endRun status now).Timely := by
  have hnever : ∀ id timer, .schedule id timer ∉
      ((openExecutions s.run).map .cancelAll ++
        if status = .completed then [.flowCompleted .completed] else [] : List Event) := by
    intro id timer
    split <;> simp
  refine ⟨introduced, ?_, ?_⟩
  · rw [events_endRun, List.pairwise_append]
    refine ⟨h.final, List.pairwise_of_forall_mem_list ?_, ?_⟩
    all_goals
      rintro _ _ _ hb id timer - rfl
      exact hnever id timer hb
  · intro x hx timer hset _
    rw [events_endRun, List.mem_append] at hset ⊢
    have hbefore : .schedule x.id timer ∈ s.events := hset.resolve_right (hnever x.id timer)
    have hstarted := h.introduced.not_pending differ hx hbefore rfl
    by_cases hopen : x.status.isCompletable = true
    · refine .inr (List.mem_append_left _ (List.mem_map_of_mem ?_))
      exact List.mem_map_of_mem (List.mem_filter.mpr ⟨hx, hopen⟩)
    · have hover : x.status.isTerminal = true := by
        cases hst : x.status <;> simp [hst, StepStatus.isCompletable] at hopen hstarted <;> rfl
      exact .inl (h.cancelled x hx timer hbefore (.inl hover))

/-- Every stroke keeps the timers in step with the executions. -/
theorem Shift.timely (h : s.Shift s') (differ : s.run.executionIds.Nodup)
    (differ' : s'.run.executionIds.Nodup) (hs : s.Timely) : s'.Timely := by
  have introduced := h.introduced differ hs.introduced
  cases h with
  | aside h =>
    refine ⟨introduced, h.events ▸ hs.final, ?_⟩
    rw [h.events, h.executions, h.isActive]
    exact hs.cancelled
  | expect hx h hns =>
    refine ⟨introduced, h.events_aside hns ▸ hs.final, ?_⟩
    intro z hz timer hset hover
    have hstarted := introduced.not_pending differ' hz hset rfl
    rw [h.executions, List.mem_append, List.mem_singleton] at hz
    rcases hz with hz | rfl
    · rw [h.events_aside hns] at hset ⊢
      exact hs.cancelled z hz timer hset (h.isActive ▸ hover)
    · exact absurd hx hstarted
  | swap h hid hbecomes => exact hs.swap differ h hid hbecomes introduced
  | ended ha status now hs' =>
    subst hs'
    exact hs.endRun differ introduced

end Session

open Call

namespace LiveEngine

variable {e : LiveEngine} {past : List (Move × Answer)} {t : Stage}

/-- The timers hear of what concerns them. -/
theorem filter_isTimed (timers : e.listeners.timers.isSome = true) (s : Session) :
    ((s.stage e []).calls.map Call.event).filter Event.isTimed = s.events.filter Event.isTimed := by
  have hconcern : e.listeners.Concern (Option.guard Event.isTimed) := by
    intro event hevent
    rw [Option.isSome_guard] at hevent
    exact .inl ⟨hevent, timers⟩
  have hheard := s.heard_stage hconcern
  unfold heard at hheard
  rwa [List.filterMap_eq_filter] at hheard

theorem mem_calls_iff (timers : e.listeners.timers.isSome = true) (s : Session) {event : Event}
    (hevent : event.isTimed = true) :
    event ∈ (s.stage e []).calls.map Call.event ↔ event ∈ s.events := by
  have hmem : event ∈ ((s.stage e []).calls.map Call.event).filter Event.isTimed ↔
      event ∈ s.events.filter Event.isTimed := by rw [filter_isTimed timers]
  simpa [List.mem_filter, hevent] using hmem

/-- No timer outlives its step. Once a step is over, or the run, its timers have been cancelled
after the last of them was set. After its timers were cancelled, none is set for a step any more.
Timers are only set for executions of the run. -/
theorem Lives.timers_cancelled (h : e.Lives past t) (timers : e.listeners.timers.isSome = true)
    (differ : t.run.executionIds.Nodup) :
    (∀ x ∈ t.run.executions, (∃ timer, .schedule x.id timer ∈ t.calls.map Call.event) →
      x.status = .completed ∨ x.status = .failed ∨ t.run.status ≠ .active →
      ∃ before after, t.calls.map Call.event = before ++ .cancelAll x.id :: after ∧
        ∀ timer, .schedule x.id timer ∉ after) ∧
    (∀ before after id timer, t.calls.map Call.event = before ++ .cancelAll id :: after →
      .schedule id timer ∉ after) ∧
    ∀ id timer, .schedule id timer ∈ t.calls.map Call.event →
      ∃ x ∈ t.run.executions, x.id = id := by
  obtain ⟨s, hlived, rfl⟩ := h.lived
  have htimely : s.Timely := hlived.induct differ (fun _ => Session.timely_of_fresh)
    fun _ _ differ differ' hshift => hshift.timely differ differ'
  have hfinal : ∀ before after id timer,
      (s.stage e []).calls.map Call.event = before ++ .cancelAll id :: after →
        .schedule id timer ∉ after := by
    have hpairwise := htimely.final.filter Event.isTimed
    rw [← filter_isTimed timers, List.pairwise_filter] at hpairwise
    intro before after id timer hsplit hset
    rw [hsplit, List.pairwise_append, List.pairwise_cons] at hpairwise
    exact hpairwise.2.1.1 _ hset rfl rfl id timer rfl rfl
  refine ⟨?_, hfinal, ?_⟩
  · rintro x hx ⟨timer, hset⟩ hover
    have hcancel : .cancelAll x.id ∈ s.events := by
      refine htimely.cancelled x hx timer ((mem_calls_iff timers s rfl).mp hset) ?_
      rcases hover with hdone | hfailed | hended
      · exact .inl (by rw [hdone]; rfl)
      · exact .inl (by rw [hfailed]; rfl)
      · exact .inr (beq_eq_false_iff_ne.mpr hended)
    obtain ⟨before, after, hsplit⟩ :=
      List.append_of_mem ((mem_calls_iff timers s rfl).mpr hcancel)
    exact ⟨before, after, hsplit, fun timer => hfinal before after x.id timer hsplit⟩
  · intro id timer hset
    obtain ⟨x, hx, hid, _⟩ :=
      htimely.introduced _ ((mem_calls_iff timers s rfl).mp hset) id rfl
    exact ⟨x, hx, hid⟩

namespace Sample

def clocked : LiveEngine :=
  { engine := Workflow.Sample.engine
    listeners := { timers := some fun _ _ => .ok () } }

/-- A branch that goes on as soon as one of its two paths is over. The step on the left is due after
an hour. -/
def dash : Flow :=
  { Flow.empty "dash" "" with
    steps := [⟨"fork", "", "", "", none, [], .branch .parallel .anyOne
      [⟨"left", "", {}, [{ Step.ofType "a" .form with
          due := some ⟨.relative, 1, .hours, none⟩ }]⟩,
        ⟨"right", "", {}, [Step.ofType "b" .form]⟩]⟩] }

def dashed : Session :=
  (clocked.engine.play dash ⟨0⟩
    (clocked.engine.play dash ⟨0⟩ (clocked.engine.play dash ⟨0⟩
    { run := {} } (.start {})).1 (.complete "exec_" [] {})).1 (.complete "exec_111" [] {})).1

theorem lives_dashed : ∃ past, clocked.Lives past (dashed.stage clocked []) := by
  have hfresh : clocked.Lives [] (({ run := {} } : Session).stage clocked []) :=
    .fresh ⟨rfl, rfl, rfl⟩ rfl
  exact ⟨_, ((hfresh.move (does_play (.start {}) [])).move
    (does_play (.complete "exec_" [] {}) [])).move (does_play (.complete "exec_111" [] {}) [])⟩

theorem calls_dashed : (dashed.stage clocked []).calls.map Call.event =
    [.cancelAll "exec_", .schedule "exec_11" ⟨.overdue, ⟨3600000000000⟩⟩,
      .cancelAll "exec_111", .cancelAll "exec_11"] := by
  cbv

end Sample

/-- The step on the left is left open when the run ends, and so its timer is cancelled. -/
theorem timers_cancelled_dashed :
    .schedule "exec_11" ⟨.overdue, ⟨3600000000000⟩⟩ ∈
        (Sample.dashed.stage Sample.clocked []).calls.map Call.event ∧
      (Sample.dashed.stage Sample.clocked []).run.status ≠ .active ∧
      ∃ before after, (Sample.dashed.stage Sample.clocked []).calls.map Call.event =
          before ++ .cancelAll "exec_11" :: after ∧
            ∀ timer, .schedule "exec_11" timer ∉ after := by
  have hset : .schedule "exec_11" ⟨.overdue, ⟨3600000000000⟩⟩ ∈
      (Sample.dashed.stage Sample.clocked []).calls.map Call.event := by
    rw [Sample.calls_dashed]
    decide
  have hended : (Sample.dashed.stage Sample.clocked []).run.status = .completed := by
    cbv
  have hids : (Sample.dashed.stage Sample.clocked []).run.executionIds =
      ["exec_", "exec_11", "exec_111"] := by
    cbv
  obtain ⟨past, hlives⟩ := Sample.lives_dashed
  obtain ⟨hcancelled, _, hof⟩ := hlives.timers_cancelled rfl (by rw [hids]; decide)
  obtain ⟨x, hx, hid⟩ := hof "exec_11" _ hset
  have hover : (Sample.dashed.stage Sample.clocked []).run.status ≠ .active := by
    rw [hended]
    decide
  refine ⟨hset, hover, ?_⟩
  rw [← hid] at hset ⊢
  exact hcancelled x hx ⟨_, hset⟩ (.inr (.inr hover))

end LiveEngine

end Workflow
