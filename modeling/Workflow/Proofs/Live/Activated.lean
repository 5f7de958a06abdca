import Workflow.Proofs.Journal.Account
import Workflow.Proofs.Live.Notified

namespace Workflow

/-- Whether a move is answered by how it moved the run. -/
def Move.advances : Move → Bool
  | .start _ | .complete _ _ _ => true
  | .submit _ _ _ _ | .fail _ _ | .escalate _ => false

/-- The session that a stage is for an engine, with nothing noted in it yet. -/
def Stage.session (t : Stage) : Session :=
  ⟨t.run, t.drawn, t.reviews, []⟩

theorem Stage.stage_session {e : LiveEngine} (t : Stage) : t.session.stage e t.calls = t := rfl

open Call

/-- What the answer to a call tells of what the call did. -/
structure Stage.Answers (e : LiveEngine) (flow : Flow) (now : Instant) (t : Stage) (m : Move)
    (a : Advance) (t' : Stage) (new : List Call) : Prop where
  calls : t'.calls = t.calls ++ new
  nodup : t'.run.executionIds.Nodup → a.activated.Nodup
  /-- The list names the executions of steps that wait for someone, of those that had not started
  before the call and are in progress after it. -/
  mem_activated : t'.run.executionIds.Nodup → ∀ id, id ∈ a.activated ↔
    ∃ y ∈ t'.run.executions, y.id = id ∧ y.status = .inProgress ∧ t.run.Awaits id ∧
      flow.PassesThrough y.stepId false
  /-- It has the order in which they started, which is the order in which the notifier is told. -/
  order : a.activated = (e.engine.playJournal flow now t.session m).waiting.map Execution.id
  told : e.listeners.notifier.isSome = true → heard Event.activated? new = a.activated
  nextStep : t'.run.executionIds.Nodup →
    a.nextStep = (a.activated.head?.bind t'.run.find?).map Execution.stepId
  refused : a.completed = false →
    t'.run = t.run ∧ (∀ c ∈ new, ∃ step, c.event = .review step) ∧ m.IsRefused t.run a

/-- Reviews are told of as reviews. -/
theorem Listeners.tellAll_reviewed (l : Listeners) (hours : UInt32) {ns : List Notice}
    (h : ∀ n ∈ ns, ∃ step failure, n = .reviewed step failure) (calls : List Call) :
    ∃ new, l.tellAll hours calls ns = calls ++ new ∧
      ∀ c ∈ new, ∃ step, c.event = .review step := by
  induction ns generalizing calls with
  | nil => exact ⟨[], (List.append_nil calls).symm, by simp⟩
  | cons n rest ih =>
    obtain ⟨step, failure, rfl⟩ := h n List.mem_cons_self
    obtain ⟨new, hnew, hevents⟩ :=
      ih (fun n hn => h n (List.mem_cons_of_mem _ hn)) (calls ++ [⟨.review step, failure⟩])
    refine ⟨⟨.review step, failure⟩ :: new, hnew.trans (List.append_assoc _ _ _),
      fun c hc => ?_⟩
    rcases List.mem_cons.mp hc with rfl | hc
    · exact ⟨step, rfl⟩
    · exact hevents c hc

namespace LiveEngine

/-- Every start of a run, and every completion of a step, answers what it did. -/
theorem advance_answers (e : LiveEngine) (flow : Flow) (now : Instant) (t : Stage) (m : Move)
    (hm : m.advances = true) :
    ∃ a t' new, (e.play flow now m).run t = .ok (.advance a) t' ∧
      t.Answers e flow now m a t' new := by
  obtain ⟨a, ha⟩ : ∃ a, (e.engine.play flow now t.session m).2 = .advance a := by
    cases m <;> first | exact ⟨_, rfl⟩ | cases hm
  have hdoes : (e.play flow now m).run (t.session.stage e t.calls) =
      .ok (e.engine.play flow now t.session m).2
        ((e.engine.play flow now t.session m).1.stage e t.calls) :=
    does_play m t.calls
  obtain ⟨hrecounts, hrefused⟩ := Engine.play_recounts ha
  obtain ⟨_, htells⟩ := hrecounts.tells
  obtain ⟨ns, hns⟩ := (e.engine.deed_play flow now t.session m).accounts
  obtain ⟨new, hnew, hheard⟩ := Session.heard_next (e := e) t.calls hns.notices
  rw [t.stage_session] at hdoes hnew
  refine ⟨a, _, new, ha ▸ hdoes, hnew, fun differ => ?_, fun differ => ?_, htells.activated,
    fun hthere => ?_, fun differ => hrecounts.nextStep_eq differ, fun hno => ?_⟩
  · rw [htells.activated]
    exact (hrecounts.startedIds_nodup differ).sublist (Journal.ids_sublist _ _)
  · rw [htells.activated]
    exact hrecounts.mem_waiting_iff differ
  · have hactivated := hns.activated
    rw [ha] at hactivated
    exact (hheard (concern_news hthere).1).trans hactivated
  · obtain ⟨hsame, ⟨reviews, hreviews, hall⟩, hcause⟩ := hrefused hno
    obtain ⟨new', hnew', hevents⟩ := e.listeners.tellAll_reviewed e.hours hall t.calls
    have hcalls : ((e.engine.play flow now t.session m).1.stage e t.calls).calls =
      t.calls ++ new' := by
      rw [← hnew', Session.stage, hreviews]
      rfl
    obtain rfl : new = new' := List.append_cancel_left (hnew.symm.trans hcalls)
    exact ⟨hsame, hevents, hcause⟩

/-- The start passes the place and activates the step behind it. Another start is refused. -/
theorem advance_answers_walking :
    (∃ a t' new, (Sample.ringing.play Sample.lane ⟨0⟩ (.start {})).run { run := {} } =
        .ok (.advance a) t' ∧ t'.run.executionIds.Nodup ∧ a.activated = ["exec_1"] ∧
        a.nextStep = some "a" ∧ heard Event.activated? new = ["exec_1"] ∧
        ∃ y ∈ t'.run.executions, y.id = "exec_1" ∧ y.status = .inProgress) ∧
      ∃ a t' new, (Sample.ringing.play Sample.lane ⟨0⟩ (.start {})).run
          (Sample.walking.stage Sample.ringing []) = .ok (.advance a) t' ∧ a.completed = false ∧
        t'.run = Sample.walking.run ∧
        t'.calls = (Sample.walking.stage Sample.ringing []).calls ++ new ∧
        ∀ c ∈ new, ∃ step, c.event = .review step := by
  constructor
  · obtain ⟨a, t', new, hrun, hanswers⟩ :=
      advance_answers Sample.ringing Sample.lane ⟨0⟩ { run := {} } (.start {}) rfl
    have hdoes : (Sample.ringing.play Sample.lane ⟨0⟩ (.start {})).run { run := {} } =
        .ok (Sample.ringing.engine.play Sample.lane ⟨0⟩ { run := {} } (.start {})).2
          (Sample.walking.stage Sample.ringing []) :=
      does_play (s := { run := {} }) (.start {}) []
    obtain ⟨ha, rfl⟩ := EStateM.Result.ok.inj (hrun.symm.trans hdoes)
    have hids : (Sample.walking.stage Sample.ringing []).run.executionIds =
      ["exec_", "exec_1"] := by
      cbv
    have differ : (Sample.walking.stage Sample.ringing []).run.executionIds.Nodup := by
      rw [hids]
      decide
    have hactivated : a.activated = ["exec_1"] := by
      rw [hanswers.order]
      cbv
    have hmem :=
      (hanswers.mem_activated differ "exec_1").mp (hactivated ▸ List.mem_singleton_self _)
    obtain ⟨y, hy, hid, hstatus, -⟩ := hmem
    refine ⟨a, _, new, hrun, differ, hactivated, ?_, (hanswers.told rfl).trans hactivated,
      y, hy, hid, hstatus⟩
    rw [hanswers.nextStep differ, hactivated]
    cbv
  · obtain ⟨a, t', new, hrun, hanswers⟩ := advance_answers Sample.ringing Sample.lane ⟨0⟩
      (Sample.walking.stage Sample.ringing []) (.start {}) rfl
    have hdoes : (Sample.ringing.play Sample.lane ⟨0⟩ (.start {})).run
        (Sample.walking.stage Sample.ringing []) =
          .ok (Sample.ringing.engine.play Sample.lane ⟨0⟩ Sample.walking (.start {})).2 _ :=
      does_play (.start {}) []
    obtain ⟨ha, -⟩ := EStateM.Result.ok.inj (hrun.symm.trans hdoes)
    have hno : a.completed = false := by
      have hanswer : (Sample.ringing.engine.play Sample.lane ⟨0⟩ Sample.walking (.start {})).2 =
          .advance {} := by
        cbv
      rw [Answer.advance.inj (ha.trans hanswer)]
    obtain ⟨hsame, hreviews, -⟩ := hanswers.refused hno
    exact ⟨a, t', new, hrun, hno, hsame, hanswers.calls, hreviews⟩

end LiveEngine

end Workflow
