import Workflow.Proofs.Journal

namespace Workflow

def Run.Awaits (r : Run) (id : String) : Prop :=
  ∀ x ∈ r.executions, x.id = id → x.status = .pending

/-- Whether the step that an id means is over as soon as it starts; it is a step of the flow. -/
def Flow.PassesThrough (f : Flow) (id : String) (passes : Bool) : Prop :=
  ∃ place, f.find? id = some place ∧ place.step.body.isPassThrough = passes

/-- The executions that a journal leaves behind when so many steps can be passed. -/
def Journal.Leaves (js : Journal) (now : Instant) (limit : Nat) (z : Execution) : Prop :=
  z ∈ js.waiting ∨
    ∃ i x, js.passing[i]? = some x ∧ z = if i < limit then x.finish [] now else x

/-- Why a call does not move a run on. A run starts once. A submission is to no execution of the
run, or to one that cannot be completed, or it is to be revised. -/
def Move.IsRefused (r : Run) (a : Advance) : Move → Prop
  | .start _ => r.isActive = false ∨ r.executions ≠ []
  | .complete execution _ _ =>
    r.isActive = false ∨
      (∀ x, r.find? execution = some x → x.status.isCompletable = false) ∨
        a.revisionNeeded = true
  | .submit _ _ _ _ | .fail _ _ | .escalate _ => False

/-- Between two sessions, nothing is noted but reviews. -/
def Session.NotesReviews (s s' : Session) : Prop :=
  ∃ ns, s'.log.notices = s.log.notices ++ ns ∧
    ∀ n ∈ ns, ∃ step failure, n = .reviewed step failure

/-- What becomes of a run before it is moved on: nothing starts in it, and nothing is completed but
the execution that was submitted to. -/
structure Session.Prepares (s s' : Session) (subject : Option String) : Prop where
  awaits : ∀ id, s'.run.Awaits id ↔ s.run.Awaits id
  completed : ∀ z ∈ s'.run.executions, z.status = .completed →
    z ∈ s.run.executions ∨ subject = some z.id

namespace Engine

/-- What a journal tells of the answer and of the budget that is left. -/
structure Tells (e : Engine) (flow : Flow) (js : Journal) (budget : Nat) (a : Advance) : Prop where
  left : budget = e.policy.chainLimit.toNat - js.passing.length
  plans : js.plans.length + budget ≤ e.policy.chainLimit.toNat + 1
  activated : a.activated = js.waiting.map Execution.id
  nextStep : a.nextStep = js.waiting.head?.map Execution.stepId
  steps : ∀ p ∈ js.starts, ∃ place, flow.find? p.1.stepId = some place ∧ place.step = p.2
  inProgress : ∀ p ∈ js.starts, p.1.status = .inProgress

/-- What a journal tells of the executions that there were before and of those that there are
now. -/
structure Covers (e : Engine) (now : Instant) (s : Session) (js : Journal) (s' : Session) :
    Prop where
  distinct : js.startedIds.Nodup
  before : ∀ id ∈ js.startedIds, s.run.Awaits id
  mem : ∀ z, z ∈ s'.run.executions ↔
    z ∈ s.run.executions ∧ z.id ∉ js.startedIds ∨ js.Leaves now e.policy.chainLimit.toNat z

end Engine

theorem Sequence.getElem?_append_singleton_iff {α : Type} {as : List α} {a b : α} {i : Nat} :
    (as ++ [a])[i]? = some b ↔ as[i]? = some b ∨ i = as.length ∧ b = a := by
  rcases Nat.lt_trichotomy i as.length with h | h | h
  · simp [List.getElem?_append_left h, Nat.ne_of_lt h]
  · subst h
    simp [eq_comm]
  · simp [Nat.not_le.mpr h, Nat.ne_of_gt h, List.getElem?_eq_none (Nat.le_of_lt h)]

namespace Journal

variable {js js' : Journal} {now : Instant} {limit : Nat} {x z : Execution} {step : Step}

theorem Leaves.id_mem (h : js.Leaves now limit z) : z.id ∈ js.startedIds := by
  rw [mem_startedIds_iff]
  rcases h with hz | ⟨i, x, hx, rfl⟩
  · exact .inr ⟨z, hz, rfl⟩
  · refine .inl ⟨x, List.mem_of_getElem? hx, ?_⟩
    split
    · exact (x.id_finish [] now).symm
    · rfl

theorem exists_leaves (now : Instant) (limit : Nat) {id : String} (h : id ∈ js.startedIds) :
    ∃ z, js.Leaves now limit z ∧ z.id = id := by
  rcases (mem_startedIds_iff js id).mp h with ⟨x, hx, rfl⟩ | ⟨x, hx, rfl⟩
  · obtain ⟨i, hi⟩ := List.getElem?_of_mem hx
    refine ⟨_, .inr ⟨i, x, hi, rfl⟩, ?_⟩
    split
    · exact x.id_finish [] now
    · rfl
  · exact ⟨x, .inl hx, rfl⟩

theorem mem_starts_of_passing (h : x ∈ js.passing) :
    ∃ step, (x, step) ∈ js.starts ∧ step.body.isPassThrough = true := by
  simpa [passing] using h

theorem mem_starts_of_waiting (h : x ∈ js.waiting) :
    ∃ step, (x, step) ∈ js.starts ∧ step.body.isPassThrough = false := by
  simpa [waiting] using h

section One

variable (h : js'.starts = [(x, step)])
include h

theorem passing_of_starts : js'.passing = if step.body.isPassThrough then [x] else [] := by
  cases hp : step.body.isPassThrough <;> simp [passing, h, hp]

theorem waiting_of_starts : js'.waiting = if step.body.isPassThrough then [] else [x] := by
  cases hp : step.body.isPassThrough <;> simp [waiting, h, hp]

theorem startedIds_of_starts : js'.startedIds = [x.id] := by
  simp [startedIds, h]

/-- One more start leaves one more execution behind. -/
theorem leaves_append :
    (js ++ js').Leaves now limit z ↔ js.Leaves now limit z ∨
      z = if step.body.isPassThrough && decide (js.passing.length < limit) then x.finish [] now
        else x := by
  unfold Leaves
  rw [passing_append, waiting_append, passing_of_starts h, waiting_of_starts h]
  cases step.body.isPassThrough with
  | true =>
    simp only [if_true, List.append_nil, Sequence.getElem?_append_singleton_iff, Bool.true_and,
      decide_eq_true_eq]
    constructor
    · rintro (hz | ⟨i, y, hy | ⟨rfl, rfl⟩, rfl⟩)
      · exact .inl (.inl hz)
      · exact .inl (.inr ⟨i, y, hy, rfl⟩)
      · exact .inr rfl
    · rintro ((hz | ⟨i, y, hy, rfl⟩) | rfl)
      · exact .inl hz
      · exact .inr ⟨i, y, .inl hy, rfl⟩
      · exact .inr ⟨_, _, .inr ⟨rfl, rfl⟩, rfl⟩
  | false =>
    simp only [Bool.false_eq_true, if_false, List.append_nil, List.mem_append, List.mem_singleton,
      Bool.false_and]
    exact or_right_comm

end One

end Journal

namespace Session

variable {s t : Session} {x z : Execution}

theorem NotesReviews.refl (s : Session) : s.NotesReviews s :=
  ⟨[], (List.append_nil _).symm, by simp⟩

/-- An execution that is over at once takes the place that it had. -/
theorem mem_finish_iff (differ : s.run.executionIds.Nodup) (hx : x ∈ s.run.executions)
    (result : Record) (now : Instant) :
    z ∈ (s.finish x.id result now).run.executions ↔
      z = x.finish result now ∨ z ∈ s.run.executions ∧ z.id ≠ x.id :=
  ((s.turns_finish x.id result now).swaps (Run.find?_of_nodup differ hx)).mem_iff differ

end Session

namespace Engine

variable {e : Engine} {flow : Flow} {now : Instant} {s : Session}

variable (e flow now s) in
theorem activate_begins (step : Step) (fork : Option String) :
    ∃ x, (e.activate flow now s step fork).2 = some x ∧ x.status = .inProgress ∧
      x.stepId = step.id := by
  obtain ⟨-, x, hx, hp, hstep⟩ := e.strides_materialize flow s step {}
  obtain ⟨hy, -⟩ := activate_swaps now fork rfl hx hp
  exact ⟨_, hy, rfl, hstep⟩

/-- A step that starts takes an execution that has not started yet, or a new one. -/
theorem activate_mem {x : Execution} {step : Step} {fork : Option String}
    (hx : (e.activate flow now s step fork).2 = some x)
    (differ : (e.activate flow now s step fork).1.run.executionIds.Nodup) :
    s.run.Awaits x.id ∧
      ∀ z, z ∈ (e.activate flow now s step fork).1.run.executions ↔
        z = x ∨ z ∈ s.run.executions ∧ z.id ≠ x.id := by
  rcases e.materialize_cases flow s step with ⟨i, y, h, hy, -, hp⟩ | ⟨-, h⟩
  · obtain ⟨hbegun, hswaps⟩ := activate_swaps now fork h hy hp
    obtain rfl := Option.some.inj (hx.symm.trans hbegun)
    rw [hswaps.executionIds rfl] at differ
    refine ⟨fun z hz hid => ?_, fun z => hswaps.mem_iff differ⟩
    rw [Run.eq_of_id differ hz hswaps.mem hid]
    exact hp
  · obtain ⟨hrun, -⟩ := e.expect_fields flow s step
    have hlast : (e.expect flow s step).run.executions[s.run.executions.length]? =
        some (e.expected flow s step) := by
      rw [hrun]
      simp
    obtain ⟨hbegun, hswaps⟩ := activate_swaps now fork h hlast (e.status_expected flow s step)
    obtain rfl := Option.some.inj (hx.symm.trans hbegun)
    rw [hswaps.executionIds rfl] at differ
    have hfresh : ∀ z ∈ s.run.executions, z.id ≠ (e.expected flow s step).id := by
      unfold Run.executionIds at differ
      rw [hrun, List.map_append, List.nodup_append] at differ
      intro z hz
      exact differ.2.2 _ (List.mem_map_of_mem hz) _ (by simp)
    refine ⟨fun z hz hid => absurd hid (hfresh z hz), fun z => ?_⟩
    rw [hswaps.mem_iff differ, hrun, List.mem_append, List.mem_singleton, or_and_right]
    refine or_congr_right (or_iff_left ?_)
    rintro ⟨rfl, hne⟩
    exact hne rfl

section Pass

variable (m : Motion) (x : Execution) (step : Step) (fork : Option String)

variable (e flow now) in
theorem pass_plans : (e.passJournal flow now m x step fork).starts = [] ∧
    (e.pass flow now m x step fork).budget = m.budget - 1 ∧
    (e.passJournal flow now m x step fork).plans.length +
      (e.pass flow now m x step fork).budget = m.budget ∧
    (e.pass flow now m x step fork).advance = m.advance := by
  cases hb : m.budget with
  | zero =>
    rw [passJournal_zero hb, pass_zero hb, hb]
    exact ⟨rfl, rfl, rfl, rfl⟩
  | succ budget =>
    rw [passJournal_succ hb, pass_succ hb]
    exact ⟨rfl, rfl, Nat.add_comm _ _, rfl⟩

variable (e flow now) {m x} in
/-- An execution is over if it can be passed, and stays in progress if not. -/
theorem pass_mem (hx : x ∈ m.session.run.executions) (differ : m.session.run.executionIds.Nodup)
    (z : Execution) :
    z ∈ (e.pass flow now m x step fork).session.run.executions ↔
      (z = if 0 < m.budget then x.finish [] now else x) ∨
        z ∈ m.session.run.executions ∧ z.id ≠ x.id := by
  cases hb : m.budget with
  | zero =>
    rw [pass_zero hb]
    refine ⟨fun hz => ?_, ?_⟩
    · by_cases hid : z.id = x.id
      · exact .inl (Run.eq_of_id differ hz hx hid)
      · exact .inr ⟨hz, hid⟩
    · rintro (rfl | ⟨hz, -⟩)
      · exact hx
      · exact hz
  | succ budget =>
    rw [pass_succ hb]
    exact Session.mem_finish_iff differ hx [] now

variable {m x step fork} in
theorem executionIds_pass : (e.pass flow now m x step fork).session.run.executionIds =
    m.session.run.executionIds := by
  cases hb : m.budget with
  | zero => rw [pass_zero hb]
  | succ budget =>
    rw [pass_succ hb]
    exact Run.executionIds_modify (fun y => y.id_finish [] now) x.id

end Pass

section Follow

variable {m : Motion} {a : Activation} {place : Place} {x : Execution}

/-- A step that the flow has starts, and is passed or not. -/
theorem follow_starts (hf : flow.find? a.step = some place)
    (hx : (e.activate flow now m.session place.step a.fork).2 = some x) :
    (e.followJournal flow now m a).starts = [(x, place.step)] ∧
      (e.follow flow now m a).budget =
        m.budget - (if place.step.body.isPassThrough then 1 else 0) ∧
      (e.followJournal flow now m a).plans.length + (e.follow flow now m a).budget = m.budget ∧
      (e.follow flow now m a).advance =
        if place.step.body.isPassThrough then m.advance else m.advance.activate x place.step := by
  rw [followJournal_of hf hx, follow_of hf hx]
  cases hpass : place.step.body.isPassThrough with
  | false => simp
  | true =>
    obtain ⟨hstarts, hbudget, hplans, hadvance⟩ := e.pass_plans flow now
      { m with session := (e.activate flow now m.session place.step a.fork).1 } x place.step a.fork
    simp only [if_true, Journal.starts_cons_starts, Journal.plans_cons_starts, hstarts]
    exact ⟨trivial, hbudget, hplans, hadvance⟩

/-- What is left of an execution that starts, and that all others stay. -/
theorem follow_mem (hf : flow.find? a.step = some place)
    (hx : (e.activate flow now m.session place.step a.fork).2 = some x)
    (differ : (e.follow flow now m a).session.run.executionIds.Nodup) :
    m.session.run.Awaits x.id ∧
      ∀ z, z ∈ (e.follow flow now m a).session.run.executions ↔
        (z = if place.step.body.isPassThrough && decide (0 < m.budget) then x.finish [] now
          else x) ∨
          z ∈ m.session.run.executions ∧ z.id ≠ x.id := by
  rw [follow_of hf hx] at differ ⊢
  cases hpass : place.step.body.isPassThrough with
  | false =>
    rw [if_neg (by simp [hpass])] at differ
    exact activate_mem hx differ
  | true =>
    rw [if_pos hpass, executionIds_pass] at differ
    obtain ⟨hawaits, hmem⟩ := activate_mem hx differ
    refine ⟨hawaits, fun z => ?_⟩
    have hx' : x ∈ (e.activate flow now m.session place.step a.fork).1.run.executions :=
      (hmem x).mpr (.inl rfl)
    have hpass := e.pass_mem flow now (m := { m with session := _ }) place.step a.fork hx' differ z
    rw [if_pos rfl, hpass, hmem]
    simp only [Bool.true_and, decide_eq_true_eq]
    refine or_congr_right ⟨?_, fun ⟨hz, hne⟩ => ⟨.inr ⟨hz, hne⟩, hne⟩⟩
    rintro ⟨rfl | hz, hne⟩
    · exact absurd rfl hne
    · exact hz

end Follow

variable {js : Journal} {m : Motion} {a : Activation}

/-- The journal of an activation tells what the answer says of it. -/
theorem Tells.follow (h : e.Tells flow js m.budget m.advance) :
    e.Tells flow (js ++ e.followJournal flow now m a) (e.follow flow now m a).budget
      (e.follow flow now m a).advance := by
  cases hf : flow.find? a.step with
  | none =>
    obtain ⟨hnone, hsame⟩ := e.followJournal_none now m hf
    rw [hnone, hsame, List.append_nil]
    exact h
  | some place =>
    obtain ⟨x, hx, hstatus, hstep⟩ := e.activate_begins flow now m.session place.step a.fork
    obtain ⟨hstarts, hbudget, hplans, hadvance⟩ := follow_starts hf hx
    have hfound : flow.find? x.stepId = some place := by
      have hid : place.id = a.step := by simpa using List.find?_some hf
      rw [hstep, ← hf, ← hid]
      rfl
    have hall : ∀ {P : Execution × Step → Prop},
        (∀ p ∈ js.starts, P p) → P (x, place.step) →
        ∀ p ∈ (js ++ e.followJournal flow now m a).starts, P p := by
      intro P hold hnew p hp
      rw [Journal.starts_append, hstarts, List.mem_append, List.mem_singleton] at hp
      rcases hp with hp | rfl
      · exact hold p hp
      · exact hnew
    have hpassing := Journal.passing_of_starts hstarts
    have hwaiting := Journal.waiting_of_starts hstarts
    refine ⟨?_, ?_, ?_, ?_, hall h.steps ⟨place, hfound, rfl⟩, hall h.inProgress hstatus⟩
    · rw [hbudget, h.left, Journal.passing_append, hpassing, List.length_append, Nat.sub_sub]
      split <;> rfl
    · rw [Journal.plans_append, List.length_append, Nat.add_assoc, hplans]
      exact h.plans
    · rw [hadvance, Journal.waiting_append, hwaiting]
      split
      · rw [List.append_nil, h.activated]
      · rw [List.map_append, ← h.activated]
        rfl
    · rw [hadvance, Journal.waiting_append, hwaiting]
      split
      · rw [List.append_nil, h.nextStep]
      · rw [List.head?_append, Option.map_or, ← h.nextStep, List.head?_singleton,
          Option.map_some, hstep]
        rfl

section Status

variable {budget : Nat} {answer : Advance} (h : e.Tells flow js budget answer)
include h

theorem Tells.status_waiting {x : Execution} (hx : x ∈ js.waiting) : x.status = .inProgress := by
  obtain ⟨step, hp, -⟩ := Journal.mem_starts_of_waiting hx
  exact h.inProgress _ hp

theorem Tells.status_passing {x : Execution} (hx : x ∈ js.passing) : x.status = .inProgress := by
  obtain ⟨step, hp, -⟩ := Journal.mem_starts_of_passing hx
  exact h.inProgress _ hp

/-- An execution that was to be over at once is the same one, whether it could be passed or not. -/
theorem Tells.left_behind {x z : Execution} {passes : Prop} [Decidable passes]
    (hx : x ∈ js.passing) (hz : z = if passes then x.finish [] now else x) :
    z.id = x.id ∧ z.stepId = x.stepId ∧
      z.status = if passes then .completed else .inProgress := by
  have hstatus := h.status_passing hx
  rw [hz]
  split
  · rw [Execution.finish_of (by rw [hstatus]; rfl)]
    exact ⟨rfl, rfl, rfl⟩
  · exact ⟨rfl, rfl, hstatus⟩

theorem Tells.not_pending {limit : Nat} {z : Execution} (hz : js.Leaves now limit z) :
    z.status ≠ .pending := by
  rcases hz with hz | ⟨i, x, hx, hleft⟩
  · simp [h.status_waiting hz]
  · obtain ⟨-, -, hstatus⟩ := h.left_behind (List.mem_of_getElem? hx) hleft
    rw [hstatus]
    split <;> exact StepStatus.noConfusion

end Status

/-- A step that starts has an execution of its own, which is left as the journal tells. -/
theorem Covers.follow (htells : e.Tells flow js m.budget m.advance)
    (h : e.Covers now s js m.session)
    (differ : (e.follow flow now m a).session.run.executionIds.Nodup) :
    e.Covers now s (js ++ e.followJournal flow now m a) (e.follow flow now m a).session := by
  cases hf : flow.find? a.step with
  | none =>
    obtain ⟨hnone, hsame⟩ := e.followJournal_none now m hf
    rw [hnone, hsame, List.append_nil]
    exact h
  | some place =>
    obtain ⟨x, hx, hstatus, hstep⟩ := e.activate_begins flow now m.session place.step a.fork
    obtain ⟨hstarts, -⟩ := follow_starts hf hx
    obtain ⟨hawaits, hmem⟩ := follow_mem hf hx differ
    have hids := Journal.startedIds_of_starts hstarts
    have hbudget : (0 < m.budget) ↔ js.passing.length < e.policy.chainLimit.toNat := by
      rw [htells.left]
      omega
    -- Nothing that the journal tells of is pending any more.
    have hnew : x.id ∉ js.startedIds := by
      intro hid
      obtain ⟨z, hz, hzid⟩ := Journal.exists_leaves now e.policy.chainLimit.toNat hid
      exact htells.not_pending hz (hawaits z ((h.mem z).mpr (.inr hz)) hzid)
    have hother : ∀ z, js.Leaves now e.policy.chainLimit.toNat z → z.id ≠ x.id :=
      fun z hz hzid => hnew (hzid ▸ hz.id_mem)
    refine ⟨?_, ?_, fun z => ?_⟩
    · rw [Journal.startedIds_append, hids]
      exact h.distinct.append (List.nodup_singleton _) (by simpa using hnew)
    · intro id hid
      rw [Journal.startedIds_append, hids, List.mem_append, List.mem_singleton] at hid
      rcases hid with hid | rfl
      · exact h.before id hid
      · intro z hz hzid
        exact hawaits z ((h.mem z).mpr (.inl ⟨hz, hzid ▸ hnew⟩)) hzid
    · rw [hmem z, h.mem z, Journal.leaves_append hstarts, Journal.startedIds_append, hids]
      simp only [hbudget, List.mem_append, List.mem_singleton, not_or]
      have hz := hother z
      tauto

theorem Tells.congr {budget : Nat} {answer answer' : Advance} (h : e.Tells flow js budget answer)
    (hactivated : answer'.activated = answer.activated)
    (hnext : answer'.nextStep = answer.nextStep) : e.Tells flow js budget answer' :=
  ⟨h.left, h.plans, hactivated.trans h.activated, hnext.trans h.nextStep, h.steps, h.inProgress⟩

theorem Covers.of_executions {s' s'' : Session} (h : e.Covers now s js s')
    (heq : s''.run.executions = s'.run.executions) : e.Covers now s js s'' :=
  ⟨h.distinct, h.before, fun z => heq ▸ h.mem z⟩

theorem Covers.refl (e : Engine) (now : Instant) (s : Session) (h : js.starts = []) :
    e.Covers now s js s := by
  have hids : js.startedIds = [] := by simp [Journal.startedIds, h]
  refine ⟨by simp [hids], by simp [hids], fun z => ?_⟩
  simp [hids, Journal.Leaves, Journal.waiting, Journal.passing, h]

/-- The way of a run, from the plan that it sets out with. -/
theorem drive_covers (js : Journal) (m : Motion) (htells : e.Tells flow js m.budget m.advance)
    (h : e.Covers now s js m.session) :
    e.Tells flow (js ++ e.driveJournal flow now m) (e.drive flow now m).budget
        (e.drive flow now m).advance ∧
      ((e.drive flow now m).session.run.executionIds.Nodup →
        e.Covers now s (js ++ e.driveJournal flow now m) (e.drive flow now m).session) := by
  refine drive_keeps (P := fun js m => e.Tells flow js m.budget m.advance ∧
    (m.session.run.executionIds.Nodup → e.Covers now s js m.session)) ?_ ?_ ?_ js m
    ⟨htells, fun _ => h⟩
  · rintro js m plan rest - - ⟨htells, h⟩
    exact ⟨htells, fun differ => (h differ).of_executions rfl⟩
  · rintro js m a ⟨htells, h⟩
    refine ⟨htells.follow, fun differ => ?_⟩
    have hids := (e.proceeds_follow flow now m a).ids.sublist
    exact (h (hids.nodup differ)).follow htells differ
  · rintro js m plan rest status - - ⟨htells, h⟩
    exact ⟨htells.congr rfl rfl, fun differ => (h differ).of_executions rfl⟩

/-- Moving a run on, with what was planned just before. -/
theorem propagate_covers (e : Engine) (flow : Flow) (now : Instant) (s : Session) (js : Journal)
    (hstarts : js.starts = []) (hplans : js.plans.length ≤ 1) (flags : Flags) (plan : Plan) :
    (∃ budget,
      e.Tells flow (js ++ e.driveJournal flow now (e.setOut s plan { completed := true }))
        budget (e.propagate flow now flags s plan { completed := true }).2) ∧
      ((e.propagate flow now flags s plan { completed := true }).1.run.executionIds.Nodup →
        e.Covers now s (js ++ e.driveJournal flow now (e.setOut s plan { completed := true }))
          (e.propagate flow now flags s plan { completed := true }).1) := by
  have hset : e.Tells flow js (e.setOut s plan { completed := true }).budget
      (e.setOut s plan { completed := true }).advance := by
    refine ⟨?_, ?_, ?_, ?_, by simp [hstarts], by simp [hstarts]⟩
    · simp [Journal.passing, hstarts, setOut]
    · show js.plans.length + e.policy.chainLimit.toNat ≤ e.policy.chainLimit.toNat + 1
      omega
    · simp [Journal.waiting, hstarts, setOut]
    · simp [Journal.waiting, hstarts, setOut]
  obtain ⟨htells, hall⟩ := drive_covers js _ hset (.refl e now s hstarts)
  have htravel : (e.travel flow now s plan { completed := true }).session.run.executions =
      (e.drive flow now (e.setOut s plan { completed := true })).session.run.executions ∧
      (e.travel flow now s plan { completed := true }).advance.activated =
        (e.drive flow now (e.setOut s plan { completed := true })).advance.activated ∧
      (e.travel flow now s plan { completed := true }).advance.nextStep =
        (e.drive flow now (e.setOut s plan { completed := true })).advance.nextStep := by
    unfold travel
    dsimp only
    split <;> exact ⟨rfl, rfl, rfl⟩
  obtain ⟨hexecutions, hactivated, hnext⟩ := htravel
  refine ⟨⟨_, htells.congr ?_ ?_⟩, fun differ => (hall ?_).of_executions ?_⟩
  · rwa [propagate_snd]
  · rwa [propagate_snd]
  · rwa [run_propagate, Run.executionIds, hexecutions] at differ
  · rwa [run_propagate]

theorem pending_expectAll (steps : List Step) :
    ∀ z ∈ (e.expectAll flow s steps).run.executions,
      z ∈ s.run.executions ∨ z.status = .pending := by
  induction steps generalizing s with
  | nil => exact fun z hz => .inl hz
  | cons step rest ih =>
    intro z hz
    refine (ih (s := (e.materialize flow s step).1) z hz).elim (fun hz => ?_) .inr
    rcases e.materialize_cases flow s step with ⟨i, x, h, -⟩ | ⟨-, h⟩
    · rw [h] at hz
      exact .inl hz
    · rw [h, (e.expect_fields flow s step).1, List.mem_append, List.mem_singleton] at hz
      rcases hz with hz | rfl
      · exact .inl hz
      · exact .inr (e.status_expected flow s step)

/-- A run that is about to start has executions that wait for their steps, and no others. -/
theorem prepares_ready (e : Engine) (flow : Flow) (now : Instant) (hx : s.run.executions = []) :
    s.Prepares (e.ready flow now s) none := by
  have hpending : ∀ z ∈ (e.ready flow now s).run.executions, z.status = .pending := by
    intro z hz
    refine (pending_expectAll flow.steps z hz).resolve_left fun hz => ?_
    rw [Session.dated, hx] at hz
    cases hz
  refine ⟨fun id => iff_of_true (fun z hz _ => hpending z hz) (by simp [Run.Awaits, hx]), ?_⟩
  intro z hz hdone
  rw [hpending z hz] at hdone
  cases hdone

/-- A submission that is taken completes its execution. -/
theorem prepares_take {x : Execution} (hx : s.run.find? x.id = some x)
    (hopen : x.status.isCompletable = true) (result : Record) (now : Instant) :
    s.Prepares (s.take x result now) (some x.id) := by
  have hdone : (x.finish result now).status = .completed := by rw [Execution.finish_of hopen]
  obtain ⟨i, hi, h⟩ := (s.turns_take x result now).swaps hx
  obtain ⟨pre, post, hxs, hset⟩ := Sequence.split_of_getElem? hi
  have hafter := h.executions.trans (hset _)
  constructor
  · intro id
    unfold Run.Awaits
    rw [hafter, hxs]
    have hid := x.id_finish result now
    have hx' : x.status ≠ .pending := by
      rintro hp
      rw [hp] at hopen
      cases hopen
    simp only [List.mem_append, List.mem_cons, or_imp, forall_and, forall_eq, hid, hdone, hx',
      imp_false, reduceCtorEq]
  · intro z hz hcompleted
    rw [hafter, List.mem_append, List.mem_cons] at hz
    rw [hxs]
    rcases hz with hz | rfl | hz
    · exact .inl (List.mem_append_left _ hz)
    · exact .inr (congrArg some (x.id_finish result now).symm)
    · exact .inl (List.mem_append_right _ (List.mem_cons_of_mem _ hz))

/-- What a call does, told by its journal: the run that it finds when it sets out, the answer, and
the executions that it leaves behind. -/
structure Recounts (e : Engine) (flow : Flow) (now : Instant) (s : Session)
    (subject : Option String) (js : Journal) (s' : Session) (a : Advance) : Prop where
  tells : ∃ budget, e.Tells flow js budget a
  covers : ∃ s₀, s.Prepares s₀ subject ∧
    (s'.run.executionIds.Nodup → e.Covers now s₀ js s')

/-- A call that is refused has nothing to tell. -/
theorem Recounts.refuse {s' : Session} {subject : Option String} {a : Advance}
    (hrun : s'.run = s.run) (hactivated : a.activated = []) (hnext : a.nextStep = none) :
    e.Recounts flow now s subject [] s' a := by
  refine ⟨⟨_, rfl, ?_, hactivated, hnext, by simp, by simp⟩,
    s, ⟨fun _ => .rfl, fun _ hz _ => .inl hz⟩,
    fun _ => (Covers.refl e now s rfl).of_executions (by rw [hrun])⟩
  simp

theorem start_recounts (hs : s.run.isActive = true) (hx : s.run.executions = []) (flags : Flags) :
    e.Recounts flow now s none (e.startJournal flow now s) (e.start flow now flags s).1
      (e.start flow now flags s).2 := by
  have hprepares := prepares_ready e flow now hx
  rw [start_fresh hs hx, startJournal, if_neg (by simp [hs, hx])]
  cases flow.steps with
  | nil =>
    exact ⟨⟨_, rfl, by simp, rfl, rfl, by simp, by simp⟩, _, hprepares,
      fun _ => (Covers.refl e now _ rfl).of_executions rfl⟩
  | cons first rest =>
    obtain ⟨htells, hcovers⟩ := e.propagate_covers flow now (e.ready flow now s) [] rfl
      (Nat.zero_le _) flags { activations := [⟨first.id, none⟩] }
    exact ⟨htells, _, hprepares, hcovers⟩

/-- The journal of an accepted submission tells what the answer says. -/
theorem accept_recounts (e : Engine) (flow : Flow) (now : Instant) {s : Session} {x : Execution}
    (hx : s.run.find? x.id = some x)
    (hopen : x.status.isCompletable = true) (flags : Flags) (result : Record) :
    e.Recounts flow now s (some x.id) (e.acceptJournal flow now s x result)
      (e.accept flow now flags s x result).1 (e.accept flow now flags s x result).2 := by
  have hprepares := prepares_take hx hopen result now
  unfold acceptJournal
  cases hf : flow.find? x.stepId with
  | none =>
    have hsame : e.accept flow now flags s x result =
        (s.take x result now, { completed := true }) := by
      unfold accept
      simp only [hf]
      rfl
    rw [hsame]
    exact ⟨⟨_, rfl, by simp, rfl, rfl, by simp, by simp⟩, _, hprepares,
      fun _ => .refl e now _ rfl⟩
  | some place =>
    rw [accept_of hf]
    obtain ⟨htells, hcovers⟩ := e.propagate_covers flow now
      ((s.take x result now).settle (e.follows flow (s.take x result now) x.stepId result x.fork))
      [.plans x.stepId (e.follows flow (s.take x result now) x.stepId result x.fork).plan] rfl
      (Nat.le_refl _) flags (e.follows flow (s.take x result now) x.stepId result x.fork).plan
    have hsettled : s.Prepares ((s.take x result now).settle
        (e.follows flow (s.take x result now) x.stepId result x.fork)) (some x.id) :=
      ⟨hprepares.awaits, hprepares.completed⟩
    exact ⟨htells, _, hsettled, hcovers⟩

theorem notesReviews_judge (flags : Flags) (x : Execution) (result : Record) :
    s.NotesReviews (e.judge flow s flags x result).1 := by
  unfold judge
  split
  · split
    · exact .refl s
    · unfold review
      split
      · exact .refl s
      · split
        · exact ⟨[_], rfl, by simp⟩
        · exact .refl s
  · exact .refl s

/-- A submission that is not admitted changes nothing of the run, and leaves no more than a note of
its review. -/
theorem complete_refused (now : Instant) {flags : Flags} {execution : String} {result : Record}
    (h : e.admits? flow s flags execution result = none) :
    ∃ t a, e.complete flow now flags s execution result = (t, a) ∧ t.run = s.run ∧
      a.activated = [] ∧ a.nextStep = none ∧ s.NotesReviews t ∧
        (Move.complete execution result flags).IsRefused s.run a := by
  unfold admits? at h
  cases hx : s.run.find? execution with
  | none =>
    refine ⟨s, {}, ?_, rfl, rfl, rfl, .refl s, .inr (.inl fun x h => ?_)⟩
    · unfold complete
      simp only [hx]
    · rw [hx] at h
      cases h
  | some x =>
    rw [hx] at h
    dsimp only at h
    rw [complete_of result hx]
    split at h
    · rename_i hclosed
      rw [if_pos hclosed]
      refine ⟨s, {}, rfl, rfl, rfl, rfl, .refl s, ?_⟩
      rcases Bool.or_eq_true_iff.mp hclosed with hclosed | hclosed
      · refine .inr (.inl fun y h => ?_)
        rw [← Option.some.inj (hx.symm.trans h)]
        simpa using hclosed
      · exact .inl (by simpa using hclosed)
    · rename_i hopen
      rw [if_neg hopen]
      cases hv : (e.judge flow s flags x result).2 with
      | approved => simp [hv] at h
      | revise feedback issues =>
        exact ⟨_, _, rfl, e.run_judge flow s flags x result, rfl, rfl,
          notesReviews_judge flags x result, .inr (.inr rfl)⟩

variable (e flow now) in
/-- A start that is refused changes nothing, and has a reason. -/
theorem start_refused (flags : Flags) (h : s.run.isActive = true → s.run.executions ≠ []) :
    e.play flow now s (.start flags) = (s, .advance {}) ∧ e.startJournal flow now s = [] ∧
      (Move.start flags).IsRefused s.run {} := by
  have hsame : e.start flow now flags s = (s, {}) := start_again h
  refine ⟨congrArg (fun r => (r.1, Answer.advance r.2)) hsame, ?_, ?_⟩
  · unfold startJournal
    refine if_pos ?_
    cases hactive : s.run.isActive with
    | false => rfl
    | true => simp [h hactive]
  · cases hactive : s.run.isActive with
    | false => exact .inl hactive
    | true => exact .inr (h hactive)

/-- A submission that is admitted is accounted for. -/
theorem complete_recounts {flags : Flags} {x : Execution} {t : Session} {result : Record}
    (hsome : e.admits? flow s flags x.id result = some (t, x)) (hx : s.run.find? x.id = some x)
    (hopen : x.status.isCompletable = true) (hrun : t.run = s.run) :
    e.Recounts flow now s (some x.id) (e.playJournal flow now s (.complete x.id result flags))
      (e.accept flow now flags t x result).1 (e.accept flow now flags t x result).2 := by
  have hjournal : e.playJournal flow now s (.complete x.id result flags) =
      e.acceptJournal flow now t x result := by
    simp only [playJournal, accepts?, hsome, Option.map_some]
  obtain ⟨htells, s₀, hprepares, hcovers⟩ := e.accept_recounts flow now
    (hrun ▸ hx : t.run.find? x.id = some x) hopen flags result
  have hprepares' : s.Prepares s₀ (some x.id) := by
    refine ⟨?_, ?_⟩ <;> rw [← hrun]
    · exact hprepares.awaits
    · exact hprepares.completed
  rw [hjournal]
  exact ⟨htells, s₀, hprepares', hcovers⟩

/-- A call that moves a run on reports what it has done. A call that does not has a reason, changes
nothing of the run, and leaves no more than a note of a review. -/
theorem play_recounts {m : Move} {a : Advance} (ha : (e.play flow now s m).2 = .advance a) :
    e.Recounts flow now s m.subject? (e.playJournal flow now s m) (e.play flow now s m).1 a ∧
      (a.completed = false → (e.play flow now s m).1.run = s.run ∧
        s.NotesReviews (e.play flow now s m).1 ∧ m.IsRefused s.run a) := by
  cases m with
  | start flags =>
    have hjournal : e.playJournal flow now s (.start flags) = e.startJournal flow now s := rfl
    rw [hjournal]
    by_cases h : s.run.isActive = true → s.run.executions ≠ []
    · obtain ⟨hplay, hnone, hrefused⟩ := e.start_refused flow now flags h
      rw [hplay] at ha ⊢
      obtain rfl := Answer.advance.inj ha
      rw [hnone]
      exact ⟨.refuse rfl rfl rfl, fun _ => ⟨rfl, .refl s, hrefused⟩⟩
    · obtain rfl : (e.start flow now flags s).2 = a := Answer.advance.inj ha
      obtain ⟨hs, hx⟩ := Classical.not_imp.mp h
      have hx := not_not.mp hx
      have hcompleted : (e.start flow now flags s).2.completed = true :=
        (travels_start now hs hx flags).completed
      exact ⟨start_recounts hs hx flags, fun hno => by simp [hcompleted] at hno⟩
  | complete execution result flags =>
    obtain rfl : (e.complete flow now flags s execution result).2 = a := Answer.advance.inj ha
    rcases e.complete_cases flow now s flags execution result with
      ⟨hnone, -⟩ | ⟨x, t, hsome, hx, hopen, hactive, -, hrun, h⟩
    · have hjournal : e.playJournal flow now s (.complete execution result flags) = [] := by
        simp only [playJournal, accepts?, hnone, Option.map_none]
      obtain ⟨t, a, hsame, hrun, hactivated, hnext, hnotes, hrefused⟩ :=
        complete_refused now hnone
      have hplay : e.play flow now s (.complete execution result flags) = (t, .advance a) :=
        congrArg (fun r => (r.1, Answer.advance r.2)) hsame
      rw [hjournal, hplay, hsame]
      exact ⟨.refuse hrun hactivated hnext, fun _ => ⟨hrun, hnotes, hrefused⟩⟩
    · obtain rfl : x.id = execution := by simpa using List.find?_some hx
      have hcompleted : (e.accept flow now flags t x result).2.completed = true :=
        (travels_accept now (hrun ▸ hactive) flags x result).completed
      have hplay : e.play flow now s (.complete x.id result flags) =
          ((e.accept flow now flags t x result).1,
            .advance (e.accept flow now flags t x result).2) :=
        congrArg (fun r => (r.1, Answer.advance r.2)) h
      rw [hplay, h]
      exact ⟨complete_recounts hsome hx hopen hrun, fun hno => by simp [hcompleted] at hno⟩
  | submit execution assignment result flags => cases ha
  | fail execution reason => cases ha
  | escalate execution => cases ha

namespace Recounts

variable {subject : Option String} {s' : Session} {answer : Advance}
  (h : e.Recounts flow now s subject js s' answer)
include h

theorem step_of_waiting {x : Execution} (hx : x ∈ js.waiting) :
    flow.PassesThrough x.stepId false := by
  obtain ⟨_, htells⟩ := h.tells
  obtain ⟨step, hstart, hpass⟩ := Journal.mem_starts_of_waiting hx
  obtain ⟨place, hplace, rfl⟩ := htells.steps _ hstart
  exact ⟨place, hplace, hpass⟩

theorem step_of_passing {x : Execution} (hx : x ∈ js.passing) :
    flow.PassesThrough x.stepId true := by
  obtain ⟨_, htells⟩ := h.tells
  obtain ⟨step, hstart, hpass⟩ := Journal.mem_starts_of_passing hx
  obtain ⟨place, hplace, rfl⟩ := htells.steps _ hstart
  exact ⟨place, hplace, hpass⟩

variable (differ : s'.run.executionIds.Nodup)
include differ

theorem startedIds_nodup : js.startedIds.Nodup := by
  obtain ⟨_, _, hcovers⟩ := h.covers
  exact (hcovers differ).distinct

theorem mem_of_leaves {z : Execution} (hz : js.Leaves now e.policy.chainLimit.toNat z) :
    z ∈ s'.run.executions := by
  obtain ⟨_, _, hcovers⟩ := h.covers
  exact ((hcovers differ).mem z).mpr (.inr hz)

/-- The step that comes next is the one of the first execution that waits. -/
theorem nextStep_eq :
    answer.nextStep = (answer.activated.head?.bind s'.run.find?).map Execution.stepId := by
  obtain ⟨_, htells⟩ := h.tells
  rw [htells.nextStep, htells.activated]
  cases hw : js.waiting with
  | nil => rfl
  | cons x rest =>
    have hmem := h.mem_of_leaves differ (.inl (hw ▸ List.mem_cons_self) :
      js.Leaves now e.policy.chainLimit.toNat x)
    have hfind : s'.run.find? x.id = some x := Run.find?_of_nodup differ hmem
    rw [List.map_cons, List.head?_cons, List.head?_cons, Option.bind_some, hfind, Option.map_some]

/-- The executions that started in a call are those that had not started before it. -/
theorem leaves_iff {z : Execution} (hz : z ∈ s'.run.executions) :
    js.Leaves now e.policy.chainLimit.toNat z ↔ s.run.Awaits z.id ∧ z.status ≠ .pending := by
  obtain ⟨_, htells⟩ := h.tells
  obtain ⟨s₀, hprepares, hcovers⟩ := h.covers
  have hcovers := hcovers differ
  constructor
  · intro hleaves
    exact ⟨(hprepares.awaits z.id).mp (hcovers.before _ hleaves.id_mem),
      htells.not_pending hleaves⟩
  · rintro ⟨hawaits, hstarted⟩
    rcases (hcovers.mem z).mp hz with ⟨hz, -⟩ | hleaves
    · exact absurd ((hprepares.awaits z.id).mpr hawaits z hz rfl) hstarted
    · exact hleaves

/-- What is completed in a call is the execution that was submitted to, or was passed. -/
theorem completed {z : Execution} (hz : z ∈ s'.run.executions) (hdone : z.status = .completed) :
    z ∈ s.run.executions ∨ subject = some z.id ∨
      z.id ∈ (js.passing.take e.policy.chainLimit.toNat).map Execution.id := by
  obtain ⟨_, htells⟩ := h.tells
  obtain ⟨s₀, hprepares, hcovers⟩ := h.covers
  rcases ((hcovers differ).mem z).mp hz with ⟨hz, -⟩ | hwaits | ⟨i, x, hx, hleft⟩
  · rcases hprepares.completed z hz hdone with hz | hz
    · exact .inl hz
    · exact .inr (.inl hz)
  · rw [htells.status_waiting hwaits] at hdone
    cases hdone
  · obtain ⟨hid, -, hstatus⟩ := htells.left_behind (List.mem_of_getElem? hx) hleft
    refine .inr (.inr ?_)
    rw [hstatus] at hdone
    split at hdone
    · rename_i hi
      have htake : (js.passing.take e.policy.chainLimit.toNat)[i]? = some x := by
        rw [List.getElem?_take_of_lt hi, hx]
      rw [hid]
      exact List.mem_map_of_mem (List.mem_of_getElem? htake)
    · cases hdone

/-- The steps that are over as soon as they start, in the order in which they started: as many as
can be passed are over, and the others are left in progress. -/
theorem passed {i : Nat} {x : Execution} (hx : js.passing[i]? = some x) :
    ∃ y ∈ s'.run.executions, y.id = x.id ∧ y.stepId = x.stepId ∧
      y.status = (if i < e.policy.chainLimit.toNat then .completed else .inProgress) ∧
      s.run.Awaits x.id := by
  obtain ⟨_, htells⟩ := h.tells
  obtain ⟨z, hleft⟩ : ∃ z, z = if i < e.policy.chainLimit.toNat then x.finish [] now else x :=
    ⟨_, rfl⟩
  have hleaves : js.Leaves now e.policy.chainLimit.toNat z := .inr ⟨i, x, hx, hleft⟩
  have hz := h.mem_of_leaves differ hleaves
  have hawaits := ((h.leaves_iff differ hz).mp hleaves).1
  obtain ⟨hid, hstep, hstatus⟩ := htells.left_behind (List.mem_of_getElem? hx) hleft
  exact ⟨z, hz, hid, hstep, hstatus, hid ▸ hawaits⟩

/-- The steps that are over as soon as they start, told by the run before and after. -/
theorem mem_passing_iff (id : String) :
    id ∈ js.passing.map Execution.id ↔
      ∃ y ∈ s'.run.executions, y.id = id ∧ y.status ≠ .pending ∧
        s.run.Awaits id ∧ flow.PassesThrough y.stepId true := by
  constructor
  · intro hid
    obtain ⟨x, hx, rfl⟩ := List.mem_map.mp hid
    obtain ⟨i, hi⟩ := List.getElem?_of_mem hx
    obtain ⟨y, hy, hyid, hstep, hstatus, hawaits⟩ := h.passed differ hi
    refine ⟨y, hy, hyid, ?_, hawaits, hstep ▸ h.step_of_passing hx⟩
    rw [hstatus]
    split <;> exact StepStatus.noConfusion
  · obtain ⟨_, htells⟩ := h.tells
    rintro ⟨y, hy, rfl, hstarted, hawaits, place, hplace, hpass⟩
    rcases (h.leaves_iff differ hy).mpr ⟨hawaits, hstarted⟩ with hwaits | ⟨i, x, hx, hleft⟩
    · obtain ⟨place', hplace', hwaits⟩ := h.step_of_waiting hwaits
      obtain rfl := Option.some.inj (hplace.symm.trans hplace')
      rw [hpass] at hwaits
      cases hwaits
    · have hx := List.mem_of_getElem? hx
      exact List.mem_map.mpr ⟨x, hx, (htells.left_behind hx hleft).1.symm⟩

/-- The steps that wait for someone, told by the run before and after. -/
theorem mem_waiting_iff (id : String) :
    id ∈ js.waiting.map Execution.id ↔ ∃ y ∈ s'.run.executions, y.id = id ∧
      y.status = .inProgress ∧ s.run.Awaits id ∧ flow.PassesThrough y.stepId false := by
  obtain ⟨_, htells⟩ := h.tells
  constructor
  · intro hid
    obtain ⟨x, hx, rfl⟩ := List.mem_map.mp hid
    have hleaves : js.Leaves now e.policy.chainLimit.toNat x := .inl hx
    have hmem := h.mem_of_leaves differ hleaves
    exact ⟨x, hmem, rfl, htells.status_waiting hx, ((h.leaves_iff differ hmem).mp hleaves).1,
      h.step_of_waiting hx⟩
  · rintro ⟨y, hy, rfl, hstatus, hawaits, place, hplace, hwaits⟩
    have hstarted : y.status ≠ .pending := hstatus ▸ StepStatus.noConfusion
    rcases (h.leaves_iff differ hy).mpr ⟨hawaits, hstarted⟩ with hy | ⟨i, x, hx, hleft⟩
    · exact List.mem_map_of_mem hy
    · have hx := List.mem_of_getElem? hx
      obtain ⟨place', hplace', hpass⟩ := h.step_of_passing hx
      rw [(htells.left_behind hx hleft).2.1] at hplace
      obtain rfl := Option.some.inj (hplace.symm.trans hplace')
      rw [hwaits] at hpass
      cases hpass

end Recounts

end Engine

end Workflow
