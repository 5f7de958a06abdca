import Workflow.Proofs.Journal.Account

namespace Workflow

/-- A run on its way, with the count of the steps that were to be passed. -/
structure Tour where
  session : Session
  advance : Advance
  chain : UInt32 := 0
  pending : List Plan
  exhausted : Bool := false

namespace Engine

section Loop

variable (e : Engine) (flow : Flow) (now : Instant) (flags : Flags)

/-- Counts a step that is over as soon as it starts, and passes it unless there were too many. -/
def passCounted (t : Tour) (x : Execution) (step : Step) (fork : Option String) : Tour :=
  let t := { t with chain := t.chain + 1 }
  if e.policy.chainLimit < t.chain then t
  else
    let s := t.session.finish x.id [] now
    let planned := e.follows flow s step.id [] fork
    { t with session := s.settle planned, pending := t.pending ++ [planned.plan] }

def followCounted (t : Tour) (a : Activation) : Tour :=
  match flow.find? a.step with
  | none => t
  | some place =>
    match e.activate flow now t.session place.step a.fork with
    | (s, none) => { t with session := s }
    | (s, some x) =>
      if place.step.body.isPassThrough then
        e.passCounted flow now { t with session := s } x place.step a.fork
      else { t with session := s, advance := t.advance.activate x place.step }

def finale (s : Session) (advance : Advance) (exhausted : Bool) : Session × Advance :=
  let (s, advance) :=
    if exhausted && s.run.isActive then
      (s.endRun .completed now, { advance with flowCompleted := true })
    else (s, advance)
  if s.run.isActive && !flags.skipAutomation then (e.automate flow s advance.activated, advance)
  else (s, advance)

/-- The loop, in a number of rounds; there is no result if a plan is left then. -/
def loop : Nat → Tour → Option (Session × Advance)
  | rounds, t =>
    match t.pending, rounds with
    | [], _ => some (e.finale flow now flags t.session t.advance t.exhausted)
    | _ :: _, 0 => none
    | plan :: rest, rounds + 1 =>
      let s := { t.session with
        run.terminateStatus := plan.terminate.or t.session.run.terminateStatus }
      match plan.ending? with
      | some status =>
        some (s.endRun status now,
          { t.advance with flowCompleted := t.advance.flowCompleted || status == .completed })
      | none =>
        loop rounds (plan.activations.foldl (e.followCounted flow now)
          { t with session := s, pending := rest, exhausted := t.exhausted || plan.exhausted })

/-- Moves a run on in a number of rounds. -/
def propagateWithin (rounds : Nat) (s : Session) (plan : Plan) (advance : Advance) :
    Option (Session × Advance) :=
  e.loop flow now flags rounds { session := s, advance := advance, pending := [plan] }

def startWithin (rounds : Nat) (s : Session) : Option (Session × Advance) :=
  if !s.run.isActive || !s.run.executions.isEmpty then some (s, {})
  else
    let s := e.ready flow now s
    match flow.steps with
    | [] => some (s.endRun .completed now, { completed := true, flowCompleted := true })
    | first :: _ =>
      e.propagateWithin flow now flags rounds s { activations := [⟨first.id, none⟩] }
        { completed := true }

def acceptWithin (rounds : Nat) (s : Session) (x : Execution) (result : Record) :
    Option (Session × Advance) :=
  let s := s.take x result now
  match flow.find? x.stepId with
  | none => some (s, { completed := true })
  | some _ =>
    let planned := e.follows flow s x.stepId result x.fork
    e.propagateWithin flow now flags rounds (s.settle planned) planned.plan { completed := true }

def completeWithin (rounds : Nat) (s : Session) (execution : String) (result : Record) :
    Option (Session × Advance) :=
  match s.run.find? execution with
  | none => some (s, {})
  | some x =>
    if !x.status.isCompletable || !s.run.isActive then some (s, {})
    else
      let (s, verdict) := e.judge flow s flags x result
      match verdict with
      | .approved => e.acceptWithin flow now flags rounds s x result
      | .revise feedback issues =>
        some (s, { revisionNeeded := true, feedback := feedback, issues := issues })

/-- Starts a run or completes a step, in a number of rounds. Other moves are not meant here. -/
def advanceWithin (rounds : Nat) (s : Session) : Move → Option (Session × Advance)
  | .start flags => e.startWithin flow now flags rounds s
  | .complete execution result flags => e.completeWithin flow now flags rounds s execution result
  | .submit _ _ _ _ | .fail _ _ | .escalate _ => none

end Loop

end Engine

/-- A motion, counted. -/
def Motion.tour (m : Motion) (chain : Nat) : Tour :=
  ⟨m.session, m.advance, .ofNat chain, m.pending, m.exhausted⟩

namespace Engine

variable {e : Engine} {flow : Flow} {now : Instant} {flags : Flags} {s : Session} {m : Motion}
  {chain : Nat}

theorem passCounted_tour (hbudget : m.budget = e.policy.chainLimit.toNat - chain)
    (hsmall : chain + 1 < 2 ^ 32) (x : Execution) (step : Step) (fork : Option String) :
    e.passCounted flow now (m.tour chain) x step fork =
      (e.pass flow now m x step fork).tour (chain + 1) := by
  have hcount : (m.tour chain).chain + 1 = UInt32.ofNat (chain + 1) := (UInt32.ofNat_add _ _).symm
  have hlt : e.policy.chainLimit < UInt32.ofNat (chain + 1) ↔ m.budget = 0 := by
    rw [UInt32.lt_iff_toNat_lt, UInt32.toNat_ofNat_of_lt' hsmall, hbudget]
    omega
  unfold passCounted
  simp only [hcount, hlt]
  cases hb : m.budget with
  | zero =>
    rw [pass_zero hb]
    rfl
  | succ budget =>
    rw [pass_succ hb]
    rfl

/-- A step that starts adds to the counter what it takes from the budget, as long as the counter
does not wrap. -/
theorem followCounted_tour (hbudget : m.budget = e.policy.chainLimit.toNat - chain)
    {a : Activation} (hsmall : chain + (e.followJournal flow now m a).passing.length < 2 ^ 32) :
    e.followCounted flow now (m.tour chain) a =
        (e.follow flow now m a).tour (chain + (e.followJournal flow now m a).passing.length) ∧
      (e.follow flow now m a).budget =
        e.policy.chainLimit.toNat - (chain + (e.followJournal flow now m a).passing.length) := by
  cases hf : flow.find? a.step with
  | none =>
    obtain ⟨hnone, hsame⟩ := e.followJournal_none now m hf
    rw [hnone, hsame]
    refine ⟨?_, hbudget⟩
    unfold followCounted
    rw [hf]
    rfl
  | some place =>
    obtain ⟨x, hx, -⟩ := e.activate_begins flow now m.session place.step a.fork
    obtain ⟨hstarts, hleft, -⟩ := follow_starts hf hx
    rw [Journal.passing_of_starts hstarts] at hsmall ⊢
    obtain ⟨t, ht⟩ : ∃ t, e.activate flow now m.session place.step a.fork = (t, some x) :=
      ⟨_, Prod.ext rfl hx⟩
    have hcounted : e.followCounted flow now (m.tour chain) a =
        if place.step.body.isPassThrough then
          e.passCounted flow now (Motion.tour { m with session := t } chain) x place.step a.fork
        else
          Motion.tour { m with
            session := t, advance := m.advance.activate x place.step } chain := by
      unfold followCounted
      simp only [hf, Motion.tour, ht]
    rw [hcounted, hleft, follow_of hf hx, ht]
    cases hpass : place.step.body.isPassThrough with
    | false => exact ⟨rfl, hbudget⟩
    | true =>
      rw [hpass] at hsmall
      refine ⟨?_, by simp only [if_true, List.length_singleton]; omega⟩
      have hbudget' : (Motion.budget { m with session := t }) =
        e.policy.chainLimit.toNat - chain := hbudget
      exact passCounted_tour hbudget' hsmall x place.step a.fork

/-- So do the steps of a plan. -/
theorem followAllCounted_tour (as : List Activation) :
    ∀ {m : Motion} {chain : Nat}, m.budget = e.policy.chainLimit.toNat - chain →
      chain + (e.followAllJournal flow now m as).passing.length < 2 ^ 32 →
      as.foldl (e.followCounted flow now) (m.tour chain) =
          (e.followAll flow now m as).tour
            (chain + (e.followAllJournal flow now m as).passing.length) ∧
        (e.followAll flow now m as).budget = e.policy.chainLimit.toNat -
          (chain + (e.followAllJournal flow now m as).passing.length) := by
  induction as with
  | nil => exact fun hbudget _ => ⟨rfl, hbudget⟩
  | cons a rest ih =>
    intro m chain hbudget hsmall
    rw [followAllJournal, Journal.passing_append, List.length_append,
      ← Nat.add_assoc] at hsmall ⊢
    obtain ⟨hfirst, hleft⟩ := followCounted_tour hbudget
      (Nat.lt_of_le_of_lt (Nat.le_add_right _ _) hsmall)
    rw [List.foldl_cons, hfirst]
    exact ih hleft hsmall

theorem loop_nil {t : Tour} (h : t.pending = []) (rounds : Nat) :
    e.loop flow now flags rounds t =
      some (e.finale flow now flags t.session t.advance t.exhausted) := by
  unfold loop
  rw [h]

/-- One round takes up one plan. -/
theorem loop_cons {m : Motion} {plan : Plan} {rest : List Plan} (h : m.pending = plan :: rest)
    (chain rounds : Nat) :
    e.loop flow now flags (rounds + 1) (m.tour chain) =
      match plan.ending? with
      | some status =>
        some (view (({ m with pending := rest }.mark plan).endRun status now))
      | none =>
        e.loop flow now flags rounds (plan.activations.foldl (e.followCounted flow now)
          (({ m with pending := rest }.mark plan).tour chain)) := by
  rw [loop.eq_def]
  simp only [Motion.tour, h]
  rfl

/-- A run that has ended goes no further. -/
theorem finale_endRun (m : Motion) (status : TerminateStatus) :
    e.finale flow now flags (m.endRun status now).session (m.endRun status now).advance
        (m.endRun status now).exhausted = view (m.endRun status now) := by
  have hended : (m.endRun status now).session.run.isActive = false :=
    m.session.isActive_endRun status now
  unfold finale
  simp [hended, view]

/-- The loop that counts comes to the end that the budget leads to. -/
theorem loop_tour (m : Motion) :
    ∀ (chain rounds : Nat), m.budget = e.policy.chainLimit.toNat - chain →
      chain + (e.driveJournal flow now m).passing.length < 2 ^ 32 → m.weight ≤ rounds →
      e.loop flow now flags rounds (m.tour chain) =
        some (e.finale flow now flags (e.drive flow now m).session (e.drive flow now m).advance
          (e.drive flow now m).exhausted) := by
  have hround : ∀ {m : Motion} {plan : Plan} {rest : List Plan} {rounds : Nat},
      m.pending = plan :: rest → m.weight ≤ rounds →
      ∃ n, rounds = n + 1 ∧ Motion.weight { m with pending := rest } ≤ n := by
    intro m plan rest rounds hp hrounds
    simp only [Motion.weight, hp, List.length_cons] at hrounds ⊢
    exact ⟨rounds - 1, by omega, by omega⟩
  -- A round takes up one pending plan, and every plan that is added costs one of the budget: the
  -- weight falls with the rounds, while chain and budget together stay at the limit.
  induction m using drive.induct e flow now with
  | case1 m hp =>
    intro chain rounds _ _ _
    rw [drive_nil hp]
    exact loop_nil hp rounds
  | case2 m plan rest hp status hend =>
    intro chain rounds _ _ hrounds
    obtain ⟨rounds, rfl, -⟩ := hround hp hrounds
    rw [drive_cons hp, loop_cons hp, hend]
    exact congrArg some (finale_endRun _ status).symm
  | case3 m plan rest hp marked hend =>
    rename_i ih
    intro chain rounds hbudget hsmall hrounds
    obtain ⟨rounds, rfl, hleft⟩ := hround hp hrounds
    rw [driveJournal_cons hp, hend] at hsmall
    rw [Journal.passing_append, List.length_append, ← Nat.add_assoc] at hsmall
    obtain ⟨hall, hbudget'⟩ := followAllCounted_tour plan.activations (m := marked) hbudget
      (Nat.lt_of_le_of_lt (Nat.le_add_right _ _) hsmall)
    rw [drive_cons hp, loop_cons hp, hend]
    dsimp only
    rw [hall]
    refine ih _ rounds hbudget' hsmall ?_
    rw [weight_followAll]
    exact hleft

theorem propagate_eq_finale (flags : Flags) (s : Session) (plan : Plan) (advance : Advance) :
    e.propagate flow now flags s plan advance =
      e.finale flow now flags (e.drive flow now (e.setOut s plan advance)).session
        (e.drive flow now (e.setOut s plan advance)).advance
        (e.drive flow now (e.setOut s plan advance)).exhausted := by
  unfold propagate finale
  dsimp only
  rw [← setOut]
  generalize e.drive flow now (e.setOut s plan advance) = m
  have hcompleted : (m.advance.flowCompleted || TerminateStatus.completed == .completed) = true :=
    Bool.or_true _
  cases m.exhausted && m.session.run.isActive with
  | false => rfl
  | true => simp only [if_true, Motion.endRun, hcompleted]

theorem propagateWithin_eq {plan : Plan} {advance : Advance}
    (hsmall : (e.driveJournal flow now (e.setOut s plan advance)).passing.length < 2 ^ 32) :
    e.propagateWithin flow now flags (e.policy.chainLimit.toNat + 1) s plan advance =
      some (e.propagate flow now flags s plan advance) := by
  rw [propagate_eq_finale]
  exact loop_tour (e.setOut s plan advance) 0 _ rfl (by rwa [Nat.zero_add]) (Nat.le_refl _)

/-- A start within enough rounds is the start. -/
theorem startWithin_eq (hsmall : (e.startJournal flow now s).passing.length < 2 ^ 32) :
    e.startWithin flow now flags (e.policy.chainLimit.toNat + 1) s =
      some (e.start flow now flags s) := by
  unfold startWithin
  unfold startJournal at hsmall
  by_cases hfresh : (!s.run.isActive || !s.run.executions.isEmpty) = true
  · rw [if_pos hfresh, start, if_pos hfresh]
  · rw [if_neg hfresh] at hsmall ⊢
    simp only [Bool.or_eq_true, Bool.not_eq_true', not_or, Bool.not_eq_false,
      List.isEmpty_iff] at hfresh
    rw [start_fresh hfresh.1 hfresh.2]
    cases hsteps : flow.steps with
    | nil => rfl
    | cons first rest =>
      rw [hsteps] at hsmall
      exact propagateWithin_eq hsmall

/-- A submission that is taken within enough rounds is taken. -/
theorem acceptWithin_eq {x : Execution} {result : Record}
    (hsmall : (e.acceptJournal flow now s x result).passing.length < 2 ^ 32) :
    e.acceptWithin flow now flags (e.policy.chainLimit.toNat + 1) s x result =
      some (e.accept flow now flags s x result) := by
  unfold acceptWithin
  unfold acceptJournal at hsmall
  cases hf : flow.find? x.stepId with
  | none =>
    unfold accept
    simp only [hf]
    rfl
  | some place =>
    rw [accept_of hf]
    rw [hf] at hsmall
    exact propagateWithin_eq hsmall

theorem completeWithin_eq {execution : String} {result : Record}
    (hsmall : (e.playJournal flow now s (.complete execution result flags)).passing.length
      < 2 ^ 32) :
    e.completeWithin flow now flags (e.policy.chainLimit.toNat + 1) s execution result =
      some (e.complete flow now flags s execution result) := by
  unfold completeWithin
  cases hx : s.run.find? execution with
  | none =>
    unfold complete
    simp only [hx]
  | some x =>
    rw [complete_of result hx]
    dsimp only
    by_cases hclosed : (!x.status.isCompletable || !s.run.isActive) = true
    · rw [if_pos hclosed, if_pos hclosed]
    · rw [if_neg hclosed, if_neg hclosed]
      cases hv : (e.judge flow s flags x result).2 with
      | revise feedback issues => rfl
      | approved =>
        refine acceptWithin_eq ?_
        have hadmits : e.admits? flow s flags execution result =
            some ((e.judge flow s flags x result).1, x) := by
          unfold admits?
          simp only [hx, hclosed, hv]
          rfl
        simpa only [playJournal, accepts?, hadmits, Option.map_some] using hsmall

/-- Every move within enough rounds is the move. -/
theorem advanceWithin_eq {m : Move} {a : Advance} (ha : (e.play flow now s m).2 = .advance a)
    (hsmall : (e.playJournal flow now s m).passing.length < 2 ^ 32) :
    e.advanceWithin flow now (e.policy.chainLimit.toNat + 1) s m =
      some ((e.play flow now s m).1, a) := by
  cases m with
  | start flags =>
    obtain rfl : (e.start flow now flags s).2 = a := Answer.advance.inj ha
    exact startWithin_eq hsmall
  | complete execution result flags =>
    obtain rfl : (e.complete flow now flags s execution result).2 = a := Answer.advance.inj ha
    exact completeWithin_eq hsmall
  | submit execution assignment result flags => cases ha
  | fail execution reason => cases ha
  | escalate execution => cases ha

section Width

/-- A plan starts at most as many steps as the flow has, and one more. -/
theorem length_activations_follows (e : Engine) (flow : Flow) (s : Session) (stepId : String)
    (result : Record) (fork : Option String) :
    (e.follows flow s stepId result fork).plan.activations.length ≤ flow.ids.length + 1 := by
  have honward : ∀ next : Onward, next.toPlan.activations.length ≤ flow.ids.length + 1 := by
    intro next
    cases next <;> simp [Onward.toPlan]
  unfold follows Outline.after
  split
  · exact Nat.zero_le _
  · rename_i i _
    refine Outline.afterPlace_cases
      (P := fun planned => planned.plan.activations.length ≤ flow.ids.length + 1) flow.outline
      e.policy s.run.forks ⟨result, s.run⟩ fork (e.nextId s "pg") i ?_ ?_ ?_ ?_ ?_ ?_
    · exact fun _ => honward _
    · exact fun _ _ _ _ => honward _
    · intro kind join paths taken hb _ ht _ _
      have hheads : (Path.heads (e.nextId s "pg") taken).length ≤ flow.ids.length := by
        have hsub := (Path.heads_sublist (e.nextId s "pg") hb ht).trans
          ((Step.heads_sublist _).trans (Outline.has_place i).ids_sublist)
        simpa using hsub.length_le
      rw [Outline.fanOut_eq]
      split
      · rcases flow.outline.onward (s.run.forks ++ [_]) fork i with ⟨_ | _ | _, _⟩ <;>
          simp only [Plan.add, List.length_append, List.length_singleton] <;> omega
      · exact Nat.le_succ_of_le hheads
    · exact fun _ _ _ _ _ => Nat.succ_le_succ (Nat.zero_le _)
    · exact fun _ _ _ => Nat.zero_le _
    · exact fun _ _ => honward _

theorem length_starts_follow (m : Motion) (a : Activation) :
    (e.followJournal flow now m a).starts.length ≤ 1 := by
  cases hf : flow.find? a.step with
  | none =>
    rw [(e.followJournal_none now m hf).1]
    exact Nat.zero_le _
  | some place =>
    obtain ⟨x, hx, -⟩ := e.activate_begins flow now m.session place.step a.fork
    rw [(follow_starts hf hx).1]
    exact Nat.le_refl _

theorem length_starts_followAll (as : List Activation) (m : Motion) :
    (e.followAllJournal flow now m as).starts.length ≤ as.length := by
  induction as generalizing m with
  | nil => exact Nat.le_refl _
  | cons a rest ih =>
    rw [followAllJournal, Journal.starts_append, List.length_append, List.length_cons, Nat.add_comm]
    exact Nat.add_le_add (ih _) (length_starts_follow m a)

section Pending

variable {P : Plan → Prop} (hP : ∀ s stepId fork, P (e.follows flow s stepId [] fork).plan)
include hP

/-- What is pending after a step was passed was pending before it, or follows it. -/
theorem pending_pass (x : Execution) (step : Step) (fork : Option String)
    (h : ∀ plan ∈ m.pending, P plan) :
    ∀ plan ∈ (e.pass flow now m x step fork).pending, P plan := by
  cases hb : m.budget with
  | zero =>
    rw [pass_zero hb]
    exact h
  | succ budget =>
    rw [pass_succ hb]
    intro plan hplan
    rcases List.mem_append.mp hplan with hplan | hplan
    · exact h plan hplan
    · rw [List.mem_singleton.mp hplan]
      exact hP _ _ _

theorem pending_follow (a : Activation) (h : ∀ plan ∈ m.pending, P plan) :
    ∀ plan ∈ (e.follow flow now m a).pending, P plan := by
  cases hf : flow.find? a.step with
  | none =>
    rw [(e.followJournal_none now m hf).2]
    exact h
  | some place =>
    obtain ⟨x, hx, -⟩ := e.activate_begins flow now m.session place.step a.fork
    rw [follow_of hf hx]
    split
    · exact pending_pass hP x place.step a.fork h
    · exact h

theorem pending_followAll (as : List Activation) (h : ∀ plan ∈ m.pending, P plan) :
    ∀ plan ∈ (e.followAll flow now m as).pending, P plan := by
  induction as generalizing m with
  | nil => exact h
  | cons a rest ih => exact ih (pending_follow hP a h)

end Pending

/-- Every plan that is carried out was paid for, and starts so many steps. -/
theorem length_starts_drive (m : Motion)
    (h : ∀ plan ∈ m.pending, plan.activations.length ≤ flow.ids.length + 1) :
    (e.driveJournal flow now m).starts.length ≤ m.weight * (flow.ids.length + 1) := by
  induction m using drive.induct e flow now with
  | case1 m hp =>
    rw [driveJournal_nil hp]
    exact Nat.zero_le _
  | case2 m plan rest hp status hend =>
    rw [driveJournal_cons hp, hend]
    exact Nat.zero_le _
  | case3 m plan rest hp marked hend ih =>
    have hmarked : ∀ p ∈ marked.pending, p.activations.length ≤ flow.ids.length + 1 :=
      fun p hmem => h p (hp ▸ List.mem_cons_of_mem plan hmem)
    have hrest := ih (pending_followAll (fun _ _ _ => length_activations_follows e flow _ _ _ _)
      plan.activations hmarked)
    have hfirst : (e.followAllJournal flow now marked plan.activations).starts.length ≤
        flow.ids.length + 1 :=
      (length_starts_followAll plan.activations marked).trans (h plan (hp ▸ List.mem_cons_self))
    have hweight : m.weight = marked.weight + 1 := by
      simp [Motion.weight, marked, Motion.mark, hp, Nat.add_assoc]
    rw [weight_followAll] at hrest
    rw [driveJournal_cons hp, hend, hweight, Nat.succ_mul, Nat.add_comm]
    dsimp only
    rw [Journal.starts_append, List.length_append]
    exact Nat.add_le_add hfirst hrest

/-- However a flow goes round, a call starts no more steps than the limit of the chain lets it. -/
theorem length_starts_play (s : Session) (m : Move) :
    (e.playJournal flow now s m).starts.length ≤
      (e.policy.chainLimit.toNat + 1) * (flow.ids.length + 1) := by
  unfold playJournal
  split
  · rename_i t x result _
    unfold acceptJournal
    split
    · exact Nat.zero_le _
    · refine length_starts_drive (e.setOut _ _ _) fun plan hplan => ?_
      rw [List.mem_singleton.mp hplan]
      exact length_activations_follows e flow _ _ _ _
  · split
    · unfold startJournal
      split
      · exact Nat.zero_le _
      · split
        · exact Nat.zero_le _
        · refine length_starts_drive (e.setOut _ _ _) fun plan hplan => ?_
          rw [List.mem_singleton.mp hplan]
          exact Nat.succ_le_succ (Nat.zero_le _)
    all_goals exact Nat.zero_le _

/-- The count does not wrap if the limit of the chain is small enough for the flow. -/
theorem passing_lt_of_limit (s : Session) (m : Move)
    (h : (e.policy.chainLimit.toNat + 1) * (flow.ids.length + 1) < 2 ^ 32) :
    (e.playJournal flow now s m).passing.length < 2 ^ 32 := by
  have hpassing : (e.playJournal flow now s m).passing.length ≤
      (e.playJournal flow now s m).starts.length := by
    rw [Journal.passing, List.length_map]
    exact List.length_filter_le _ _
  exact Nat.lt_of_le_of_lt (hpassing.trans (length_starts_play s m)) h

end Width

/-- Starting a run and completing a step come to an end, whatever the flow. As many of the steps
that are over as soon as they start are passed as the limit of the chain says, and the others are
left in progress. -/
theorem advance_stops (e : Engine) (flow : Flow) (now : Instant) (s : Session) (m : Move)
    (a : Advance) (ha : (e.play flow now s m).2 = .advance a)
    (differ : (e.play flow now s m).1.run.executionIds.Nodup)
    (small : (e.playJournal flow now s m).passing.length < 2 ^ 32) :
    e.advanceWithin flow now (e.policy.chainLimit.toNat + 1) s m =
        some ((e.play flow now s m).1, a) ∧
      (e.playJournal flow now s m).plans.length ≤ e.policy.chainLimit.toNat + 1 ∧
      ((e.playJournal flow now s m).passing.map Execution.id).Nodup ∧
      (∀ id, id ∈ (e.playJournal flow now s m).passing.map Execution.id ↔
        ∃ y ∈ (e.play flow now s m).1.run.executions, y.id = id ∧ y.status ≠ .pending ∧
          s.run.Awaits id ∧ flow.PassesThrough y.stepId true) ∧
      (∀ i x, (e.playJournal flow now s m).passing[i]? = some x →
        ∃ y ∈ (e.play flow now s m).1.run.executions, y.id = x.id ∧
          y.status = if i < e.policy.chainLimit.toNat then .completed else .inProgress) ∧
      ∀ y ∈ (e.play flow now s m).1.run.executions, y.status = .completed →
        y ∈ s.run.executions ∨ m.subject? = some y.id ∨
          y.id ∈ ((e.playJournal flow now s m).passing.take e.policy.chainLimit.toNat).map
            Execution.id := by
  obtain ⟨hrecounts, -⟩ := play_recounts ha
  obtain ⟨budget, htells⟩ := hrecounts.tells
  refine ⟨advanceWithin_eq ha small, Nat.le_of_add_right_le htells.plans, ?_,
    hrecounts.mem_passing_iff differ, fun i x hx => ?_, fun y hy => hrecounts.completed differ hy⟩
  · exact (hrecounts.startedIds_nodup differ).sublist (Journal.ids_sublist _ _)
  · obtain ⟨y, hy, hid, -, hstatus, -⟩ := hrecounts.passed differ hx
    exact ⟨y, hy, hid, hstatus⟩

end Engine

namespace Sample

/-- A flow that goes round and round, with nobody to stop it. -/
def carousel : Flow :=
  { Flow.empty "carousel" "" with
    steps := [⟨"gate", "", "", "", none, [], .gotoDestination "gate"⟩,
      ⟨"back", "", "", "", none, [], .goto "gate"⟩] }

def brief : Engine :=
  { engine with policy := { chainLimit := 3 } }

def ride : Session × Answer :=
  brief.play carousel ⟨0⟩ { run := {} } (.start {})

theorem executionIds_ride :
    ride.1.run.executionIds = ["exec_", "exec_1", "exec_11", "exec_111"] := by
  cbv

end Sample

/-- Of the four steps that start, one is too many. -/
theorem Engine.advance_stops_ride :
    ∃ a, Sample.ride.2 = .advance a ∧ Sample.ride.1.run.executionIds.Nodup ∧
      (Sample.brief.playJournal Sample.carousel ⟨0⟩ { run := {} } (.start {})).passing.length =
        4 ∧
      Sample.brief.advanceWithin Sample.carousel ⟨0⟩ 4 { run := {} } (.start {}) =
        some (Sample.ride.1, a) ∧
      Sample.ride.1.run.executions.map Execution.status =
        [.completed, .completed, .completed, .inProgress] := by
  obtain ⟨a, ha⟩ : ∃ a, Sample.ride.2 = .advance a := ⟨_, rfl⟩
  have differ : Sample.ride.1.run.executionIds.Nodup := by
    rw [Sample.executionIds_ride]
    decide
  have hfour :
    (Sample.brief.playJournal Sample.carousel ⟨0⟩ { run := {} } (.start {})).passing.length
      = 4 := by
    cbv
  obtain ⟨hends, -⟩ := Engine.advance_stops Sample.brief Sample.carousel ⟨0⟩ { run := {} }
    (.start {}) a ha differ (Engine.passing_lt_of_limit _ _ (by decide))
  exact ⟨a, ha, differ, hfour, hends, by cbv⟩

end Workflow
