import Workflow.Proofs.SingleChange

namespace Workflow

theorem Sequence.mem_modifyFirst {α : Type} {p : α → Bool} {f : α → α}
    {as : List α} {b : α}
    (h : b ∈ modifyFirst p f as) : b ∈ as ∨ ∃ a ∈ as, p a = true ∧ b = f a := by
  induction as with
  | nil => cases h
  | cons a rest ih =>
    rw [modifyFirst] at h
    split at h
    · rename_i ha
      rcases List.mem_cons.mp h with rfl | h
      · exact .inr ⟨a, List.mem_cons_self, ha, rfl⟩
      · exact .inl (List.mem_cons_of_mem _ h)
    · rcases List.mem_cons.mp h with rfl | h
      · exact .inl List.mem_cons_self
      · rcases ih h with h | ⟨a, ha, hb⟩
        · exact .inl (List.mem_cons_of_mem _ h)
        · exact .inr ⟨a, List.mem_cons_of_mem _ ha, hb⟩

theorem Session.Swaps.mem_or {s s' : Session} {x y z : Execution} {ns : List Notice}
    (h : s.Swaps s' x y ns) (hz : z ∈ s'.run.executions) : z ∈ s.run.executions ∨ z = y := by
  obtain ⟨i, _, h⟩ := h
  rw [h.executions] at hz
  exact List.mem_or_eq_of_mem_set hz

namespace Engine

/-- A property that an execution has from the first, when no more than `n` identifiers are drawn,
and that it keeps as long as the run goes on. -/
structure Upholds (e : Engine) (n : Nat) (P : Execution → Prop) : Prop where
  expected : ∀ flow s step,
    s.log.drawn + 1 + (e.expected flow s step).assignments.length ≤ n →
      P (e.expected flow s step)
  begun : ∀ x step fork flowDue now, x.status = .pending → P x →
    P (x.begun step fork flowDue now)
  finish : ∀ x result now, P x → P (x.finish result now)
  amends : ∀ r x y ns, r.isActive = true → x.Amends r y ns → P x → P y
  concludes : ∀ x now y, x.Concludes now y → P x → P y

variable {e : Engine} {flow : Flow} {s s' : Session} {n : Nat} {P : Execution → Prop}

/-- A property that records are made with and keep holds on the whole way. -/
theorem Stride.kept {a a' : Advance} (h : e.Stride flow (s, a) (s', a')) (hP : e.Upholds n P)
    (hn : s'.log.drawn ≤ n) (hs : ∀ x ∈ s.run.executions, P x) :
    ∀ x ∈ s'.run.executions, P x := by
  intro z hz
  cases h with
  | aside h => exact hs z (h.executions ▸ hz)
  | expect _ h _ hdrawn =>
    rw [h.executions] at hz
    rcases List.mem_append.mp hz with hz | hz
    · exact hs z hz
    · rw [List.mem_singleton.mp hz]
      exact hP.expected flow s _ (Nat.le_trans hdrawn hn)
  | announce _ hp _ _ h | park _ hp _ _ h =>
    rcases h.mem_or hz with hz | rfl
    · exact hs z hz
    · exact hP.begun _ _ _ _ _ hp (hs _ h.mem)
  | @pass _ t _ _ x step fork now _ hp _ _ h hfinish =>
    have ht : ∀ y ∈ t.run.executions, P y := by
      intro y hy
      rcases h.mem_or hy with hy | rfl
      · exact hs y hy
      · exact hP.begun _ _ _ _ _ hp (hs _ h.mem)
    rw [hfinish.executions] at hz
    rcases Sequence.mem_modifyFirst hz with hz | ⟨y, hy, _, rfl⟩
    · exact ht z hz
    · exact hP.finish y [] now (ht y hy)

/-- It holds after every stroke. -/
theorem Stroke.kept (h : e.Stroke s s') (hP : e.Upholds n P) (hn : s'.log.drawn ≤ n)
    (hs : s.run.isActive = true → ∀ x ∈ s.run.executions, P x) (ha : s'.run.isActive = true) :
    ∀ x ∈ s'.run.executions, P x := by
  cases h with
  | stride h => exact h.kept hP hn (hs (by rwa [Run.isActive, h.status] at ha))
  | @amend x y ns h hs' =>
    have ha' : s.run.isActive = true := by rwa [Run.isActive, hs'.status] at ha
    intro z hz
    rcases hs'.mem_or hz with hz | rfl
    · exact hs ha' z hz
    · exact hP.amends s.run x z ns ha' h (hs ha' x hs'.mem)
  | @conclude x y now ha' h hs' =>
    intro z hz
    rcases hs'.mem_or hz with hz | rfl
    · exact hs ha' z hz
    · exact hP.concludes x now z h (hs ha' x hs'.mem)
  | ended _ status now hs' =>
    rw [hs', Session.isActive_endRun] at ha
    cases ha

theorem Stroke.drawn (h : e.Stroke s s') : s.log.drawn ≤ s'.log.drawn := by
  cases h with
  | stride h =>
    cases h with
    | aside h =>
      obtain ⟨_, h, _⟩ := h
      exact h.drawn
    | expect _ h => exact h.drawn
    | announce _ _ _ _ h | park _ _ _ _ h =>
      obtain ⟨_, _, h⟩ := h
      exact h.drawn
    | pass _ _ _ _ h hfinish =>
      obtain ⟨_, _, h⟩ := h
      exact Nat.le_trans h.drawn hfinish.drawn
  | amend _ hs' | conclude _ _ hs' =>
    obtain ⟨_, _, hs'⟩ := hs'
    exact hs'.drawn
  | ended _ _ _ hs' => exact Nat.le_of_eq (hs' ▸ rfl)

theorem Strokes.drawn (h : e.Strokes s s') : s.log.drawn ≤ s'.log.drawn := by
  induction h with
  | refl => exact Nat.le_refl _
  | tail _ hstroke ih => exact Nat.le_trans ih hstroke.drawn

theorem Strokes.kept (h : e.Strokes s s') (hP : e.Upholds n P) (hn : s'.log.drawn ≤ n)
    (hs : s.run.isActive = true → ∀ x ∈ s.run.executions, P x) :
    s'.run.isActive = true → ∀ x ∈ s'.run.executions, P x := by
  induction h with
  | refl => exact hs
  | tail _ hstroke ih => exact hstroke.kept hP hn (ih (Nat.le_trans hstroke.drawn hn))

theorem Reaches.strokes {allowed : Move → Prop} (h : e.Reaches flow allowed s) :
    ∃ s₀ : Session, s₀.run.IsFresh ∧ e.Strokes s₀ s := by
  induction h with
  | start hs => exact ⟨_, hs, strokes_play _⟩
  | move _ _ ih =>
    obtain ⟨s₀, hs₀, hstrokes⟩ := ih
    exact ⟨s₀, hs₀, hstrokes.trans (strokes_play _)⟩

theorem Reaches.kept {allowed : Move → Prop} (h : e.Reaches flow allowed s)
    (hP : e.Upholds s.log.drawn P) (ha : s.run.isActive = true) :
    ∀ x ∈ s.run.executions, P x := by
  obtain ⟨s₀, hs₀, hstrokes⟩ := h.strokes
  refine hstrokes.kept hP (Nat.le_refl _) (fun _ x hx => ?_) ha
  rw [hs₀.executions] at hx
  cases hx

end Engine

namespace Execution

/-- No assignment that is open carries data. -/
def Blank (x : Execution) : Prop :=
  ∀ a ∈ x.assignments, a.status = .pending → a.result = [] ∧ a.completedAt = none

/-- As long as nobody has submitted anything, all assignments are open. -/
def Untouched (x : Execution) : Prop :=
  x.status = .pending ∨ x.status = .inProgress → ∀ a ∈ x.assignments, a.status = .pending

variable {x : Execution} {assignment : String} {result : Record} {now : Instant} {a : Assignment}

theorem assignments_finish (x : Execution) (result : Record) (now : Instant) :
    (x.finish result now).assignments = x.assignments := by
  unfold finish
  split <;> rfl

/-- An execution that cannot finish stays as it is. -/
theorem finish_cases (x : Execution) (result : Record) (now : Instant) :
    x.finish result now = x ∨ (x.finish result now).status = .completed := by
  unfold finish StepStatus.move?
  split
  · exact .inl rfl
  · rename_i status hmove
    refine .inr ?_
    split at hmove
    · exact (Option.some.inj hmove).symm
    · cases hmove

theorem mem_assignments_submit (h : a ∈ (x.submit assignment result now).assignments) :
    a ∈ x.assignments ∨ a.status = .completed := by
  rcases Sequence.mem_modifyFirst h with h | ⟨b, _, _, rfl⟩
  · exact .inl h
  · exact .inr rfl

/-- Opening an assignment again makes nothing of what was submitted. -/
theorem reopen_submit (x : Execution) (assignment : String) (result : Record) (now : Instant) :
    (x.submit assignment result now).reopen assignment = x.reopen assignment := by
  have hmerge := Sequence.modifyFirst_modifyFirst (p := fun a : Assignment => a.id == assignment)
    (f := fun a => { a with status := .completed, result := result, completedAt := some now })
    (fun _ ha => ha) (fun a => { a with status := .pending, result := [], completedAt := none })
    x.assignments
  unfold reopen submit modifyAssignment
  rw [hmerge]

theorem mem_assignments_reopen (h : a ∈ (x.reopen assignment).assignments) :
    a ∈ x.assignments ∨ a.status = .pending ∧ a.result = [] ∧ a.completedAt = none := by
  rcases Sequence.mem_modifyFirst h with h | ⟨b, _, _, rfl⟩
  · exact .inl h
  · exact .inr ⟨rfl, rfl, rfl⟩

/-- An assignment without data that is open can be opened again without effect. -/
theorem reopen_eq_self (hx : x.Blank) (hfind : x.findAssignment? assignment = some a)
    (hp : a.status = .pending) : x.reopen assignment = x := by
  obtain ⟨hresult, hcompletedAt⟩ := hx a (List.mem_of_find?_eq_some hfind) hp
  have hsame : Sequence.modifyFirst (fun b : Assignment => b.id == assignment)
      (fun b => { b with status := .pending, result := [], completedAt := none }) x.assignments =
        x.assignments := by
    refine Sequence.modifyFirst_eq_self fun b hb => ?_
    obtain rfl : a = b := Option.some.inj (hfind.symm.trans hb)
    rw [← hp, ← hresult, ← hcompletedAt]
  unfold reopen modifyAssignment
  rw [hsame]

theorem submissions_submit (hfind : x.findAssignment? assignment = some a)
    (hp : a.status = .pending) (result : Record) (now : Instant) :
    (x.submit assignment result now).submissions = x.submissions + 1 := by
  obtain ⟨pre, post, hsplit, hmodify⟩ := Sequence.modifyFirst_of_find? hfind fun a =>
    { a with status := .completed, result := result, completedAt := some now }
  unfold submissions submit modifyAssignment
  dsimp only
  rw [hmodify, hsplit]
  simp [hp]
  omega

/-- One more submission meets the quorum or does not, whatever it says. -/
theorem isQuorate_submit (hfind : x.findAssignment? assignment = some a) (hp : a.status = .pending)
    (result : Record) (now : Instant) :
    (x.submit assignment result now).isQuorate =
      x.quorum.isSatisfied (x.submissions + 1) x.assignments.length := by
  have hlength : (x.submit assignment result now).assignments.length = x.assignments.length :=
    Sequence.length_modifyFirst _ _ _
  unfold isQuorate
  rw [submissions_submit hfind hp, hlength]
  rfl

/-- The assignments of a new execution are open. -/
theorem mem_assignments_assign {newId : Nat → String} {assignees : List Assignee}
    (hx : x.assignments = []) (h : a ∈ (x.assign newId assignees).assignments) :
    a.status = .pending ∧ a.result = [] ∧ a.completedAt = none := by
  match assignees with
  | [] | [_] =>
    have hnone : a ∈ x.assignments := h
    rw [hx] at hnone
    cases hnone
  | _ :: _ :: _ =>
    obtain ⟨i, _, rfl⟩ := List.mem_mapIdx.mp h
    exact ⟨rfl, rfl, rfl⟩

end Execution

/-- What is over is found as it was. -/
theorem Run.Proceeds.find? {r r' : Run} {id : String} {x : Execution} (h : r.Proceeds r')
    (differ : r'.executionIds.Nodup) (hx : r.find? id = some x)
    (hover : x.status.isTerminal = true) : r'.find? id = some x := by
  obtain ⟨rfl, _⟩ := Run.marks_of_find? hx
  obtain ⟨i, hi⟩ := List.getElem?_of_mem (List.mem_of_find?_eq_some hx)
  obtain ⟨y, hy, hages⟩ := h.ages differ i x hi
  obtain rfl := hages.settled hover
  exact Run.find?_of_nodup differ (List.mem_of_getElem? hy)

namespace Engine

variable (e : Engine) (n : Nat)

/-- No assignment that is open carries data. -/
theorem upholds_blank : e.Upholds n Execution.Blank where
  expected flow s step _ a ha _ := (Execution.mem_assignments_assign rfl ha).2
  begun x step fork flowDue now _ hx := hx
  finish x result now hx := by
    unfold Execution.Blank
    rw [x.assignments_finish]
    exact hx
  amends r x y ns _ h hx := by
    cases h with
    | fail | escalate => exact hx
    | wait | keep =>
      intro a ha hp
      rcases Execution.mem_assignments_submit ha with ha | hdone
      · exact hx a ha hp
      · rw [hp] at hdone
        cases hdone
    | revise =>
      rw [Execution.reopen_submit]
      intro a ha hp
      rcases Execution.mem_assignments_reopen ha with ha | ⟨_, hblank⟩
      · exact hx a ha hp
      · exact hblank
    | release =>
      intro a ha hp
      obtain ⟨b, hb, rfl⟩ := List.mem_map.mp ha
      split at hp
      · cases hp
      · rename_i hclosed
        exact absurd hp hclosed
  concludes x now y h hx := by
    cases h with
    | complete =>
      unfold Execution.Blank
      rw [x.assignments_finish]
      exact hx
    | submit =>
      intro a ha hp
      rw [Execution.assignments_finish] at ha
      rcases Execution.mem_assignments_submit ha with ha | hdone
      · exact hx a ha hp
      · rw [hp] at hdone
        cases hdone

/-- Assignments stay open on the whole way until something is submitted to them. -/
theorem upholds_untouched : e.Upholds n Execution.Untouched where
  expected flow s step _ _ a ha := (Execution.mem_assignments_assign rfl ha).1
  begun x step fork flowDue now hp hx _ := hx (.inl hp)
  finish x result now hx := by
    rcases x.finish_cases result now with hsame | hdone
    · rwa [hsame]
    · intro hstatus
      rw [hdone] at hstatus
      simp at hstatus
  amends r x y ns hr h hx := by
    cases h with
    | fail =>
      intro hstatus
      simp [Execution.fail] at hstatus
    | escalate => exact hx
    | @wait assignment result now h =>
      have hopen : (x.submit assignment result now).status.isCompletable = true := h.isOpen
      intro hstatus
      rw [Execution.await_of hopen] at hstatus
      simp at hstatus
    | keep _ _ _ hended => exact absurd (hended.symm.trans hr) Bool.false_ne_true
    | revise =>
      rw [Execution.reopen_submit]
      intro hstatus a ha
      rcases Execution.mem_assignments_reopen ha with ha | ⟨hp, _⟩
      · exact hx hstatus a ha
      · exact hp
    | release hdone =>
      intro hstatus
      have hsame : x.cancelPending.status = .completed := hdone
      rw [hsame] at hstatus
      simp at hstatus
  concludes x now y h hx hstatus := by
    rw [h.status] at hstatus
    simp at hstatus

section Submission

variable {e} {flow : Flow} {s t : Session} {now : Instant} {flags : Flags}
  {assignment feedback : String} {issues : List String} {result : Record} {x y : Execution}
    {place : Place}

theorem judge_snd (hplace : flow.find? x.stepId = some place) (s : Session) (flags : Flags)
    (result : Record) :
    (e.judge flow s flags x result).2 =
      if flags.skipReview then .approved else e.verdict s.log.reviews place.step result := by
  unfold judge
  simp only [hplace]
  split
  · rfl
  · exact (review_fields _ _).1

/-- What becomes of a submission that meets the quorum. -/
theorem submit_quorate (htakes : s.run.takes? x.id assignment = some x)
    (hy : y = x.submit assignment result now) (hquorate : y.isQuorate = true) :
    e.submit flow now flags s x.id assignment result =
        e.conclude flow now flags (s.update x.id y now) y assignment result ∧
      (s.update x.id y now).run.find? y.id = some y ∧ y.status.isCompletable = true := by
  obtain ⟨hx, _, hopen, _⟩ := Run.takes?_eq_some_iff.mp htakes
  subst hy
  refine ⟨?_, Session.find?_update (y := x.submit assignment result now) hx rfl now, hopen⟩
  rw [submit_taken htakes, if_pos hquorate]

/-- A submission that meets the quorum and is approved is accepted with the summary. -/
theorem submit_approved (htakes : s.run.takes? x.id assignment = some x)
    (ha : s.run.isActive = true) (hy : y = x.submit assignment result now)
    (hquorate : y.isQuorate = true)
    (hj : e.judge flow (s.update x.id y now) flags y (y.sharedResult result) = (t, .approved)) :
    e.submit flow now flags s x.id assignment result =
      ({ (e.accept flow now flags t y (y.sharedResult result)).1 with
          run := (e.accept flow now flags t y (y.sharedResult result)).1.run.modify y.id
            Execution.cancelPending },
        { advanced := true
          completed := y.submissions
          total := y.assignments.length
          advance := some (e.accept flow now flags t y (y.sharedResult result)).2 }) := by
  obtain ⟨hsubmit, hfound, hopen⟩ := submit_quorate (e := e) htakes hy hquorate
  rw [hsubmit]
  exact conclude_approved hfound hopen ha hj

/-- What was taken as completed stays as it is while the run moves on. -/
theorem proceeds_take :
    (s.take x result now).run.Proceeds (e.accept flow now flags s x result).1.run := by
  cases hf : flow.find? x.stepId with
  | none =>
    unfold accept
    simp only [hf]
    exact .refl _
  | some place =>
    have hsettle : (s.take x result now).run.Proceeds ((s.take x result now).settle
        (e.follows flow (s.take x result now) x.stepId result x.fork)).run := .of_eq rfl
    rw [accept_of hf]
    exact hsettle.trans (e.proceeds_propagate flow now _ flags _ _)

/-- What is completed is found with its result, however far the run has moved on then. -/
theorem find?_accept (hx : s.run.find? x.id = some x) (hopen : x.status.isCompletable = true)
    (differ : (e.accept flow now flags s x result).1.run.executionIds.Nodup) :
    (e.accept flow now flags s x result).1.run.find? x.id = some (x.finish result now) := by
  refine proceeds_take.find? differ (Session.find?_take hx result now) ?_
  rw [Execution.finish_of hopen]
  rfl

/-- A submission that meets the quorum and is approved completes the step for good. -/
theorem submit_closes (htakes : s.run.takes? x.id assignment = some x)
    (ha : s.run.isActive = true) (hquorate : (x.submit assignment result now).isQuorate = true)
    (happroved : (e.judge flow (s.update x.id (x.submit assignment result now) now) flags
      (x.submit assignment result now)
      ((x.submit assignment result now).sharedResult result)).2 = .approved) :
    (e.submit flow now flags s x.id assignment result).2.advanced = true ∧
      ((e.submit flow now flags s x.id assignment result).1.run.executionIds.Nodup →
        (e.submit flow now flags s x.id assignment result).1.run.find? x.id =
          some ((x.submit assignment result now).finish
            ((x.submit assignment result now).sharedResult result) now).cancelPending) := by
  obtain ⟨y, hy⟩ : ∃ y, y = x.submit assignment result now := ⟨_, rfl⟩
  obtain ⟨hx, _, hopen, _⟩ := Run.takes?_eq_some_iff.mp htakes
  rw [← hy] at hquorate happroved ⊢
  have hid : y.id = x.id := hy ▸ rfl
  have hfound : (e.judge flow (s.update x.id y now) flags y
      (y.sharedResult result)).1.run.find? y.id = some y := by
    rw [e.run_judge, hid]
    exact Session.find?_update hx hid now
  have hrelease : ∀ z : Execution, z.cancelPending.id = z.id := fun _ => rfl
  rw [submit_approved htakes ha hy hquorate (Prod.ext rfl happroved)]
  refine ⟨rfl, fun differ => ?_⟩
  rw [Run.executionIds_modify hrelease] at differ
  have haccept := find?_accept hfound (hy ▸ hopen) differ
  rw [hid] at haccept
  dsimp only
  rw [hid, Run.find?_modify fun z hz => (hrelease z).trans hz, haccept, Option.map_some, if_pos rfl]

theorem submit_revise (htakes : s.run.takes? x.id assignment = some x)
    (ha : s.run.isActive = true) (hy : y = x.submit assignment result now)
    (hquorate : y.isQuorate = true)
    (hj : e.judge flow (s.update x.id y now) flags y (y.sharedResult result) =
      (t, .revise feedback issues)) :
    e.submit flow now flags s x.id assignment result =
      ({ t with run := t.run.modify y.id fun x => x.reopen assignment },
        { completed := (y.reopen assignment).submissions
          total := y.assignments.length
          advance :=
            some { revisionNeeded := true, feedback := feedback, issues := issues } }) := by
  obtain ⟨hsubmit, hfound, hopen⟩ := submit_quorate (e := e) htakes hy hquorate
  rw [hsubmit]
  exact conclude_revise hfound hopen ha hj

end Submission

end Engine

end Workflow
