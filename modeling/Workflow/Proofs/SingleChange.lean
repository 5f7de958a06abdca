import Workflow.Proofs.MoveCases

namespace Workflow

namespace Run

variable {r : Run} {x y : Execution}

theorem find?_of_nodup (differ : r.executionIds.Nodup) (hx : x ∈ r.executions) :
    r.find? x.id = some x := by
  obtain ⟨y, hy⟩ : ∃ y, r.find? x.id = some y := by
    rw [← Option.isSome_iff_exists, find?, List.find?_isSome]
    exact ⟨x, hx, beq_self_eq_true _⟩
  have hid : y.id = x.id := by simpa using List.find?_some hy
  rw [hy, eq_of_id differ (List.mem_of_find?_eq_some hy) hx hid]

end Run

namespace Session

variable {s t s' : Session} {x y z : Execution} {xs : List Execution} {ns ns' : List Notice}

theorem Swaps.mem (h : s.Swaps s' x y ns) : x ∈ s.run.executions := by
  obtain ⟨_, hx, _⟩ := h
  exact List.mem_of_getElem? hx

theorem Swaps.executionIds (h : s.Swaps s' x y ns) (hid : y.id = x.id) :
    s'.run.executionIds = s.run.executionIds := by
  obtain ⟨i, hx, h⟩ := h
  obtain ⟨pre, post, hxs, hset⟩ := Sequence.split_of_getElem? hx
  unfold Run.executionIds
  rw [h.executions, hset, hxs]
  simp [hid]

/-- The other executions stay, and they have other identifiers. -/
theorem Swaps.mem_iff (h : s.Swaps s' x y ns) (differ : s.run.executionIds.Nodup) :
    z ∈ s'.run.executions ↔ z = y ∨ z ∈ s.run.executions ∧ z.id ≠ x.id := by
  obtain ⟨i, hx, h⟩ := h
  obtain ⟨pre, post, hxs, hset⟩ := Sequence.split_of_getElem? hx
  unfold Run.executionIds at differ
  rw [hxs, (List.perm_middle.map Execution.id).nodup_iff, List.map_cons, List.nodup_cons] at differ
  have hothers : ∀ w ∈ pre ++ post, w.id ≠ x.id := fun w hw he =>
    differ.1 (he ▸ List.mem_map_of_mem hw)
  rw [h.executions, hset, hxs, List.mem_append, List.mem_cons, List.mem_append, List.mem_cons]
  constructor
  · rintro (hz | rfl | hz)
    · exact .inr ⟨.inl hz, hothers z (List.mem_append_left _ hz)⟩
    · exact .inl rfl
    · exact .inr ⟨.inr (.inr hz), hothers z (List.mem_append_right _ hz)⟩
  · rintro (rfl | ⟨hz | rfl | hz, hne⟩)
    · exact .inr (.inl rfl)
    · exact .inl hz
    · exact absurd rfl hne
    · exact .inr (.inr hz)

/-- Two changes of one execution in a row are one. -/
theorem Swaps.trans (h : s.Swaps t x y ns) (h' : t.Swaps s' y z ns')
    (differ : t.run.executionIds.Nodup) : s.Swaps s' x z (ns ++ ns') := by
  obtain ⟨i, hx, h⟩ := h
  obtain ⟨j, hy, h'⟩ := h'
  have hi : t.run.executions[i]? = some y := by
    rw [h.executions]
    exact List.getElem?_set_self (List.getElem?_eq_some_iff.mp hx).1
  have hij : i = j := by
    have hlt : i < t.run.executionIds.length := by
      simpa [Run.executionIds] using (List.getElem?_eq_some_iff.mp hi).1
    exact (List.getElem?_inj hlt differ).mp (by simp [Run.executionIds, hi, hy])
  subst hij
  refine ⟨i, hx, ?_⟩
  have hset := h.trans h'
  rw [h.executions, List.set_set] at hset
  exact hset

/-- How an execution changes, and what is noted then. -/
inductive Becomes (s : Session) (x y : Execution) : List Notice → Prop
  | announced (ha : s.run.isActive = true) (hx : x.status = .pending) (hy : y.status = .inProgress)
      (step : Step) (flowDue : Option Instant) (timers : List Timer) :
      Becomes s x y [.activated y step flowDue timers]
  | parked (ha : s.run.isActive = true) (hx : x.status = .pending) (hy : y.status = .inProgress) :
      Becomes s x y []
  | passed (ha : s.run.isActive = true) (hx : x.status = .pending) (hy : y.status = .completed) :
      Becomes s x y []
  | concluded (ha : s.run.isActive = true) (hx : x.status.isCompletable = true)
      (hy : y.status = .completed) (now : Instant) :
      Becomes s x y [.completed x.id x.stepId y.status now]
  | failed (hx : x.status.isCompletable = true) (hy : y.status = .failed) :
      Becomes s x y [.failed x.id]
  | stayed (hx : x.status ≠ .pending) (hy : y.status ≠ .pending)
      (hover : x.status.isTerminal = true ∨ y.status.isTerminal = true → y.status = x.status) :
      Becomes s x y []

/-- What a stroke does to a run whose executions have different identifiers. -/
inductive Shift (s s' : Session) : Prop
  | aside (h : s.Aside s')
  | expect {x : Execution} {ns : List Notice} (hx : x.status = .pending)
      (h : s.Turns s' (s.run.executions ++ [x]) ns) (hns : ∀ n ∈ ns, n.isAside = true)
  | swap {x y : Execution} {ns : List Notice} (h : s.Swaps s' x y ns) (hid : y.id = x.id)
      (hbecomes : s.Becomes x y ns)
  | ended (ha : s.run.isActive = true) (status : TerminateStatus) (now : Instant)
      (hs' : s' = s.endRun status now)

end Session

/-- What is done to an execution without moving the run on changes its state accordingly. -/
theorem Execution.Amends.becomes {s : Session} {x y : Execution} {ns : List Notice}
    (h : x.Amends s.run y ns) : s.Becomes x y ns := by
  have hstarted : ∀ {status : StepStatus}, status.isCompletable = true →
    status ≠ .pending := by
    rintro _ hopen rfl
    cases hopen
  cases h with
  | fail reason now hopen => exact .failed hopen rfl
  | escalate now hopen => exact .stayed (hstarted hopen) (hstarted hopen) fun _ => rfl
  | @wait assignment result now h =>
    have hopen : (x.submit assignment result now).status.isCompletable = true := h.isOpen
    have hwaiting : (x.submit assignment result now).await.status = .waitingForAssignee := by
      rw [await_of hopen]
    refine .stayed (hstarted h.isOpen) (hwaiting ▸ StepStatus.noConfusion) fun hover => ?_
    rw [not_isTerminal h.isOpen, hwaiting] at hover
    simp [StepStatus.isTerminal] at hover
  | keep _ _ h | revise _ _ h => exact .stayed (hstarted h.isOpen) (hstarted h.isOpen) fun _ => rfl
  | release hdone =>
    have hne : x.status ≠ .pending := hdone ▸ StepStatus.noConfusion
    exact .stayed hne hne fun _ => rfl

namespace Engine

variable {e : Engine} {flow : Flow} {s s' : Session}

theorem ids_pass {t : Session} {id : String} {now : Instant}
    (h : t.Turns s' (t.run.modify id fun y => y.finish [] now).executions []) :
    s'.run.executionIds = t.run.executionIds := by
  have hmodify := Run.executionIds_modify (r := t.run) (fun y => y.id_finish [] now) id
  rw [← hmodify]
  unfold Run.executionIds
  rw [h.executions]

/-- A step that is over as soon as it starts is over in one go. -/
theorem swaps_pass {t : Session} {x : Execution} {step : Step} {fork : Option String}
    {now : Instant} (h : s.Swaps t x (x.begun step fork s.run.dueAt now) [])
    (hfinish : t.Turns s' (t.run.modify x.id fun y => y.finish [] now).executions [])
    (differ : s'.run.executionIds.Nodup) :
    s.Swaps s' x ((x.begun step fork s.run.dueAt now).finish [] now) [] := by
  rw [ids_pass hfinish] at differ
  have hmem : x.begun step fork s.run.dueAt now ∈ t.run.executions := by
    rw [h.mem_iff (h.executionIds rfl ▸ differ)]
    exact .inl rfl
  exact h.trans (hfinish.swaps (Run.find?_of_nodup differ hmem)) differ

/-- All identifiers stay, and one that is new is drawn. -/
theorem Stroke.executionIds (h : e.Stroke s s') :
    s'.run.executionIds = s.run.executionIds ∨
      s'.run.executionIds = s.run.executionIds ++ [e.nextId s "exec"] ∧
        s.log.drawn < s'.log.drawn := by
  cases h with
  | stride h =>
    cases h with
    | aside h => exact .inl (by rw [Run.executionIds, h.executions, Run.executionIds])
    | @expect _ _ _ step _ _ h _ hdrawn =>
      refine .inr ⟨?_, by omega⟩
      unfold Run.executionIds
      rw [h.executions, List.map_append]
      exact congrArg _ (congrArg (fun k : Mark => [k.id]) (e.mark_expected _ s step))
    | announce _ _ _ _ h | park _ _ _ _ h => exact .inl (h.executionIds rfl)
    | pass _ _ _ _ h hfinish => exact .inl ((ids_pass hfinish).trans (h.executionIds rfl))
  | amend h hs' => exact .inl (hs'.executionIds h.id)
  | conclude _ h hs' => exact .inl (hs'.executionIds h.id)
  | ended _ _ _ hs' => exact .inl (hs' ▸ rfl)

theorem Stroke.ids (h : e.Stroke s s') : s.run.executionIds <+: s'.run.executionIds := by
  rcases h.executionIds with hsame | ⟨hnew, _⟩
  · rw [hsame]
  · rw [hnew]
    exact List.prefix_append _ _

/-- A stroke changes one execution at most. -/
theorem Stroke.shift (h : e.Stroke s s') (differ : s'.run.executionIds.Nodup) : s.Shift s' := by
  cases h with
  | stride h =>
    cases h with
    | aside h => exact .aside h
    | expect _ h hns => exact .expect (e.status_expected _ _ _) h hns
    | announce ha hp _ _ h => exact .swap h rfl (.announced ha hp rfl _ _ _)
    | park ha hp _ _ h => exact .swap h rfl (.parked ha hp rfl)
    | @pass _ _ _ _ x step fork now ha hp _ _ h hfinish =>
      have hdone : ((x.begun step fork s.run.dueAt now).finish [] now).status = .completed := by
        rw [Execution.finish_of rfl]
      exact .swap (swaps_pass h hfinish differ) (Execution.id_finish _ _ _) (.passed ha hp hdone)
  | amend h hs' => exact .swap hs' h.id h.becomes
  | conclude ha h hs' => exact .swap hs' h.id (.concluded ha h.isOpen h.status _)
  | ended ha status now hs' => exact .ended ha status now hs'

theorem Strokes.ids (h : e.Strokes s s') : s.run.executionIds <+: s'.run.executionIds := by
  induction h with
  | refl => exact List.prefix_refl _
  | tail _ hstroke ih => exact ih.trans hstroke.ids

/-- What holds at first, and is kept by all shifts, holds in the end. -/
theorem Strokes.induct {P : Session → Prop} (h : e.Strokes s s')
    (differ : s'.run.executionIds.Nodup) (hs : P s)
    (hshift : ∀ t t' : Session, t.run.executionIds.Nodup → t'.run.executionIds.Nodup →
      t.Shift t' →
      P t → P t') : P s' := by
  induction h with
  | refl => exact hs
  | tail _ hstroke ih =>
    have differ' := hstroke.ids.sublist.nodup differ
    exact hshift _ _ differ' differ (hstroke.shift differ) (ih differ')

end Engine

end Workflow
