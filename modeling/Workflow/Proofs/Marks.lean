import Workflow.Engine.Move
import Workflow.Proofs.Front

/-!
Marks. A mark is what counts of an execution for the course of its run: its step and its fork, and
whether it is expected, under way, completed or failed. Each operation of the engine on executions
is told by what it does to the marks.
-/

namespace Workflow

inductive Standing where
  | expected | underWay | completed | failed
  deriving DecidableEq, Repr

def StepStatus.standing : StepStatus → Standing
  | .pending => .expected
  | .inProgress | .waitingForAssignee => .underWay
  | .completed => .completed
  | .failed => .failed

def Standing.isOver : Standing → Bool
  | .completed | .failed => true
  | .expected | .underWay => false

theorem Standing.ne_of_isOver {standing : Standing} (h : standing.isOver = true) :
    standing ≠ .expected ∧ standing ≠ .underWay := by
  cases standing <;> simp [isOver] at h ⊢

structure Mark where
  id : String
  step : String
  fork : Option String
  standing : Standing
  deriving DecidableEq, Repr

def Execution.mark (x : Execution) : Mark :=
  ⟨x.id, x.stepId, x.fork, x.status.standing⟩

def Run.marks (r : Run) : List Mark :=
  r.executions.map Execution.mark

namespace Mark

def strand (k : Mark) : Strand :=
  ⟨k.step, k.fork, .here⟩

def activation (k : Mark) : Activation :=
  ⟨k.step, k.fork⟩

def strands (ks : List Mark) : Multiset Strand :=
  ((ks.filter fun k => k.standing = .underWay).map strand : List Strand)

def visited (ks : List Mark) : Multiset Activation :=
  ((ks.filter fun k => k.standing ≠ .expected).map activation : List Activation)

theorem strands_middle (pre post : List Mark) (k : Mark) :
    strands (pre ++ k :: post) =
      if k.standing = .underWay then k.strand ::ₘ strands (pre ++ post)
      else strands (pre ++ post) := by
  unfold strands
  split
  · rename_i hk
    simp only [List.filter_append, List.filter_cons, hk, decide_true, if_true, List.map_append,
      List.map_cons]
    exact Multiset.coe_eq_coe.mpr List.perm_middle
  · rename_i hk
    simp [hk]

theorem visited_middle (pre post : List Mark) (k : Mark) :
    visited (pre ++ k :: post) =
      if k.standing = .expected then visited (pre ++ post)
      else k.activation ::ₘ visited (pre ++ post) := by
  unfold visited
  split
  · rename_i hk
    simp [hk]
  · rename_i hk
    simp only [List.filter_append, List.filter_cons, ne_eq, hk, not_false_eq_true, decide_true,
      if_true, List.map_append, List.map_cons]
    exact Multiset.coe_eq_coe.mpr List.perm_middle

theorem strands_eq_zero_iff {ks : List Mark} :
    strands ks = 0 ↔ ∀ k ∈ ks, k.standing ≠ .underWay := by
  simp [strands, List.filter_eq_nil_iff]

theorem mem_visited {ks : List Mark} {k : Mark} (hk : k ∈ ks) (hst : k.standing ≠ .expected) :
    k.activation ∈ visited ks :=
  Multiset.mem_coe.mpr (List.mem_map_of_mem (List.mem_filter.mpr ⟨hk, by simpa using hst⟩))

/-- If none of its marks is expected, a step has as many marks as activations. -/
theorem count_visited {ks : List Mark} {id : String}
    (h : ∀ k ∈ ks, k.step = id → k.standing ≠ .expected) :
    ((visited ks).map Activation.step).count id = ks.countP fun k => k.step = id := by
  unfold visited
  rw [Multiset.map_coe, Multiset.coe_count, List.map_map, List.count, List.countP_map,
    List.countP_filter]
  apply List.countP_congr
  intro k hk
  have := h k hk
  simp only [Function.comp, activation, ne_eq, decide_not, Bool.and_eq_true, beq_iff_eq,
    Bool.not_eq_true', decide_eq_false_iff_not, decide_eq_true_eq]
  exact ⟨fun hs => hs.1, fun hs => ⟨hs, this hs⟩⟩

end Mark

namespace Run

variable {r : Run} {id : String} {change : Execution → Execution} {pre post : List Mark}
  {k k' : Mark}

/-- A change of one execution changes its mark where it stands. -/
theorem marks_modify (h : r.marks = pre ++ k :: post) (hpre : ∀ j ∈ pre, j.id ≠ k.id)
    (hc : ∀ x : Execution, x.mark = k → (change x).mark = k') :
    (r.modify k.id change).marks = pre ++ k' :: post := by
  unfold marks modify at *
  dsimp only at h ⊢
  generalize r.executions = xs at h ⊢
  induction xs generalizing pre with
  | nil => simp at h
  | cons x xs ih =>
    cases pre with
    | nil =>
      simp only [List.map_cons, List.nil_append, List.cons.injEq] at h
      have hid : x.id = k.id := congrArg Mark.id h.1
      simp [Sequence.modifyFirst, hid, hc x h.1, h.2]
    | cons j pre =>
      simp only [List.map_cons, List.cons_append, List.cons.injEq] at h
      have hid : x.id ≠ k.id := by
        rw [show x.id = j.id from congrArg Mark.id h.1]
        exact hpre j List.mem_cons_self
      rw [Sequence.modifyFirst, if_neg (by simpa using hid), List.map_cons,
        ih (fun j hj => hpre j (List.mem_cons_of_mem _ hj)) h.2, h.1, List.cons_append]

theorem marks_modify_self (hc : ∀ x : Execution, (change x).mark = x.mark) :
    (r.modify id change).marks = r.marks := by
  unfold marks modify
  dsimp only
  induction r.executions with
  | nil => rfl
  | cons x xs ih =>
    rw [Sequence.modifyFirst]
    split
    · simp [hc]
    · simp [ih]

/-- An execution that is found is the first with its id. -/
theorem marks_of_find? {x : Execution} (h : r.find? id = some x) :
    x.id = id ∧ ∃ pre post, r.marks = pre ++ x.mark :: post ∧
      ∀ j ∈ pre, j.id ≠ x.mark.id := by
  obtain ⟨hid, pre, post, hxs, hpre⟩ := List.find?_eq_some_iff_append.mp h
  have hid' : x.id = id := by simpa using hid
  refine ⟨hid', pre.map Execution.mark, post.map Execution.mark, by simp [marks, hxs], ?_⟩
  intro j hj
  obtain ⟨y, hy, rfl⟩ := List.mem_map.mp hj
  have := hpre y hy
  simpa [Execution.mark, hid'] using this

end Run

theorem Execution.status_of_expected (x : Execution) (h : x.mark.standing = .expected) :
    x.status = .pending := by
  cases hs : x.status <;> simp [mark, StepStatus.standing, hs] at h ⊢

theorem Execution.isCompletable_iff (x : Execution) :
    x.status.isCompletable = true ↔ x.mark.standing = .underWay := by
  cases hs : x.status <;> simp [mark, StepStatus.standing, StepStatus.isCompletable, hs]

theorem Execution.finish_of {x : Execution} (h : x.status.isCompletable = true) (result : Record)
    (now : Instant) :
    x.finish result now =
      { x with status := .completed, result := result, completedAt := some now } := by
  unfold finish
  cases hs : x.status <;> simp [hs, StepStatus.isCompletable] at h <;> rfl

namespace Run

theorem find?_modify {r : Run} {id : String} {change : Execution → Execution}
    (hid : ∀ x, x.id = id → (change x).id = id) (id' : String) :
    (r.modify id change).find? id' =
      (r.find? id').map fun x => if id' = id then change x else x := by
  unfold find? modify
  dsimp only
  induction r.executions with
  | nil => rfl
  | cons x rest ih =>
    rw [Sequence.modifyFirst]
    by_cases hx : x.id = id
    · by_cases hid' : id' = id
      · simp [hx, hid x hx, hid']
      · simp [hx, hid x hx, hid', Ne.symm hid']
    · by_cases hx' : x.id = id'
      · subst hx'
        simp [hx]
      · simp [hx, hx', ih]

end Run

theorem Execution.id_finish (x : Execution) (result : Record) (now : Instant) :
    (x.finish result now).id = x.id := by
  unfold finish
  split <;> rfl

theorem Execution.stepId_finish (x : Execution) (result : Record) (now : Instant) :
    (x.finish result now).stepId = x.stepId := by
  unfold finish
  split <;> rfl

theorem Execution.await_of {x : Execution} (h : x.status.isCompletable = true) :
    x.await = { x with status := .waitingForAssignee } := by
  unfold await
  cases hs : x.status <;> simp [hs, StepStatus.isCompletable] at h <;> rfl

theorem Execution.mark_assign (x : Execution) (newId : Nat → String) (assignees : List Assignee) :
    (x.assign newId assignees).mark = x.mark := by
  match assignees with
  | [] => rfl
  | [_] => rfl
  | _ :: _ :: _ => rfl

def Execution.fail (x : Execution) (reason : String) (now : Instant) : Execution :=
  { x with status := .failed, failure := reason, completedAt := some now }

namespace Session

structure Keeps (s s' : Session) : Prop where
  forks : s'.run.forks = s.run.forks
  status : s'.run.status = s.run.status
  drawn : s.log.drawn ≤ s'.log.drawn

theorem Keeps.refl (s : Session) : s.Keeps s :=
  ⟨rfl, rfl, Nat.le_refl _⟩

theorem Keeps.trans {s s' s'' : Session} (h : s.Keeps s') (h' : s'.Keeps s'') : s.Keeps s'' :=
  ⟨h'.forks.trans h.forks, h'.status.trans h.status, Nat.le_trans h.drawn h'.drawn⟩

/-- A step gets under way, by an execution that was expected or by a new one. -/
inductive Starts (e : Engine) (s s' : Session) (k : Mark) : Prop where
  | expected {pre post : List Mark} {j : Mark} (hs : s.run.marks = pre ++ j :: post)
      (hid : j.id = k.id) (hstep : j.step = k.step) (hj : j.standing = .expected)
      (hs' : s'.run.marks = pre ++ k :: post)
  | anew (hnone : ∀ j ∈ s.run.marks, j.step = k.step → j.standing ≠ .expected)
      (hid : k.id = e.nextId s "exec") (hdrawn : s.log.drawn < s'.log.drawn)
      (hs' : s'.run.marks = s.run.marks ++ [k])

/-- A step that was under way is over, and has come to a standing. -/
structure Closes (s s' : Session) (k : Mark) (standing : Standing) : Prop where
  underWay : k.standing = .underWay
  isOver : standing.isOver = true
  marks : ∃ pre post, s.run.marks = pre ++ k :: post ∧
    s'.run.marks = pre ++ { k with standing := standing } :: post

structure Stays (s s' : Session) : Prop extends s.Keeps s' where
  marks : s'.run.marks = s.run.marks

theorem Stays.refl (s : Session) : s.Stays s :=
  ⟨.refl s, rfl⟩

theorem Stays.trans {s s' s'' : Session} (h : s.Stays s') (h' : s'.Stays s'') : s.Stays s'' :=
  ⟨h.toKeeps.trans h'.toKeeps, h'.marks.trans h.marks⟩

variable {s : Session} {pre post : List Mark} {k : Mark}

theorem stays_modify {id : String} {change : Execution → Execution}
    (hc : ∀ x : Execution, (change x).mark = x.mark) :
    s.Stays { s with run := s.run.modify id change } :=
  ⟨⟨rfl, rfl, Nat.le_refl _⟩, Run.marks_modify_self hc⟩

theorem keeps_finish (id : String) (result : Record) (now : Instant) :
    s.Keeps (s.finish id result now) :=
  ⟨rfl, rfl, Nat.le_refl _⟩

/-- Finishing an execution under way completes the first one with its id. -/
theorem closes_finish (result : Record) (now : Instant) (h : s.run.marks = pre ++ k :: post)
    (hpre : ∀ j ∈ pre, j.id ≠ k.id) (hk : k.standing = .underWay) :
    s.Closes (s.finish k.id result now) k .completed := by
  refine ⟨hk, rfl, pre, post, h, Run.marks_modify h hpre ?_⟩
  rintro x rfl
  rw [Execution.finish_of (x.isCompletable_iff.mpr hk)]
  rfl

theorem fail_none {id : String} (hx : s.run.find? id = none) (reason : String) (now : Instant) :
    s.fail id reason now = (s, false) := by
  unfold fail
  simp only [hx]

theorem fail_of {id : String} {x : Execution} (hx : s.run.find? id = some x) (reason : String)
    (now : Instant) :
    s.fail id reason now =
      if x.status.isCompletable then
        ({ s with run := s.run.modify id fun x => x.fail reason now }.note (.failed id), true)
      else (s, false) := by
  unfold fail
  simp only [hx]
  cases hs : x.status <;> rfl

/-- An execution is given up or nothing happens. -/
theorem fail_cases (s : Session) (id reason : String) (now : Instant) :
    (s.fail id reason now).1 = s ∨
      s.Keeps (s.fail id reason now).1 ∧ ∃ k, s.Closes (s.fail id reason now).1 k .failed := by
  cases hx : s.run.find? id with
  | none =>
    rw [fail_none hx]
    exact .inl rfl
  | some x =>
    rw [fail_of hx]
    by_cases hopen : x.status.isCompletable = true
    · rw [if_pos hopen]
      obtain ⟨rfl, pre, post, hmarks, hpre⟩ := Run.marks_of_find? hx
      refine .inr ⟨⟨rfl, rfl, Nat.le_refl _⟩, x.mark, x.isCompletable_iff.mp hopen, rfl, pre,
        post, hmarks, ?_⟩
      refine Run.marks_modify hmarks hpre ?_
      intro y hy
      rw [← hy]
      rfl
    · rw [if_neg hopen]
      exact .inl rfl

theorem stays_escalate (s : Session) (id : String) (now : Instant) :
    s.Stays (s.escalate id now).1 := by
  unfold escalate
  split
  · exact .refl s
  · split
    · exact stays_modify fun _ => rfl
    · exact .refl s

end Session

theorem Execution.mark_await (x : Execution) : x.await.mark = x.mark := by
  unfold Execution.await Execution.mark
  cases hs : x.status <;> rfl

namespace Engine

variable (e : Engine) (flow : Flow) (now : Instant) (s : Session) (step : Step)

theorem run_resolve : (e.resolve s step).1.run = s.run := by
  unfold resolve
  split
  · rfl
  · split <;> rfl

theorem drawn_resolve : (e.resolve s step).1.log.drawn = s.log.drawn := by
  unfold resolve
  split
  · rfl
  · split <;> rfl

theorem run_expect :
    ∃ x : Execution, x.mark = ⟨e.nextId s "exec", step.id, none, .expected⟩ ∧
    (e.expect flow s step).run = { s.run with executions := s.run.executions ++ [x] } := by
  refine ⟨Execution.assign
    { id := e.nextId s "exec"
      stepId := step.id
      stepIndex := Session.position flow step.id
      quorum := step.body.quorum }
    (fun i => e.newId "asg" ((e.resolve (s.draw 1) step).1.log.drawn + i))
    (e.resolve (s.draw 1) step).2, Execution.mark_assign _ _ _, ?_⟩
  unfold expect
  simp only [Session.draw, run_resolve]

theorem drawn_expect : s.log.drawn < (e.expect flow s step).log.drawn := by
  unfold expect
  simp only [Session.draw, drawn_resolve]
  omega

theorem marks_expect : (e.expect flow s step).run.marks =
    s.run.marks ++ [⟨e.nextId s "exec", step.id, none, .expected⟩] := by
  obtain ⟨x, hx, hrun⟩ := e.run_expect flow s step
  rw [hrun, Run.marks, List.map_append, List.map_singleton, hx]
  rfl

theorem keeps_expect : s.Keeps (e.expect flow s step) := by
  obtain ⟨x, _, hrun⟩ := e.run_expect flow s step
  exact ⟨by rw [hrun], by rw [hrun], Nat.le_of_lt (e.drawn_expect flow s step)⟩

/-- Either an execution is expected already, or one is added. -/
theorem materialize_cases :
    (∃ i x, e.materialize flow s step = (s, i) ∧ s.run.executions[i]? = some x ∧
      x.stepId = step.id ∧ x.status = .pending) ∨
    ((∀ k ∈ s.run.marks, k.step = step.id → k.standing ≠ .expected) ∧
      e.materialize flow s step = (e.expect flow s step, s.run.executions.length)) := by
  unfold materialize
  split
  · rename_i i hi
    obtain ⟨hlt, hx, _⟩ := List.findIdx?_eq_some_iff_getElem.mp hi
    simp only [Bool.and_eq_true, beq_iff_eq] at hx
    exact .inl ⟨i, s.run.executions[i], rfl, List.getElem?_eq_getElem hlt, hx.1, hx.2⟩
  · rename_i hnone
    refine .inr ⟨?_, rfl⟩
    intro k hk hstep hst
    obtain ⟨x, hx, rfl⟩ := List.mem_map.mp hk
    have := List.findIdx?_eq_none_iff.mp hnone x hx
    simp [x.status_of_expected hst, show x.stepId = step.id from hstep] at this

theorem keeps_materialize : s.Keeps (e.materialize flow s step).1 := by
  rcases e.materialize_cases flow s step with ⟨i, x, h, _⟩ | ⟨_, h⟩
  · rw [h]
    exact .refl s
  · rw [h]
    exact e.keeps_expect flow s step

variable {e flow s step} in
/-- An expected execution starts. -/
theorem activate_at {s' : Session} {i : Nat} {x : Execution} (fork : Option String)
    (h : e.materialize flow s step = (s', i)) (hx : s'.run.executions[i]? = some x)
    (hp : x.status = .pending) :
    ∃ y : Execution, y.mark = ⟨x.id, x.stepId, fork, .underWay⟩ ∧
      (e.activate flow now s step fork).2 = some y ∧
      s'.Keeps (e.activate flow now s step fork).1 ∧
      (e.activate flow now s step fork).1.run.executions = s'.run.executions.set i y := by
  have hmove : x.status.move? .inProgress = some .inProgress := by
    rw [hp]
    rfl
  unfold activate
  rw [h]
  simp only [hx, Option.bind_some, Execution.start?, hmove, Option.map_some]
  split
  · exact ⟨_, rfl, rfl, ⟨rfl, rfl, Nat.le_refl _⟩, rfl⟩
  · exact ⟨_, rfl, rfl, ⟨rfl, rfl, Nat.le_refl _⟩, rfl⟩

/-- Activating a step starts an execution of it, always. -/
theorem activate_starts (fork : Option String) :
    ∃ x : Execution, (e.activate flow now s step fork).2 = some x ∧
      x.mark = ⟨x.id, step.id, fork, .underWay⟩ ∧
        s.Keeps (e.activate flow now s step fork).1 ∧
      s.Starts e (e.activate flow now s step fork).1 x.mark := by
  rcases e.materialize_cases flow s step with ⟨i, x, h, hx, hstep, hp⟩ | ⟨hnone, h⟩
  · obtain ⟨y, hmark, hy, hkeeps, hset⟩ := activate_at now fork h hx hp
    have hyid : y.id = x.id := congrArg Mark.id hmark
    refine ⟨y, hy, by rw [hmark, hyid, hstep], hkeeps, ?_⟩
    obtain ⟨hlt, hget⟩ := List.getElem?_eq_some_iff.mp hx
    have hsplit : s.run.executions =
        s.run.executions.take i ++ x :: s.run.executions.drop (i + 1) := by
      rw [← hget, ← List.drop_eq_getElem_cons hlt, List.take_append_drop]
    have hmarks : s.run.marks = (s.run.executions.take i).map Execution.mark ++
        x.mark :: (s.run.executions.drop (i + 1)).map Execution.mark := by
      rw [← List.map_cons, ← List.map_append, ← hsplit]
      rfl
    refine .expected hmarks hyid.symm ?_ ?_ ?_
    · exact (congrArg Mark.step hmark).symm
    · rw [Execution.mark, hp]
      rfl
    · rw [Run.marks, hset, List.set_eq_take_append_cons_drop, if_pos hlt, List.map_append,
        List.map_cons]
  · obtain ⟨x, hx, hrun⟩ := e.run_expect flow s step
    have hlast : (e.expect flow s step).run.executions[s.run.executions.length]? = some x := by
      rw [hrun]
      simp
    obtain ⟨y, hmark, hy, hkeeps, hset⟩ := activate_at now fork h hlast
      (x.status_of_expected (congrArg Mark.standing hx))
    have hid : x.id = e.nextId s "exec" := congrArg Mark.id hx
    have hstep : x.stepId = step.id := congrArg Mark.step hx
    have hyid : y.id = x.id := congrArg Mark.id hmark
    have hystep : y.mark.step = step.id := by rw [hmark, hstep]
    refine ⟨y, hy, by rw [hmark, hyid, hstep], (e.keeps_expect flow s step).trans hkeeps, ?_⟩
    refine .anew (hystep ▸ hnone) (hyid.trans hid)
      (Nat.lt_of_lt_of_le (e.drawn_expect flow s step) hkeeps.drawn) ?_
    rw [Run.marks, hset, hrun]
    simp [Run.marks]

theorem run_review (result : Record) : (e.review s step result).1.run = s.run := by
  unfold review
  split
  · rfl
  · split <;> rfl

theorem stays_review (result : Record) : s.Stays (e.review s step result).1 := by
  have hrun := e.run_review s step result
  refine ⟨⟨by rw [hrun], by rw [hrun], ?_⟩, by rw [hrun]⟩
  unfold review
  split
  · exact Nat.le_refl _
  · split <;> exact Nat.le_refl _

theorem run_automate (ids : List String) :
    (e.automate flow s ids).run = s.run ∧ (e.automate flow s ids).log.drawn = s.log.drawn := by
  unfold automate
  induction ids generalizing s with
  | nil => exact ⟨rfl, rfl⟩
  | cons id ids ih =>
    rw [List.foldl_cons, (ih _).1, (ih _).2]
    split
    · split
      · split <;> exact ⟨rfl, rfl⟩
      · exact ⟨rfl, rfl⟩
    · exact ⟨rfl, rfl⟩

theorem stays_automate (ids : List String) : s.Stays (e.automate flow s ids) := by
  obtain ⟨hrun, hdrawn⟩ := e.run_automate flow s ids
  exact ⟨⟨by rw [hrun], by rw [hrun], Nat.le_of_eq hdrawn.symm⟩, by rw [hrun]⟩

end Engine

end Workflow
