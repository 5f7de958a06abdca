import Workflow.Proofs.Front.Ending
import Workflow.Proofs.Front.Once
import Workflow.Proofs.Reaches

namespace Workflow

namespace Execution

theorem underWay_iff (x : Execution) :
    x.mark.standing = .underWay ↔ x.status = .inProgress ∨ x.status = .waitingForAssignee := by
  cases hs : x.status <;> simp [mark, StepStatus.standing, hs]

end Execution

theorem Run.isActive_iff (r : Run) : r.isActive = true ↔ r.status = .active :=
  beq_iff_eq

namespace Sample

/-- Identifiers that count in strokes. -/
def engine : Engine :=
  { newId := fun kind n => String.ofList (kind.toList ++ '_' :: List.replicate n '1') }

/-- A branch with one step on each of its two paths. -/
def flow : Flow :=
  { Flow.empty "sample" "" with
    steps := [⟨"fork", "", "", "", none, [], .branch .parallel .all
      [⟨"left", "", {}, [Step.ofType "a" .form]⟩,
        ⟨"right", "", {}, [Step.ofType "b" .form]⟩]⟩] }

def complete (s : Session) (execution : String) : Session :=
  (engine.play flow ⟨0⟩ s (.complete execution [] {})).1

def halfway : Session :=
  complete (complete (engine.play flow ⟨0⟩ { run := {} } (.start {})).1 "exec_") "exec_11"

def ended : Session :=
  complete halfway "exec_111"

theorem distinctIds (n : Nat) : engine.DistinctIds n := by
  intro kind i j _ _ h
  have hstrokes := List.append_cancel_left (String.ofList_inj.mp h)
  simpa using congrArg List.length hstrokes

theorem reaches_halfway :
    engine.Reaches flow (fun m => ∀ execution reason, m ≠ .fail execution reason) halfway :=
  .move (.move (.start ⟨rfl, rfl, rfl⟩) fun _ _ => Move.noConfusion) fun _ _ => Move.noConfusion

theorem reaches_ended :
    engine.Reaches flow (fun m => ∀ execution reason, m ≠ .fail execution reason) ended :=
  .move reaches_halfway fun _ _ => Move.noConfusion

theorem status_ended : ended.run.status = .completed := by
  cbv

end Sample

namespace Engine.Reaches

variable {e : Engine} {flow : Flow} {s : Session}

/-- As long as no step is given up as failed, an active run waits for someone at some step. -/
theorem exists_underWay (unique : flow.ids.Nodup) (paths : flow.PathsDiffer)
    (h : e.Reaches flow (fun m => ∀ execution reason, m ≠ .fail execution reason) s)
    (ids : e.DistinctIds s.log.drawn) (ha : s.run.status = .active) :
    ∃ x ∈ s.run.executions, x.status = .inProgress ∨ x.status = .waitingForAssignee := by
  have ha' := s.run.isActive_iff.mpr ha
  obtain ⟨_, m, lost, hm, hshows, hlost⟩ := h.shows unique ids
  have hne := hm.strands_ne_zero unique paths (hshows.active.mp ha')
  rw [hshows.strands, hlost (fun id reason hno => hno id reason rfl) ha', Multiset.add_zero] at hne
  by_contra hnone
  refine hne (Mark.strands_eq_zero_iff.mpr ?_)
  intro k hk hunder
  obtain ⟨x, hx, rfl⟩ := List.mem_map.mp hk
  exact hnone ⟨x, hx, x.underWay_iff.mp hunder⟩

theorem exists_underWay_halfway : ∃ x ∈ Sample.halfway.run.executions,
    x.status = .inProgress ∨ x.status = .waitingForAssignee :=
  exists_underWay (by decide) (by decide)
    Sample.reaches_halfway (Sample.distinctIds _) (by cbv)

/-- When all branches wait for all of their paths, a run that has ended waits for nobody. -/
theorem not_underWay {allowed : Move → Prop} (unique : flow.ids.Nodup) (goto : flow.NoGoto)
    (joins : flow.JoinsAll) (terminate : e.policy.terminate = .endScope)
    (h : e.Reaches flow allowed s) (ids : e.DistinctIds s.log.drawn)
    (ha : s.run.status ≠ .active) :
    ∀ x ∈ s.run.executions, x.status ≠ .inProgress ∧ x.status ≠ .waitingForAssignee := by
  obtain ⟨_, m, lost, hm, hshows, _⟩ := h.shows unique ids
  have hended : 0 < m.ended := by
    rw [Nat.pos_iff_ne_zero]
    exact fun h => ha (s.run.isActive_iff.mp (hshows.active.mpr h))
  have hzero := hm.strands_eq_zero unique goto joins terminate hended
  rw [hshows.strands] at hzero
  have hmarks : Mark.strands s.run.marks = 0 :=
    Multiset.le_zero.mp (hzero ▸ Multiset.le_add_right _ _)
  intro x hx
  have hnot := Mark.strands_eq_zero_iff.mp hmarks x.mark (List.mem_map_of_mem hx)
  rw [ne_eq, x.underWay_iff, not_or] at hnot
  exact hnot

theorem not_underWay_ended : Sample.ended.run.status ≠ .active ∧
    ∀ x ∈ Sample.ended.run.executions, x.status ≠ .inProgress ∧
      x.status ≠ .waitingForAssignee := by
  have hended : Sample.ended.run.status ≠ .active := by simp [Sample.status_ended]
  exact ⟨hended, not_underWay (by decide) (by decide) (by decide) rfl Sample.reaches_ended
    (Sample.distinctIds _) hended⟩

/-- Without GOTO, no step gets a second execution. -/
theorem executions_le_one {allowed : Move → Prop} (unique : flow.ids.Nodup) (goto : flow.NoGoto)
    (h : e.Reaches flow allowed s) (ids : e.DistinctIds s.log.drawn) :
    ∀ id ∈ flow.ids, (s.run.executions.filter fun x => x.stepId = id).length ≤ 1 := by
  intro id hid
  obtain ⟨_, m, lost, hm, hshows, _⟩ := h.shows unique ids
  have hcount : (s.run.executions.filter fun x => x.stepId = id).length =
      s.run.marks.countP fun k => k.step = id := by
    rw [Run.marks, List.countP_map, List.countP_eq_length_filter]
    rfl
  rw [hcount]
  by_cases hall : ∀ k ∈ s.run.marks, k.step = id → k.standing ≠ .expected
  · rw [← Flow.map_id_places, List.mem_map] at hid
    obtain ⟨p, hp, rfl⟩ := hid
    rw [← Mark.count_visited hall]
    exact Nat.le_trans (Multiset.count_le_of_le _ (Multiset.map_le_map hshows.visited))
      (hm.visited_le_one unique goto (Flow.mem_places_iff.mp hp))
  · exact hshows.tidy.count_of_expected (by simpa using hall)

theorem executions_le_one_ended :
    (Sample.ended.run.executions.filter fun x => x.stepId = "a").length ≤ 1 :=
  executions_le_one (by decide) (by decide) Sample.reaches_ended (Sample.distinctIds _) "a"
    (by decide)

/-- Every execution that has started, and every fork, is part of the fork that its surroundings call
for. -/
theorem forks_mirror {allowed : Move → Prop} (unique : flow.ids.Nodup)
    (h : e.Reaches flow allowed s) (ids : e.DistinctIds s.log.drawn) :
    (∀ x ∈ s.run.executions, x.status ≠ .pending →
      flow.Mirrors e.policy s.run.forks x.stepId x.fork) ∧
    ∀ k g, s.run.forks[k]? = some g →
      flow.Mirrors e.policy (s.run.forks.take k) g.branch g.parent := by
  obtain ⟨_, m, lost, hm, hshows, _⟩ := h.shows unique ids
  have hmirror := hm.mirror unique
  rw [← hshows.forks]
  refine ⟨fun x hx hp => ?_, hmirror.parents⟩
  have hmem : x.mark.activation ∈ Mark.visited s.run.marks :=
    Mark.mem_visited (List.mem_map_of_mem hx) fun hst => hp (x.status_of_expected hst)
  exact hmirror.visited _ (Multiset.mem_of_le hshows.visited hmem)

theorem forks_mirror_halfway :
    (∀ x ∈ Sample.halfway.run.executions, x.status ≠ .pending →
      Sample.flow.Mirrors Sample.engine.policy Sample.halfway.run.forks x.stepId x.fork) ∧
    ∀ k g, Sample.halfway.run.forks[k]? = some g →
      Sample.flow.Mirrors Sample.engine.policy (Sample.halfway.run.forks.take k) g.branch
        g.parent :=
  forks_mirror (by decide) Sample.reaches_halfway (Sample.distinctIds _)

end Engine.Reaches

end Workflow
