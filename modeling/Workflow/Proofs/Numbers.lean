import Workflow.Proofs.Shared

namespace Workflow

theorem Sequence.map_modifyFirst_eq {α β : Type} {p : α → Bool} {f : α → α} {g : α → β}
    (h : ∀ a, g (f a) = g a) (as : List α) : (modifyFirst p f as).map g = as.map g := by
  induction as with
  | nil => rfl
  | cons a rest ih => by_cases ha : p a <;> simp [modifyFirst, ha, h, ih]

theorem Engine.DistinctIds.nodup {e : Engine} {n : Nat} (ids : e.DistinctIds n) (kind : String)
    {ks : List Nat} (hks : ks.Nodup) (hn : ∀ k ∈ ks, k < n) : (ks.map (e.newId kind)).Nodup :=
  hks.map_on fun i hi j hj => ids kind i j (hn i hi) (hn j hj)

/-- The executions of a run are numbered in the order in which they came about. -/
def Session.Numbered (e : Engine) (s : Session) : Prop :=
  ∃ ks : List Nat, s.run.executionIds = ks.map (e.newId "exec") ∧ ks.Nodup ∧
    ∀ k ∈ ks, k < s.log.drawn

theorem Session.Numbered.differ {e : Engine} {s : Session} (h : s.Numbered e)
    (ids : e.DistinctIds s.log.drawn) : s.run.executionIds.Nodup := by
  obtain ⟨ks, hks, hnodup, hn⟩ := h
  rw [hks]
  exact ids.nodup "exec" hnodup hn

namespace Execution

def assignmentIds (x : Execution) : List String :=
  x.assignments.map Assignment.id

/-- The assignments of an execution got numbers below `n`, one after the other, and a shared step
has some. -/
structure Rostered (e : Engine) (n : Nat) (x : Execution) : Prop where
  numbered : ∃ first, first + x.assignmentIds.length ≤ n ∧
    x.assignmentIds = (List.range' first x.assignmentIds.length).map (e.newId "asg")
  staffed : x.isShared = true → x.assignmentIds ≠ []

variable {e : Engine} {n : Nat} {x y : Execution} {now : Instant}

theorem Rostered.congr (h : x.Rostered e n) (hids : y.assignmentIds = x.assignmentIds)
    (hshared : y.isShared = x.isShared) : y.Rostered e n := by
  refine ⟨?_, ?_⟩
  · rw [hids]
    exact h.numbered
  · rw [hids, hshared]
    exact h.staffed

theorem Rostered.differ (h : x.Rostered e n) (ids : e.DistinctIds n) : x.assignmentIds.Nodup := by
  obtain ⟨first, hn, hids⟩ := h.numbered
  rw [hids]
  refine ids.nodup "asg" List.nodup_range' fun k hk => ?_
  rw [List.mem_range'_1] at hk
  omega

theorem assignmentIds_modifyAssignment {change : Assignment → Assignment}
    (h : ∀ a, (change a).id = a.id) (x : Execution) (assignment : String) :
    (x.modifyAssignment assignment change).assignmentIds = x.assignmentIds :=
  Sequence.map_modifyFirst_eq h x.assignments

theorem assignmentIds_submit (x : Execution) (assignment : String) (result : Record)
    (now : Instant) : (x.submit assignment result now).assignmentIds = x.assignmentIds := by
  unfold submit
  rw [assignmentIds_modifyAssignment fun a => ?_]
  rfl

theorem assignmentIds_reopen (x : Execution) (assignment : String) :
    (x.reopen assignment).assignmentIds = x.assignmentIds := by
  unfold reopen
  rw [assignmentIds_modifyAssignment fun a => ?_]
  rfl

theorem assignmentIds_finish (x : Execution) (result : Record) (now : Instant) :
    (x.finish result now).assignmentIds = x.assignmentIds ∧
      (x.finish result now).isShared = x.isShared := by
  unfold finish
  split <;> exact ⟨rfl, rfl⟩

theorem Amends.assignmentIds {r : Run} {ns : List Notice} (h : x.Amends r y ns) :
    y.assignmentIds = x.assignmentIds ∧ y.isShared = x.isShared := by
  cases h with
  | fail | escalate => exact ⟨rfl, rfl⟩
  | @wait assignment result now => exact ⟨x.assignmentIds_submit assignment result now, rfl⟩
  | @keep assignment result now => exact ⟨x.assignmentIds_submit assignment result now, rfl⟩
  | @revise assignment result now =>
    exact ⟨(assignmentIds_reopen _ assignment).trans
      (x.assignmentIds_submit assignment result now), rfl⟩
  | release =>
    refine ⟨?_, rfl⟩
    unfold Execution.assignmentIds cancelPending
    rw [List.map_map]
    refine List.map_congr_left fun a _ => ?_
    rw [Function.comp_apply]
    split <;> rfl

theorem Concludes.assignmentIds (h : x.Concludes now y) :
    y.assignmentIds = x.assignmentIds ∧ y.isShared = x.isShared := by
  cases h with
  | complete => exact x.assignmentIds_finish _ _
  | @submit assignment result =>
    obtain ⟨hids, hshared⟩ := (x.submit assignment result now).assignmentIds_finish
      ((x.submit assignment result now).sharedResult result) now
    exact ⟨hids.trans (x.assignmentIds_submit assignment result now), hshared⟩

/-- Several assignees get assignments with consecutive numbers. -/
theorem rostered_assign {first : Nat} {assignees : List Assignee} (hids : x.assignmentIds = [])
    (hshared : x.isShared = false)
    (hn : first +
      (x.assign (fun i => e.newId "asg" (first + i)) assignees).assignments.length ≤ n) :
    (x.assign (fun i => e.newId "asg" (first + i)) assignees).Rostered e n := by
  have hnobody : first ≤ n → x.Rostered e n := by
    intro hfirst
    refine ⟨⟨first, ?_, ?_⟩, fun h => absurd (hshared.symm.trans h) Bool.false_ne_true⟩
    · rw [hids]
      exact hfirst
    · rw [hids]
      rfl
  match assignees with
  | [] => exact hnobody (by omega)
  | [_] => exact (hnobody (by omega)).congr rfl rfl
  | a :: b :: rest =>
    have hassigned : (x.assign (fun i => e.newId "asg" (first + i))
        (a :: b :: rest)).assignmentIds =
          (List.range' first (a :: b :: rest).length).map (e.newId "asg") := by
      unfold Execution.assignmentIds Execution.assign
      dsimp only
      refine List.ext_getElem (by simp) fun i _ _ => ?_
      rw [List.getElem_map, List.getElem_mapIdx, List.getElem_map, List.getElem_range', Nat.one_mul]
    refine ⟨⟨first, ?_, ?_⟩, fun _ hnil => ?_⟩
    · rw [Execution.assignmentIds, List.length_map]
      exact hn
    · rw [hassigned, List.length_map, List.length_range']
    · rw [hassigned] at hnil
      cases hnil

end Execution

namespace Engine

variable {e : Engine} {flow : Flow} {s s' : Session} {allowed : Move → Prop}

theorem Stroke.numbered (h : e.Stroke s s') (hs : s.Numbered e) : s'.Numbered e := by
  obtain ⟨ks, hks, hnodup, hn⟩ := hs
  rcases h.executionIds with hsame | ⟨hnew, hdrawn⟩
  · exact ⟨ks, hsame.trans hks, hnodup, fun k hk => Nat.lt_of_lt_of_le (hn k hk) h.drawn⟩
  · refine ⟨ks ++ [s.log.drawn], ?_, ?_, ?_⟩
    · rw [hnew, hks, List.map_append, List.map_singleton, nextId]
    · refine hnodup.append (List.nodup_singleton _) ?_
      simpa using fun hmem => Nat.lt_irrefl _ (hn _ hmem)
    · intro k hk
      rcases List.mem_append.mp hk with hk | hk
      · exact Nat.lt_trans (hn k hk) hdrawn
      · rw [List.mem_singleton.mp hk]
        exact hdrawn

theorem Strokes.numbered (h : e.Strokes s s') (hs : s.Numbered e) : s'.Numbered e := by
  induction h with
  | refl => exact hs
  | tail _ hstroke ih => exact hstroke.numbered ih

theorem Reaches.numbered (h : e.Reaches flow allowed s) : s.Numbered e := by
  obtain ⟨s₀, hs₀, hstrokes⟩ := h.strokes
  refine hstrokes.numbered ⟨[], ?_, List.nodup_nil, by simp⟩
  rw [Run.executionIds, hs₀.executions]
  rfl

theorem upholds_rostered (e : Engine) (n : Nat) : e.Upholds n (Execution.Rostered e n) where
  expected _ _ _ hn := Execution.rostered_assign rfl rfl hn
  begun _ _ _ _ _ _ hx := hx.congr rfl rfl
  finish x result now hx := by
    obtain ⟨hids, hshared⟩ := x.assignmentIds_finish result now
    exact hx.congr hids hshared
  amends _ _ _ _ _ h hx := hx.congr h.assignmentIds.1 h.assignmentIds.2
  concludes _ _ _ h hx := hx.congr h.assignmentIds.1 h.assignmentIds.2

end Engine

end Workflow
