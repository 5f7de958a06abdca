import Mathlib.Data.List.Nodup
import Workflow.Flow.Siblings
import Workflow.Proofs.Tree

namespace Workflow

namespace Siblings

variable {id anchor : String} {after : Option String} {s : Step}
variable {steps steps' pre post : List Step}

/-- What is added behind an anchor stands behind the first step with the anchor's id. -/
theorem addAfter?_eq_some_iff :
    addAfter? anchor s steps = some steps' ↔
      ∃ pre a post, steps = pre ++ a :: post ∧ steps' = pre ++ a :: s :: post ∧
        a.id = anchor ∧
        anchor ∉ pre.map Step.id := by
  constructor
  · intro h
    induction steps generalizing steps' with
    | nil => cases h
    | cons t rest ih =>
      rw [addAfter?] at h
      split at h
      · rename_i ht
        cases h
        exact ⟨[], t, rest, rfl, rfl, ht, List.not_mem_nil⟩
      · rename_i ht
        obtain ⟨_, hrest, rfl⟩ := Option.map_eq_some_iff.mp h
        obtain ⟨pre, a, post, rfl, rfl, ha, hpre⟩ := ih hrest
        refine ⟨t :: pre, a, post, rfl, rfl, ha, ?_⟩
        rw [List.map_cons, List.mem_cons, not_or]
        exact ⟨Ne.symm ht, hpre⟩
  · rintro ⟨pre, a, post, rfl, rfl, ha, hpre⟩
    induction pre with
    | nil => rw [List.nil_append, addAfter?, if_pos ha, List.nil_append]
    | cons t rest ih =>
      rw [List.map_cons, List.mem_cons, not_or] at hpre
      rw [List.cons_append, addAfter?, if_neg (Ne.symm hpre.1), ih hpre.2]
      rfl

theorem addBefore?_split (h : addBefore? anchor s steps = some steps') :
    ∃ pre a post, steps = pre ++ a :: post ∧ steps' = pre ++ s :: a :: post ∧
      a.id = anchor := by
  induction steps generalizing steps' with
  | nil => cases h
  | cons t rest ih =>
    rw [addBefore?] at h
    split at h
    · rename_i ht
      cases h
      exact ⟨[], t, rest, rfl, rfl, ht⟩
    · obtain ⟨_, hrest, rfl⟩ := Option.map_eq_some_iff.mp h
      obtain ⟨pre, a, post, rfl, rfl, ha⟩ := ih hrest
      exact ⟨t :: pre, a, post, rfl, rfl, ha⟩

/-- A step that is taken out is the first with its id. -/
theorem take?_eq_some_iff {rest : List Step} :
    take? id steps = some (s, rest) ↔
      ∃ pre post, steps = pre ++ s :: post ∧ rest = pre ++ post ∧ s.id = id ∧
        id ∉ pre.map Step.id := by
  constructor
  · intro h
    induction steps generalizing rest with
    | nil => cases h
    | cons t steps ih =>
      rw [take?] at h
      split at h
      · rename_i ht
        cases h
        exact ⟨[], steps, rfl, rfl, ht, by simp⟩
      · rename_i ht
        obtain ⟨⟨_, more⟩, hmore, heq⟩ := Option.map_eq_some_iff.mp h
        cases heq
        obtain ⟨pre, post, rfl, rfl, hs, hpre⟩ := ih hmore
        refine ⟨t :: pre, post, rfl, rfl, hs, ?_⟩
        rw [List.map_cons, List.mem_cons, not_or]
        exact ⟨Ne.symm ht, hpre⟩
  · rintro ⟨pre, post, rfl, rfl, hs, hpre⟩
    induction pre with
    | nil => simp [take?, hs]
    | cons t rest ih =>
      rw [List.map_cons, List.mem_cons, not_or] at hpre
      rw [List.cons_append, take?, if_neg (Ne.symm hpre.1), ih hpre.2]
      rfl

theorem mem_of_find? (h : find? id steps = some s) : id ∈ steps.map Step.id := by
  have hs : s.id = id := by simpa using List.find?_some h
  exact List.mem_map.mpr ⟨s, List.mem_of_find?_eq_some h, hs⟩

/-- The list with a step behind the anchor, or in front without one. -/
def insert? (after : Option String) (s : Step) (steps : List Step) : Option (List Step) :=
  match after with
  | none => some (s :: steps)
  | some anchor => addAfter? anchor s steps

def lastId? (steps : List Step) : Option String :=
  steps.getLast?.map Step.id

theorem mem_of_insert? (h : insert? after s steps = some steps') :
    ∀ anchor ∈ after.toList, anchor ∈ steps.map Step.id := by
  cases after with
  | none => simp
  | some anchor =>
    obtain ⟨pre, a, post, rfl, -, rfl, -⟩ := addAfter?_eq_some_iff.mp h
    simp

theorem mem_of_lastId? (h : lastId? steps = some id) : id ∈ steps.map Step.id := by
  obtain ⟨s, hs, rfl⟩ := Option.map_eq_some_iff.mp h
  exact List.mem_map_of_mem (List.mem_of_getLast? hs)

theorem insert?_split (h : insert? after s steps = some steps') :
    ∃ pre post, steps = pre ++ post ∧ steps' = pre ++ s :: post := by
  cases after with
  | none => exact ⟨[], steps, rfl, (Option.some.inj h).symm⟩
  | some anchor =>
    obtain ⟨pre, a, post, hsteps, hsteps', -⟩ := addAfter?_eq_some_iff.mp h
    exact ⟨pre ++ [a], post, by simpa using hsteps, by simpa using hsteps'⟩

/-- A step can be put back behind the steps it stood behind. -/
theorem insert?_lastId? (unique : (pre.map Step.id).Nodup) (s : Step) (post : List Step) :
    insert? (lastId? pre) s (pre ++ post) = some (pre ++ s :: post) := by
  rcases List.eq_nil_or_concat' pre with rfl | ⟨before, a, rfl⟩
  · rfl
  · have ha : a.id ∉ before.map Step.id := by
      rw [List.map_append] at unique
      intro hin
      exact (List.nodup_append.mp unique).2.2 a.id hin a.id (by simp) rfl
    have hlast : lastId? (before ++ [a]) = some a.id := by simp [lastId?]
    rw [hlast, insert?, addAfter?_eq_some_iff]
    exact ⟨before, a, post, by simp, by simp, rfl, ha⟩

theorem take?_append (hs : s.id ∉ pre.map Step.id) (post : List Step) :
    take? s.id (pre ++ s :: post) = some (s, pre ++ post) :=
  take?_eq_some_iff.mpr ⟨pre, post, rfl, rfl, rfl, hs⟩

theorem move?_append (hs : s.id ∉ pre.map Step.id) (hafter : after ≠ some s.id)
    (post : List Step) : move? s.id after (pre ++ s :: post) = insert? after s (pre ++ post) := by
  unfold move?
  rw [if_neg hafter, take?_append hs]
  cases after <;> rfl

/-- A step that is moved is the first with its id, and is put back into the list without it. -/
theorem move?_split (h : move? id after steps = some steps') :
    ∃ pre s post, steps = pre ++ s :: post ∧ s.id = id ∧ id ∉ pre.map Step.id ∧
      after ≠ some id ∧ insert? after s (pre ++ post) = some steps' := by
  by_cases hafter : after = some id
  · simp [move?, hafter] at h
  · cases htake : take? id steps with
    | none => simp [move?, hafter, htake] at h
    | some taken =>
      obtain ⟨s, rest⟩ := taken
      obtain ⟨pre, post, rfl, rfl, rfl, hs⟩ := take?_eq_some_iff.mp htake
      rw [move?_append hs hafter] at h
      exact ⟨pre, s, post, rfl, rfl, hs, hafter, h⟩

theorem mem_of_move? (h : move? id after steps = some steps') :
    ∀ named ∈ id :: after.toList, named ∈ steps.map Step.id := by
  obtain ⟨pre, s, post, rfl, rfl, -, -, hinsert⟩ := move?_split h
  intro named hnamed
  rcases List.mem_cons.mp hnamed with rfl | hnamed
  · simp
  · have hrest := mem_of_insert? hinsert named hnamed
    exact List.map_subset _ ((List.sublist_cons_self s post).append_left pre).subset hrest

theorem perm_of_move? (h : move? id after steps = some steps') : steps'.Perm steps := by
  obtain ⟨pre, s, post, rfl, -, -, -, hinsert⟩ := move?_split h
  obtain ⟨before, behind, hrest, rfl⟩ := insert?_split hinsert
  exact List.perm_middle.trans ((hrest ▸ List.perm_middle.symm))

end Siblings

end Workflow
