import Workflow.Plan

namespace Workflow

/-- The clauses of a guard that are not the fallback. -/
def Guard.own (g : Guard) : List Clause :=
  g.clauses.filter fun c => c.comparison != .otherwise

namespace Situation

variable (s : Situation)

/-- Whether clauses hold together: all of them, or some. -/
def Joins (cs : List Clause) : Logic → Prop
  | .all => ∀ c ∈ cs, s.clause c = true
  | .any => ∃ c ∈ cs, s.clause c = true

instance (cs : List Clause) (logic : Logic) : Decidable (s.Joins cs logic) :=
  match logic with
  | .all => inferInstanceAs (Decidable (∀ c ∈ cs, s.clause c = true))
  | .any => inferInstanceAs (Decidable (∃ c ∈ cs, s.clause c = true))

/-- Whether a guard is met: it has clauses of its own, and they hold together. -/
def Meets (g : Guard) : Prop :=
  g.own ≠ [] ∧ s.Joins g.own g.logic

instance (g : Guard) : Decidable (s.Meets g) :=
  inferInstanceAs (Decidable (g.own ≠ [] ∧ s.Joins g.own g.logic))

/-- Whether a path is open, which a fallback never is. -/
def Admits (p : Path Step) : Prop :=
  p.guard.isOtherwise = false ∧ s.Meets p.guard

instance (p : Path Step) : Decidable (s.Admits p) :=
  inferInstanceAs (Decidable (p.guard.isOtherwise = false ∧ s.Meets p.guard))

def named? (paths : List (Path Step)) : Option (Path Step) :=
  if s.result.showAt "selectedPathId" = "" then none
  else paths.find? fun p => p.id == s.result.showAt "selectedPathId"

/-- The evaluation stops at the first clause that settles the matter, and passes over fallbacks.
What it decides is still what all clauses that are left decide together. -/
theorem clauses_iff (logic : Logic) (decided : Bool) (cs : List Clause) :
    s.clauses logic decided cs = true ↔
      (decided = true ∨ cs.filter (fun c => c.comparison != .otherwise) ≠ []) ∧
        s.Joins (cs.filter fun c => c.comparison != .otherwise) logic := by
  induction cs generalizing decided with
  | nil => cases logic <;> simp [clauses, Joins]
  | cons c rest ih =>
    unfold clauses
    split
    · rename_i hc
      rw [ih, List.filter_cons_of_neg (by simp [hc])]
    · rename_i hc
      rw [List.filter_cons_of_pos (by simpa using hc)]
      cases logic <;> cases hclause : s.clause c <;> simp [Joins, ih, hclause]

theorem opens_iff (g : Guard) : s.opens g = true ↔ s.Meets g := by
  unfold opens
  rw [clauses_iff]
  simp [Meets, Guard.own]

theorem open_eq (p : Path Step) :
    (!p.guard.isOtherwise && s.opens p.guard) = decide (s.Admits p) := by
  rw [Bool.eq_iff_iff]
  simp only [Bool.and_eq_true, Bool.not_eq_true', opens_iff, decide_eq_true_eq]
  rfl

/-- The loop that ends at the first open path ends at the first of all open paths, and what it falls
back on is the fallback met first, wherever that stands. -/
theorem firstOpen_eq (fallback : Option (Path Step)) (paths : List (Path Step)) :
    s.firstOpen fallback paths =
      (paths.filter fun p => decide (s.Admits p)).head?.or
        (fallback.or (paths.find? fun p => p.guard.isOtherwise)) := by
  induction paths generalizing fallback with
  | nil => simp [firstOpen]
  | cons p rest ih =>
    unfold firstOpen
    split
    · rename_i hp
      have hadmits : ¬ s.Admits p := fun h => Bool.false_ne_true (h.1.symm.trans hp)
      rw [ih, List.filter_cons_of_neg (by simpa using hadmits)]
      simp [hp]
    · rename_i hp
      split
      · rename_i hopens
        have hadmits : s.Admits p := ⟨by simpa using hp, (s.opens_iff _).mp hopens⟩
        rw [List.filter_cons_of_pos (by simpa using hadmits)]
        rfl
      · rename_i hopens
        have hadmits : ¬ s.Admits p := fun h => hopens ((s.opens_iff _).mpr h.2)
        rw [ih, List.filter_cons_of_neg (by simpa using hadmits)]
        simp [hp]

/-- All open paths, or the first fallback alone if no path is open. -/
theorem several_eq_ite (paths : List (Path Step)) :
    s.several paths =
      if ∃ p ∈ paths, s.Admits p then paths.filter fun p => decide (s.Admits p)
      else (paths.find? fun p => p.guard.isOtherwise).toList := by
  rw [several_eq]
  simp only [open_eq, List.isEmpty_iff, List.filter_eq_nil_iff, decide_eq_true_eq]
  split
  · rename_i hnone
    rw [if_neg (by simpa using hnone)]
  · rename_i hsome
    rw [if_pos (by simpa using hsome)]

/-- The single choice and the choice of several start from the same path. -/
theorem firstOpen_eq_head? (paths : List (Path Step)) :
    s.firstOpen none paths = (s.several paths).head? := by
  rw [firstOpen_eq, several_eq]
  simp only [open_eq]
  cases paths.filter fun p => decide (s.Admits p) with
  | nil => cases paths.find? fun p => p.guard.isOtherwise <;> rfl
  | cons p rest => rfl

theorem single_eq_or (paths : List (Path Step)) :
    s.single paths = (s.named? paths).or (s.several paths).head? := by
  rw [← firstOpen_eq_head?]
  unfold single
  cases hnamed : s.named? paths with
  | none =>
    unfold named? at hnamed
    simp only [hnamed, Option.none_or]
  | some p =>
    unfold named? at hnamed
    simp only [hnamed, Option.some_or]

/-- The choice of several takes exactly the open paths in their order, or the first fallback alone
if none is open. The single choice takes the path that the submission names, or else the first one
of the same. A guard opens its path just when some of its clauses are no fallbacks, and all or some
of these hold. -/
theorem paths_chosen (paths : List (Path Step)) :
    (s.several paths =
      if ∃ p ∈ paths, s.Admits p then paths.filter fun p => decide (s.Admits p)
      else (paths.find? fun p => p.guard.isOtherwise).toList) ∧
    s.single paths = (s.named? paths).or (s.several paths).head? ∧
    ∀ g, s.opens g = true ↔ s.Meets g :=
  ⟨s.several_eq_ite paths, s.single_eq_or paths, s.opens_iff⟩

end Situation

/-- Where a choice of several is for the first match only, it goes on as a single choice for which
the submission names no path. -/
theorem Outline.afterBranch_firstMatch {policy : EnginePolicy} {s : Situation}
    (hpolicy : policy.multiChoice = .firstMatch) {paths : List (Path Step)}
    (hnamed : s.named? paths = none) (o : Outline) (forks : List Fork) (fork : Option String)
    (newId : String) (i : Fin o.places.length) (join : Quorum) :
    o.afterBranch policy forks s fork newId i .multiChoice join paths =
      o.afterBranch policy forks s fork newId i .singleChoice join paths := by
  have hsingle : s.single paths = (s.several paths).head? := by
    rw [s.single_eq_or, hnamed]
    rfl
  unfold afterBranch
  dsimp only
  rw [hsingle]
  cases s.several paths with
  | nil => rfl
  | cons p rest =>
    dsimp only
    rw [hpolicy]
    rfl

end Workflow
