import Workflow.Proofs.Front.Once
import Workflow.Proofs.Planner

namespace Workflow

/-- How a step that is over spreads a run over the scopes that it owns. -/
inductive Spread where
  | every | any | one
  deriving DecidableEq, Repr

/-- What a spread says of how often the first steps of the scopes have begun, once their owner was
completed so often. -/
def Spread.Bounds (heads : List String) (begun : String → Nat) (done : Nat) : Spread → Prop
  | .every => ∀ id ∈ heads, begun id = done
  | .any => ∀ id ∈ heads, begun id ≤ done
  | .one => (heads.map begun).sum ≤ done

/-- A parallel branch goes down all paths; all else goes down one path or into one outcome at most,
unless the policy lets a choice be for several paths. -/
def Step.spread (policy : EnginePolicy) (s : Step) : Spread :=
  match s.body with
  | .branch .parallel _ _ => .every
  | .branch .multiChoice _ _ =>
    match policy.multiChoice with
    | .fanOut => .any
    | .firstMatch => .one
  | _ => .one

namespace Spread

variable {heads : List String} {begun begun' : String → Nat} {done done' : Nat} {spread : Spread}

theorem Bounds.congr (h : spread.Bounds heads begun done)
    (hb : ∀ id ∈ heads, begun' id = begun id) : spread.Bounds heads begun' done := by
  cases spread with
  | every => exact fun id hid => (hb id hid).trans (h id hid)
  | any => exact fun id hid => (hb id hid).symm ▸ h id hid
  | one =>
    unfold Bounds at h ⊢
    rwa [List.map_congr_left hb]

theorem Bounds.add (h : spread.Bounds heads begun done) (h' : spread.Bounds heads begun' done') :
    spread.Bounds heads (fun id => begun id + begun' id) (done + done') := by
  cases spread with
  | every => exact fun id hid => congrArg₂ (· + ·) (h id hid) (h' id hid)
  | any => exact fun id hid => Nat.add_le_add (h id hid) (h' id hid)
  | one =>
    unfold Bounds at h h' ⊢
    rw [List.sum_map_add]
    exact Nat.add_le_add h h'

/-- Where no first step begins, only a step that always goes down its paths is missed. -/
theorem bounds_of_zero (hb : ∀ id ∈ heads, begun id = 0)
    (hd : spread = .every → heads = [] ∨ done = 0) : spread.Bounds heads begun done := by
  cases spread with
  | every =>
    intro id hid
    rcases hd rfl with rfl | rfl
    · cases hid
    · exact hb id hid
  | any => exact fun id hid => hb id hid ▸ Nat.zero_le _
  | one =>
    have hsum : (heads.map begun).sum = 0 := by
      rw [List.sum_eq_zero_iff]
      simpa using hb
    unfold Bounds
    rw [hsum]
    exact Nat.zero_le _

/-- A step without scopes bounds nothing. -/
theorem bounds_of_ne_nil (h : heads ≠ [] → spread.Bounds heads begun done) :
    spread.Bounds heads begun done := by
  cases heads with
  | nil => exact bounds_of_zero (by simp) fun _ => .inl rfl
  | cons id rest => exact h (List.cons_ne_nil id rest)

/-- What was never done has begun nothing. -/
theorem Bounds.eq_zero (h : spread.Bounds heads begun 0) : ∀ id ∈ heads, begun id = 0 := by
  cases spread with
  | every => exact h
  | any => exact fun id hid => Nat.le_zero.mp (h id hid)
  | one =>
    intro id hid
    exact List.sum_eq_zero_iff.mp (Nat.le_zero.mp h) _ (List.mem_map_of_mem hid)

end Spread

def Activation.begun (as : List Activation) (id : String) : Nat :=
  (as.map Activation.step).count id

/-- Whether a step with that id stands on the main path. -/
def Flow.OnMain (f : Flow) (id : String) : Prop :=
  ∃ p, f.Has p ∧ p.scopes = [] ∧ p.id = id

theorem Flow.onMain_of_mem {f : Flow} {s : Step} (hs : s ∈ f.steps) : f.OnMain s.id := by
  obtain ⟨k, hk⟩ := List.mem_iff_getElem?.mp hs
  exact ⟨_, .main hk, rfl, rfl⟩

namespace Flow

variable {f : Flow} (unique : f.ids.Nodup)
include unique

/-- The first step of a scope follows no other step. -/
theorem Has.next_not_head {p o : Place} {s : Step} (hp : f.Has p) (hs : p.next? = some s)
    (ho : f.Has o) : s.id ∉ o.step.heads := by
  intro hid
  obtain ⟨scope, h, rest, hi, he⟩ := Step.mem_heads.mp hid
  exact hp.next_ne_head unique hs ho hi he

/-- The first step of a scope does not stand on the main path. -/
theorem OnMain.not_head {o : Place} {id : String} (h : f.OnMain id) (ho : f.Has o) :
    id ∉ o.step.heads := by
  intro hid
  obtain ⟨p, hp, hmain, rfl⟩ := h
  obtain ⟨scope, h, rest, hi, he⟩ := Step.mem_heads.mp hid
  have hh : f.Has ⟨h, h :: rest, 0, o.scopes ++ [scope]⟩ := .inner ho hi rfl
  have := congrArg Place.scopes (hh.eq_of_id unique hp he)
  simp [hmain] at this

theorem Has.head_place {o : Place} {id : String} (ho : f.Has o) (hid : id ∈ o.step.heads) :
    ∃ p, f.find? id = some p := by
  obtain ⟨scope, h, rest, hi, rfl⟩ := Step.mem_heads.mp hid
  have hh : f.Has ⟨h, h :: rest, 0, o.scopes ++ [scope]⟩ := .inner ho hi rfl
  exact ⟨_, hh.find? unique⟩

/-- Scopes of two steps start with different steps. -/
theorem Has.owner_of_head {o p : Place} {id : String} (ho : f.Has o) (hp : f.Has p)
    (hid : id ∈ o.step.heads) (hid' : id ∈ p.step.heads) : o = p := by
  obtain ⟨scope, h, rest, hi, rfl⟩ := Step.mem_heads.mp hid
  obtain ⟨scope', h', rest', hi', he⟩ := Step.mem_heads.mp hid'
  exact ho.head_injective unique hi hp hi' he.symm

end Flow

namespace Step

variable {policy : EnginePolicy} {s : Step}

theorem body_of_every (h : s.spread policy = .every) :
    ∃ join paths, s.body = .branch .parallel join paths := by
  unfold spread at h
  split at h
  · rename_i join paths hb
    exact ⟨join, paths, hb⟩
  · split at h <;> cases h
  · cases h

/-- A step that forks goes down several paths, and any other down one at most. -/
theorem spread_of_forks (h : s.forks policy = false) : s.spread policy = .one := by
  unfold forks at h
  unfold spread
  split
  · rename_i hb
    rw [hb] at h
    cases h
  · rename_i hb
    rw [hb] at h
    cases hm : policy.multiChoice <;> simp [EnginePolicy.forks, hm] at h ⊢
  · rfl

end Step

namespace Activation

theorem begun_cons (a : Activation) (as : List Activation) (id : String) :
    begun (a :: as) id = begun [a] id + begun as id := by
  simp only [begun, List.map_cons, List.map_nil, List.count_cons, List.count_nil]
  omega

theorem begun_append (as bs : List Activation) (id : String) :
    begun (as ++ bs) id = begun as id + begun bs id := by
  rw [begun, List.map_append, List.count_append]
  rfl

theorem begun_eq_zero {as : List Activation} {id : String} (h : ∀ a ∈ as, a.step ≠ id) :
    begun as id = 0 := by
  rw [begun, List.count_eq_zero, List.mem_map]
  rintro ⟨a, ha, hid⟩
  exact h a ha hid

end Activation

namespace Outline

/-- Going on starts a step that follows another, or none. -/
theorem onward_activates (o : Outline) :
    (∀ (forks : List Fork) (fork : Option String) (i : Fin o.places.length),
      ∀ a ∈ (o.onward forks fork i).1.toPlan.activations,
        ∃ j s, (o.place j).next? = some s ∧ a.step = s.id) ∧
    ∀ (forks : List Fork) (fork : Option String) (i : Fin o.places.length),
      ∀ a ∈ (o.leave forks fork i).1.toPlan.activations,
        ∃ j s, (o.place j).next? = some s ∧ a.step = s.id := by
  apply onward.mutual_induct o
    (fun forks fork i => ∀ a ∈ (o.onward forks fork i).1.toPlan.activations,
      ∃ j s, (o.place j).next? = some s ∧ a.step = s.id)
    (fun forks fork i => ∀ a ∈ (o.leave forks fork i).1.toPlan.activations,
      ∃ j s, (o.place j).next? = some s ∧ a.step = s.id)
  · intro forks fork i next hn a ha
    rw [onward_next hn] at ha
    exact ⟨i, next, hn, List.mem_singleton.mp ha ▸ rfl⟩
  · intro forks fork i hn ih
    rwa [onward_last hn]
  · intro forks fork i hs
    simp [leave_main hs, Onward.toPlan]
  · intro forks fork i scope hs hj
    simp [leave_lost hs hj, Onward.toPlan]
  · intro forks fork i scope hs j hj hg ih
    rw [leave_of hs hj, hg]
    exact ih
  · intro forks fork i scope hs j hj g hg hjoined
    rw [leave_of hs hj, hg]
    simp [hjoined, Onward.toPlan]
  · intro forks fork i scope hs j hj g hg hjoined _ _ hr ih
    rw [leave_of hs hj, hg]
    dsimp only
    rw [if_neg hjoined, if_pos hr]
    exact ih
  · intro forks fork i scope hs j hj g hg hjoined _ hr
    rw [leave_of hs hj, hg]
    dsimp only
    rw [if_neg hjoined, if_neg hr]
    simp [Onward.toPlan]

variable {f : Flow} {policy : EnginePolicy} {o : Place} (unique : f.ids.Nodup)
include unique

/-- Going on never starts the first step of a scope. -/
theorem onward_begins_no_head (ho : f.Has o) {id : String} (hid : id ∈ o.step.heads)
    (forks : List Fork) (fork : Option String) (i : Fin f.outline.places.length) :
    Activation.begun (f.outline.onward forks fork i).1.toPlan.activations id = 0 ∧
      Activation.begun (f.outline.leave forks fork i).1.toPlan.activations id = 0 := by
  have hno : ∀ (a : Activation) (j : Fin f.outline.places.length) (s : Step),
      (f.outline.place j).next? = some s → a.step = s.id → a.step ≠ id := by
    rintro a j s hs ha rfl
    exact (has_place j).next_not_head unique hs ho (ha ▸ hid)
  constructor
  · refine Activation.begun_eq_zero fun a ha => ?_
    obtain ⟨j, s, hs, he⟩ := f.outline.onward_activates.1 forks fork i a ha
    exact hno a j s hs he
  · refine Activation.begun_eq_zero fun a ha => ?_
    obtain ⟨j, s, hs, he⟩ := f.outline.onward_activates.2 forks fork i a ha
    exact hno a j s hs he

/-- A plan that starts no first step fits behind any step that does not always go down its paths. -/
theorem bounds_of_plain {as : List Activation} {p : Place} (hp : f.Has p) (ho : f.Has o)
    (hplain : ∀ id ∈ o.step.heads, Activation.begun as id = 0)
    (hparallel : ∀ join paths, p.step.body = .branch .parallel join paths → paths = []) :
    (o.step.spread policy).Bounds o.step.heads (Activation.begun as)
      (if o.id = p.id then 1 else 0) := by
  refine Spread.bounds_of_zero hplain fun hevery => ?_
  by_cases hid : o.id = p.id
  · obtain rfl := ho.eq_of_id unique hp hid
    obtain ⟨join, paths, hb⟩ := Step.body_of_every hevery
    have hnone := hparallel join paths hb
    subst hnone
    exact .inl (Step.heads_branch hb)
  · exact .inr (if_neg hid)

/-- One of the scopes of a step is entered. -/
theorem bounds_enter {p : Place} {scope : Scope} {steps : List Step} (hp : f.Has p) (ho : f.Has o)
    (hi : (scope, steps) ∈ p.step.inner) (hk : p.step.forks policy = false)
    (forks : List Fork) (fork : Option String) (i : Fin f.outline.places.length) :
    (o.step.spread policy).Bounds o.step.heads
      (Activation.begun (f.outline.enter forks fork i steps).1.toPlan.activations)
      (if o.id = p.id then 1 else 0) := by
  have hone := Step.spread_of_forks hk
  have hparallel : ∀ join paths, p.step.body = .branch .parallel join paths → paths = [] := by
    intro join paths hb
    simp [Step.forks, hb, EnginePolicy.forks] at hk
  cases steps with
  | nil =>
    exact bounds_of_plain unique hp ho
      (fun id hid => (onward_begins_no_head unique ho hid forks fork i).1) hparallel
  | cons h rest =>
    by_cases hid : o.id = p.id
    · obtain rfl := ho.eq_of_id unique hp hid
      rw [hone, if_pos rfl]
      exact sum_count_le _ (ho.heads_nodup unique) [h.id]
    · refine bounds_of_plain unique hp ho (fun id hmem => ?_) hparallel
      refine Activation.begun_eq_zero fun a ha => ?_
      rw [List.mem_singleton.mp ha]
      rintro rfl
      have hhead : h.id ∈ p.step.heads := Step.mem_heads.mpr ⟨scope, h, rest, hi, rfl⟩
      exact hid (congrArg Place.id (ho.owner_of_head unique hp hmem hhead))

/-- A branch that forks starts each of the paths that it takes once. -/
theorem bounds_heads {p : Place} {kind : BranchKind} {join : Quorum}
    {paths taken : List (Path Step)}
    (hp : f.Has p) (ho : f.Has o) (hb : p.step.body = .branch kind join paths)
    (hk : policy.forks kind = true) (ht : taken.Sublist paths)
    (hall : kind = .parallel → taken = paths) (newId : String) :
    (o.step.spread policy).Bounds o.step.heads (Activation.begun (Path.heads newId taken))
      (if o.id = p.id then 1 else 0) := by
  have hsub := Path.heads_sublist newId hb ht
  by_cases hid : o.id = p.id
  · obtain rfl := ho.eq_of_id unique hp hid
    have hnodup := ho.heads_nodup unique
    rw [if_pos rfl]
    cases kind with
    | singleChoice => cases hk
    | multiChoice =>
      have hany : o.step.spread policy = .any := by
        cases hm : policy.multiChoice <;> simp [EnginePolicy.forks, hm] at hk
        simp [Step.spread, hb, hm]
      rw [hany]
      exact fun id _ => List.nodup_iff_count_le_one.mp (hnodup.sublist hsub) id
    | parallel =>
      have hevery : o.step.spread policy = .every := by simp [Step.spread, hb]
      rw [hevery]
      intro id hmem
      rw [Activation.begun, Path.map_step_heads, hall rfl, ← Step.heads_branch hb]
      exact List.count_eq_one_of_mem hnodup hmem
  · refine Spread.bounds_of_zero (fun id hmem => ?_) fun _ => .inr (if_neg hid)
    rw [Activation.begun, List.count_eq_zero]
    intro hhead
    exact hid (congrArg Place.id (ho.owner_of_head unique hp hmem (hsub.subset hhead)))

/-- A fork begins no step more often than control came to its branch. -/
theorem bounds_fanOut {kind : BranchKind} {join : Quorum} {paths taken : List (Path Step)}
    {i : Fin f.outline.places.length} (ho : f.Has o)
    (hb : (f.outline.place i).step.body = .branch kind join paths)
    (hk : policy.forks kind = true) (ht : taken.Sublist paths)
    (hall : kind = .parallel → taken = paths) (forks : List Fork) (fork : Option String)
    (newId : String) :
    (o.step.spread policy).Bounds o.step.heads
      (Activation.begun (f.outline.fanOut forks fork newId i join taken).1.activations)
      (if o.id = (f.outline.place i).id then 1 else 0) := by
  have hheads := bounds_heads unique (has_place i) ho hb hk ht hall newId
  rw [fanOut_eq]
  split
  · refine hheads.congr fun id hid => ?_
    dsimp only
    generalize forks ++ [_] = forks'
    have hnext := (onward_begins_no_head unique ho hid forks' fork i).1
    cases hon : (f.outline.onward forks' fork i).1 with
    | activate a =>
      rw [hon] at hnext
      change Activation.begun (Path.heads newId taken ++ [a]) id = _
      rw [Activation.begun_append]
      exact congrArg _ hnext
    | exhausted => rfl
    | absorbed => rfl
  · exact hheads

/-- Behind a step that is over, a plan starts the first steps of its scopes as it spreads, and no
others. -/
theorem bounds_after {p : Place} (hp : f.Has p) (ho : f.Has o) (run : Run) (newId : String)
    (result : Record) (fork : Option String) :
    (o.step.spread policy).Bounds o.step.heads
      (Activation.begun (f.outline.after policy run newId p.id result fork).plan.activations)
      (if o.id = p.id then 1 else 0) := by
  obtain ⟨i, hi, rfl⟩ := exists_indexOf? unique hp
  unfold after
  rw [hi]
  refine afterPlace_cases (P := fun next => (o.step.spread policy).Bounds o.step.heads
    (Activation.begun next.plan.activations) (if o.id = (f.outline.place i).id then 1 else 0))
    f.outline policy run.forks ⟨result, run⟩ fork newId i ?_ ?_ ?_ ?_ ?_ ?_
  · intro hparallel
    exact bounds_of_plain unique hp ho
      (fun id hid => (onward_begins_no_head unique ho hid run.forks fork i).1) hparallel
  · intro scope steps hin hk
    exact bounds_enter unique hp ho hin hk run.forks fork i
  · intro kind join paths taken hb hk ht hall _
    exact bounds_fanOut unique ho hb hk ht hall run.forks fork newId
  · intro target q hb hq hmain
    obtain ⟨hq, _⟩ := (Flow.find?_eq_some_iff unique).mp hq
    refine bounds_of_plain unique hp ho (fun id hid => ?_) (by simp [hb])
    refine Activation.begun_eq_zero fun a ha => ?_
    rw [List.mem_singleton.mp ha]
    rintro rfl
    have hon : f.OnMain q.id := ⟨q, hq, List.isEmpty_iff.mp hmain, rfl⟩
    exact hon.not_head unique ho hid
  · intro status hb _
    exact bounds_of_plain unique hp ho (fun _ _ => rfl) (by simp [hb])
  · intro status hb
    exact bounds_of_plain unique hp ho
      (fun id hid => (onward_begins_no_head unique ho hid run.forks fork i).2) (by simp [hb])

omit unique in
/-- A plan that ends the run starts nothing. -/
theorem activations_of_ending {run : Run} {newId stepId : String} {result : Record}
    {fork : Option String} {status : TerminateStatus}
    (h : (f.outline.after policy run newId stepId result fork).plan.ending? = some status) :
    (f.outline.after policy run newId stepId result fork).plan.activations = [] := by
  revert h
  unfold after
  split
  · exact fun _ => rfl
  · rename_i i _
    refine afterPlace_cases (P := fun next => next.plan.ending? = some status →
      next.plan.activations = []) f.outline policy run.forks ⟨result, run⟩ fork newId i
      ?_ ?_ ?_ ?_ ?_ ?_
    · intro _ h
      simp [Planned.ofOnward, Plan.ending?, Onward.endRun_toPlan] at h
    · intro scope steps _ _ h
      simp [Planned.ofOnward, Plan.ending?, Onward.endRun_toPlan] at h
    · intro kind join paths taken _ _ _ _ _ h
      rw [fanOut_eq] at h
      split at h
      · simp [Plan.ending?, Plan.endRun_add] at h
      · cases h
    · intro target q _ _ _ h
      cases h
    · exact fun _ _ _ _ => rfl
    · intro status' _ h
      simp [Plan.ending?, Onward.endRun_toPlan] at h

end Outline

end Workflow
