import Workflow.Proofs.Joins.Legs

namespace Workflow

def Fork.Opens (g : Fork) : Prop :=
  ∃ taken, g = .opening g.id g.branch g.parent g.join taken

theorem Fork.Opens.joined {g : Fork} (h : g.Opens) : g.joined = g.isEnough := by
  obtain ⟨taken, h⟩ := h
  rw [h]
  rfl

/-- What a leg does to the forks. A fork that has joined is left alone, only the leg that joins a
fork goes on for it, and no other leg goes on behind a branch that forks. -/
inductive Leg.Acts (f : Flow) (policy : EnginePolicy) :
    Leg → List Fork → List Fork → Prop where
  | opens {forks : List Fork} {g : Fork} (hg : g.Opens) :
      Acts f policy (.opens g (if g.joined then some g.continuation else none)) forks (forks ++ [g])
  | reports {pre post : List Fork} {g : Fork} {path : String} (hj : g.joined = false) :
      Acts f policy
        (.reports path g (g.report path)
          (if (g.report path).joined then some g.continuation else none))
        (pre ++ g :: post) (pre ++ g.report path :: post)
  /-- A path reports after its fork has joined. -/
  | late {forks : List Fork} {g : Fork} {path : String} (hg : g ∈ forks) (hj : g.joined = true) :
      Acts f policy (.reports path g g none) forks forks
  | climbs {forks : List Fork} {s : Strand} (hs : f.forksAt policy s.step = false) :
      Acts f policy (.climbs s) forks forks

inductive Leg.Chain (f : Flow) (policy : EnginePolicy) :
    List Fork → List Leg → List Fork → Prop where
  | nil {forks : List Fork} : Chain f policy forks [] forks
  | cons {forks forks' forks'' : List Fork} {leg : Leg} {legs : List Leg}
      (hc : leg.Acts f policy forks forks') (h : Chain f policy forks' legs forks'') :
      Chain f policy forks (leg :: legs) forks''

namespace Fork

@[simp] theorem continuation_report (g : Fork) (path : String) :
    (g.report path).continuation = g.continuation := by
  unfold report
  split <;> rfl

theorem joined_report (g : Fork) (path : String) :
    (g.report path).joined = (g.report path).isEnough := by
  have hne : (g.report path).finished.isEmpty = false := by
    by_cases h : path ∈ g.finished
    · simpa [report, h] using List.ne_nil_of_mem h
    · simp [report, h]
  rw [isEnough, hne]
  unfold report
  split <;> rfl

/-- Each fork is part of the fork that the surroundings of its branch call for. -/
structure Placed (f : Flow) (policy : EnginePolicy) (forks : List Fork) : Prop where
  distinct : (forks.map Fork.id).Nodup
  parents : ∀ g ∈ forks, f.Mirrors policy forks g.branch g.parent

variable {f : Flow} {policy : EnginePolicy} {forks : List Fork}

theorem Placed.of_frames {forks' : List Fork} (h : Placed f policy forks)
    (hframes : forks'.map Fork.frame = forks.map Fork.frame) : Placed f policy forks' := by
  refine ⟨map_id_of_frames hframes ▸ h.distinct, fun k hk => ?_⟩
  obtain ⟨k', hk', he⟩ := List.mem_map.mp (hframes ▸ List.mem_map_of_mem (f := Fork.frame) hk)
  simp only [Fork.frame, Fork.mk.injEq] at he
  rw [← he.2.1, ← he.2.2.1]
  exact (h.parents k' hk').of_frames (hframes ▸ List.Subset.refl _)

theorem Placed.opened {g : Fork} (h : Placed f policy forks) (hid : g.id ∉ forks.map Fork.id)
    (hp : f.Mirrors policy forks g.branch g.parent) : Placed f policy (forks ++ [g]) := by
  have hsub : forks.map Fork.frame ⊆ (forks ++ [g]).map Fork.frame := by simp
  constructor
  · rw [List.map_append, List.map_singleton]
    exact h.distinct.append (List.nodup_singleton _) (by simpa using hid)
  · intro k hk
    rcases List.mem_append.mp hk with hk | hk
    · exact (h.parents k hk).of_frames hsub
    · rw [List.mem_singleton.mp hk]
      exact hp.of_frames hsub

/-- A fork that is found and has not joined takes a report, which changes no frame. -/
theorem Placed.report {g : Fork} {fork : Option String} {branch : String}
    (h : Placed f policy forks) (hg : of? forks fork branch = some g) (hj : g.joined = false)
    (path : String) :
    Leg.Acts f policy
        (.reports path g (g.report path)
          (if (g.report path).joined then some g.continuation else none))
        forks (store (g.report path) forks) ∧
      Placed f policy (store (g.report path) forks) ∧
      f.Mirrors policy (store (g.report path) forks) g.branch g.parent := by
  obtain ⟨_, _, pre, post, rfl, hpre⟩ := of?_eq_some hg
  rw [store_middle (id_report g path) hpre]
  have hframes :
      (pre ++ g.report path :: post).map Fork.frame = (pre ++ g :: post).map Fork.frame := by simp
  exact ⟨.reports hj, h.of_frames hframes,
    (h.parents g (by simp)).of_frames (hframes ▸ List.Subset.refl _)⟩

end Fork

namespace Outline

variable {f : Flow} {policy : EnginePolicy}

/-- The legs on the way of a strand lead from the forks before it to those after it. -/
theorem chain_onward (unique : f.ids.Nodup) :
    (∀ (forks : List Fork) (fork : Option String) (i : Fin f.outline.places.length),
      Fork.Placed f policy forks → f.Mirrors policy forks (f.outline.place i).id fork →
      Leg.Chain f policy forks (f.outline.onwardLegs forks fork i)
        (f.outline.onward forks fork i).2) ∧
    ∀ (forks : List Fork) (fork : Option String) (i : Fin f.outline.places.length),
      Fork.Placed f policy forks → f.Mirrors policy forks (f.outline.place i).id fork →
      Leg.Chain f policy forks (f.outline.leaveLegs forks fork i)
        (f.outline.leave forks fork i).2 := by
  refine onwardLegs_induct
    (P := fun forks fork i went legs => Fork.Placed f policy forks →
      f.Mirrors policy forks (f.outline.place i).id fork → Leg.Chain f policy forks legs went.2)
    (Q := fun forks fork i went legs => Fork.Placed f policy forks →
      f.Mirrors policy forks (f.outline.place i).id fork → Leg.Chain f policy forks legs went.2)
    ?next ?last ?main ?lost ?climb ?late ?join ?wait
  case next | main | lost =>
    intros
    exact .nil
  case last =>
    intro forks fork i went legs _ ih
    exact ih
  case climb =>
    intro forks fork i j scope went legs hs hj hg ih hplaced hm
    obtain ⟨o, ho, hi, hscopes⟩ := (has_place i).owner hs
    have hid := id_of_indexOf? hj
    have hoj : f.outline.place j = o :=
      (has_place j).eq_of_id unique ho (hid.trans (Step.owner_of_inner hi))
    obtain ⟨hlane, hm⟩ :=
      Front.Mirror.climb unique (has_place i) (has_place j) (hoj ▸ hscopes)
      (Fork.of?_eq_none hplaced.distinct hg) hm
    exact .cons (.climbs (hid.symm ▸ hlane)) (ih hplaced hm)
  case late =>
    intro forks fork i scope g _ hg hj _ _
    obtain ⟨_, _, pre, post, rfl, _⟩ := Fork.of?_eq_some hg
    exact .cons (.late (by simp) hj) .nil
  case join =>
    intro forks fork i j scope g went legs _ hj hg hjoined hr ih hplaced _
    obtain ⟨hreport, hplaced', hm⟩ := hplaced.report hg hjoined scope.id
    have hid : (f.outline.place j).id = g.branch :=
      (id_of_indexOf? hj).trans (Fork.of?_eq_some hg).2.1.symm
    rw [if_pos hr, Fork.continuation, ← hid] at hreport
    exact .cons hreport (ih hplaced' (hid ▸ hm))
  case wait =>
    intro forks fork i scope g _ hg hjoined hr hplaced _
    obtain ⟨hreport, _⟩ := hplaced.report hg hjoined scope.id
    rw [if_neg (Bool.eq_false_iff.mp hr)] at hreport
    exact .cons hreport .nil

/-- However a step is treated, its legs lead from the forks before it to those after it. -/
theorem chain_route {forks : List Fork} {fork : Option String} {newId : String}
    {i : Fin f.outline.places.length} (unique : f.ids.Nodup) (hplaced : Fork.Placed f policy forks)
    (hm : f.Mirrors policy forks (f.outline.place i).id fork) (route : Route)
    (hid : (f.outline.carryOut forks fork newId i route).opened = true →
      newId ∉ forks.map Fork.id) :
    Leg.Chain f policy forks (f.outline.routeLegs forks fork newId i route)
      (f.outline.carryOut forks fork newId i route).forks := by
  have honward := (chain_onward unique).1 forks fork i hplaced hm
  cases route with
  | past => exact honward
  | enter steps =>
    cases steps with
    | nil => exact honward
    | cons s rest => exact .nil
  | fanOut join paths =>
    have hfresh := hid rfl
    simp only [carryOut, routeLegs, fanOut_eq]
    have hopens : Leg.Acts f policy
        (.opens (Fork.opening newId (f.outline.place i).id fork join paths) _) forks _ :=
      .opens ⟨paths, rfl⟩
    have hplaced' : Fork.Placed f policy
        (forks ++ [Fork.opening newId (f.outline.place i).id fork join paths]) :=
      hplaced.opened hfresh hm
    cases hj : (Fork.opening newId (f.outline.place i).id fork join paths).joined with
    | false =>
      rw [hj] at hopens
      exact .cons hopens .nil
    | true =>
      rw [hj] at hopens
      refine .cons hopens ((chain_onward unique).1 _ fork i hplaced' (hm.of_frames ?_))
      simp
  | goto step => exact .nil
  | stop status => exact .nil
  | quit status => exact (chain_onward unique).2 forks fork i hplaced hm

/-- The legs behind a step lead from the forks before to the forks after. -/
theorem chain_after {run : Run} {newId stepId : String} {result : Record} {fork : Option String}
    (unique : f.ids.Nodup) (hplaced : Fork.Placed f policy run.forks)
    (hm : f.Mirrors policy run.forks stepId fork)
    (hid : (f.outline.after policy run newId stepId result fork).opened = true →
      newId ∉ run.forks.map Fork.id) :
    Leg.Chain f policy run.forks (f.outline.afterLegs policy run newId stepId result fork)
      (f.outline.after policy run newId stepId result fork).forks := by
  unfold after afterLegs at *
  cases hi : f.outline.indexOf? stepId with
  | none => exact .nil
  | some i =>
    rw [hi] at hid
    simp only [afterPlace_eq] at hid ⊢
    rw [← id_of_indexOf? hi] at hm
    exact chain_route unique hplaced hm _ hid

end Outline

namespace Leg

variable {f : Flow} {policy : EnginePolicy} {forks forks' forks'' : List Fork}
  {legs legs' : List Leg}

theorem Chain.append (h : Chain f policy forks legs forks')
    (h' : Chain f policy forks' legs' forks'') : Chain f policy forks (legs ++ legs') forks'' := by
  induction h with
  | nil => exact h'
  | cons hc _ ih => exact .cons hc (ih h')

/-- A fork that has joined stays as it is, where it is. -/
theorem Acts.lasts {leg : Leg} (h : leg.Acts f policy forks forks') {k : Nat} {g : Fork}
    (hg : forks[k]? = some g) (hj : g.joined = true) : forks'[k]? = some g := by
  cases h with
  | opens _ => rw [List.getElem?_append_left (List.getElem?_eq_some_iff.mp hg).1, hg]
  | @reports pre post x path hx =>
    have hk : k ≠ pre.length := by
      rintro rfl
      simp only [List.getElem?_append_right (Nat.le_refl _), Nat.sub_self,
        List.getElem?_cons_zero, Option.some.injEq] at hg
      rw [hg, hj] at hx
      cases hx
    rw [List.getElem?_append] at hg ⊢
    split
    · rename_i hlt
      rwa [if_pos hlt] at hg
    · rename_i hge
      rw [if_neg hge] at hg
      obtain ⟨n, hn⟩ : ∃ n, k - pre.length = n + 1 := ⟨k - pre.length - 1, by omega⟩
      rw [hn] at hg ⊢
      exact hg
  | late _ _ => exact hg
  | climbs _ => exact hg

theorem Chain.lasts (h : Chain f policy forks legs forks') {k : Nat} {g : Fork}
    (hg : forks[k]? = some g) (hj : g.joined = true) : forks'[k]? = some g := by
  induction h with
  | nil => exact hg
  | cons hc _ ih => exact ih (hc.lasts hg hj)

/-- A leg makes of a fork what it should, and goes on for it only if the fork comes to be joined by
the leg, which is when the finished paths come to suffice. Other legs leave only what is no fork. -/
def Right (f : Flow) (policy : EnginePolicy) : Leg → Prop
  | .opens g onward =>
    g.Opens ∧ g.joined = g.isEnough ∧ onward = if g.joined then some g.continuation else none
  | .reports path before after onward =>
    (after = if before.joined then before else before.report path) ∧
      before.joined = before.isEnough ∧ after.joined = after.isEnough ∧
      onward = if !before.joined && after.joined then some after.continuation else none
  | .climbs s => f.forksAt policy s.step = false

/-- All forks have joined as soon as enough of their paths have finished. -/
def Prompt (forks : List Fork) : Prop :=
  ∀ g ∈ forks, g.joined = g.isEnough

theorem Acts.prompt {leg : Leg} (h : leg.Acts f policy forks forks') (hp : Prompt forks) :
    Prompt forks' := by
  cases h with
  | opens hg => exact List.forall_mem_append.mpr ⟨hp, List.forall_mem_singleton.mpr hg.joined⟩
  | @reports pre post g path hj =>
    obtain ⟨hpre, hpost⟩ := List.forall_mem_append.mp hp
    refine List.forall_mem_append.mpr
      ⟨hpre, List.forall_mem_cons.mpr ⟨g.joined_report path, ?_⟩⟩
    exact (List.forall_mem_cons.mp hpost).2
  | late _ _ => exact hp
  | climbs _ => exact hp

theorem Acts.right {leg : Leg} (h : leg.Acts f policy forks forks') (hp : Prompt forks) :
    leg.Right f policy := by
  cases h with
  | opens hg => exact ⟨hg, hg.joined, rfl⟩
  | @reports pre post g path hj =>
    exact ⟨by simp [hj], hp g (by simp), g.joined_report path, by simp [hj]⟩
  | late hg hj => exact ⟨by simp [hj], hp _ hg, hp _ hg, by simp [hj]⟩
  | climbs hs => exact hs

theorem Chain.right (h : Chain f policy forks legs forks') (hp : Prompt forks) :
    (∀ leg ∈ legs, leg.Right f policy) ∧ Prompt forks' := by
  induction h with
  | nil => exact ⟨by simp, hp⟩
  | cons hc _ ih =>
    obtain ⟨hright, hp'⟩ := ih (hc.prompt hp)
    exact ⟨List.forall_mem_cons.mpr ⟨hc.right hp, hright⟩, hp'⟩

/-- Where a fork with that id goes on, if it has joined. -/
def joined? (id : String) (g : Fork) : Option Strand :=
  if g.id = id ∧ g.joined then some g.continuation else none

/-- A leg goes on for a fork if it comes to be joined by the leg. -/
theorem Acts.perm_resumes {leg : Leg} (h : leg.Acts f policy forks forks') (id : String) :
    (forks'.filterMap (joined? id)).Perm
      (forks.filterMap (joined? id) ++ [leg].filterMap (resumes? id)) := by
  cases h with
  | @opens forks g hg =>
    have hone : [Leg.opens g (if g.joined then some g.continuation else none)].filterMap
        (resumes? id) = [g].filterMap (joined? id) := by
      by_cases hid : g.id = id <;>
        simp [List.filterMap_cons, resumes?, joined?, fork?, onward?, hid]
    rw [List.filterMap_append, hone]
  | @reports pre post g path hj =>
    have hnone : (g :: post).filterMap (joined? id) = post.filterMap (joined? id) := by
      simp [joined?, hj]
    have hone : [Leg.reports path g (g.report path)
        (if (g.report path).joined then some g.continuation else none)].filterMap (resumes? id) =
          [g.report path].filterMap (joined? id) := by
      by_cases hid : g.id = id <;>
        simp [List.filterMap_cons, resumes?, joined?, fork?, onward?, hid]
    rw [List.filterMap_append, List.filterMap_append, hnone, hone, List.append_assoc,
      ← List.singleton_append, List.filterMap_append]
    exact List.perm_append_comm.append_left _
  | late _ hj => simp [resumes?, onward?]
  | climbs hs => simp [resumes?, fork?]

/-- Legs go on for a fork as often as it comes to be joined. -/
theorem Chain.perm_resumes (h : Chain f policy forks legs forks') (id : String) :
    (forks'.filterMap (joined? id)).Perm
      (forks.filterMap (joined? id) ++ legs.filterMap (resumes? id)) := by
  induction h with
  | nil => simp
  | @cons forks forks' forks'' leg legs hc _ ih =>
    have hcons : (leg :: legs).filterMap (resumes? id) =
        [leg].filterMap (resumes? id) ++ legs.filterMap (resumes? id) := by
      rw [← List.filterMap_append, List.singleton_append]
    rw [hcons, ← List.append_assoc]
    exact ih.trans ((hc.perm_resumes id).append_right _)

/-- Among forks with ids of their own, a fork goes on at most once. -/
theorem filterMap_joined {g : Fork} (hd : (forks.map Fork.id).Nodup) (hg : g ∈ forks) :
    forks.filterMap (joined? g.id) = if g.joined then [g.continuation] else [] := by
  obtain ⟨pre, post, rfl⟩ := List.append_of_mem hg
  have hothers : ∀ others : List Fork, (∀ k ∈ others, k.id ≠ g.id) →
      others.filterMap (joined? g.id) = [] := by
    intro others h
    rw [List.filterMap_eq_nil_iff]
    intro k hk
    simp [joined?, h k hk]
  rw [(List.perm_middle.map Fork.id).nodup_iff, List.map_cons, List.nodup_cons] at hd
  have hne : ∀ k ∈ pre ++ post, k.id ≠ g.id := fun k hk he =>
    hd.1 (he ▸ List.mem_map_of_mem hk)
  rw [List.filterMap_append, hothers pre fun k hk => hne k (List.mem_append_left _ hk),
    List.filterMap_cons, hothers post fun k hk => hne k (List.mem_append_right _ hk)]
  cases hj : g.joined <;> simp [joined?, hj]

/-- Of the legs from the start, exactly one goes on for a fork that has joined, and none for one
that has not. -/
theorem Chain.resumes (h : Chain f policy [] legs forks) (hd : (forks.map Fork.id).Nodup)
    {g : Fork} (hg : g ∈ forks) :
    legs.filterMap (resumes? g.id) = if g.joined then [g.continuation] else [] := by
  have hperm := h.perm_resumes g.id
  rw [List.filterMap_nil, List.nil_append, filterMap_joined hd hg] at hperm
  cases hj : g.joined with
  | true =>
    rw [hj] at hperm
    exact List.singleton_perm.mp hperm |>.symm
  | false =>
    rw [hj] at hperm
    exact List.nil_perm.mp hperm

/-- No leg goes on for a fork that is not among those of the run. -/
theorem Chain.resumes_nil (h : Chain f policy [] legs forks) {id : String}
    (hid : id ∉ forks.map Fork.id) : legs.filterMap (resumes? id) = [] := by
  have hnone : forks.filterMap (joined? id) = [] := by
    rw [List.filterMap_eq_nil_iff]
    intro g hg
    have hne : g.id ≠ id := fun he => hid (he ▸ List.mem_map_of_mem hg)
    simp [joined?, hne]
  have hperm := h.perm_resumes id
  rw [hnone, List.filterMap_nil, List.nil_append] at hperm
  exact List.nil_perm.mp hperm

end Leg

end Workflow
