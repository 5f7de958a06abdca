import Workflow.Proofs.Front.Mirror

namespace Workflow

namespace Fork

@[simp] theorem id_report (g : Fork) (path : String) : (g.report path).id = g.id := by
  unfold report
  split <;> rfl

/-- A fork that is found stands behind others with other ids. -/
theorem of?_eq_some {forks : List Fork} {fork : Option String} {branch : String} {g : Fork}
    (h : of? forks fork branch = some g) :
    fork = some g.id ∧ g.branch = branch ∧
      ∃ pre post, forks = pre ++ g :: post ∧ ∀ k ∈ pre, k.id ≠ g.id := by
  unfold of? at h
  split at h
  · rename_i k hk
    split at h
    · rename_i hb
      cases h
      obtain ⟨id, rfl, hfind⟩ := Option.bind_eq_some_iff.mp hk
      obtain ⟨hid, pre, post, hforks, hpre⟩ := List.find?_eq_some_iff_append.mp hfind
      have hid' : g.id = id := by simpa using hid
      refine ⟨by rw [hid'], hb, pre, post, hforks, ?_⟩
      intro k hk
      have := hpre k hk
      simpa [hid'] using this
    · cases h
  · cases h

theorem of?_eq_none {forks : List Fork} {fork : Option String} {branch : String}
    (hd : (forks.map Fork.id).Nodup) (h : of? forks fork branch = none) :
    ∀ g ∈ forks, fork = some g.id → g.branch ≠ branch := by
  rintro g hg rfl hb
  have hfind : Run.findFork? forks g.id = some g := by
    cases hf : Run.findFork? forks g.id with
    | none =>
      have := List.find?_eq_none.mp hf g hg
      simp at this
    | some k =>
      have hid : k.id = g.id := by simpa using List.find?_some hf
      rw [List.inj_on_of_nodup_map hd (List.mem_of_find?_eq_some hf) hg hid]
  simp [of?, hfind, hb] at h

theorem store_middle {pre post : List Fork} {g g' : Fork} (hid : g'.id = g.id)
    (hpre : ∀ k ∈ pre, k.id ≠ g.id) : store g' (pre ++ g :: post) = pre ++ g' :: post := by
  unfold store
  induction pre with
  | nil => simp [Sequence.modifyFirst, hid]
  | cons k pre ih =>
    have hk := hpre k List.mem_cons_self
    rw [List.cons_append, Sequence.modifyFirst, if_neg (by simpa [hid] using hk),
      ih fun k hk => hpre k (List.mem_cons_of_mem _ hk), List.cons_append]

theorem map_id_store (g : Fork) (forks : List Fork) :
    (store g forks).map Fork.id = forks.map Fork.id := by
  unfold store
  induction forks with
  | nil => rfl
  | cons k rest ih =>
    rw [Sequence.modifyFirst]
    split
    · rename_i hk
      simp only [List.map_cons, List.cons.injEq, and_true]
      exact (beq_iff_eq.mp hk).symm
    · rw [List.map_cons, List.map_cons, ih]

end Fork

namespace Situation

theorem firstOpen_mem {s : Situation} {fallback : Option (Path Step)} {paths : List (Path Step)}
    {p : Path Step} (h : s.firstOpen fallback paths = some p) : p ∈ paths ∨
      fallback = some p := by
  induction paths generalizing fallback with
  | nil => exact .inr h
  | cons q rest ih =>
    unfold firstOpen at h
    split at h
    · rcases ih h with hp | hp
      · exact .inl (List.mem_cons_of_mem q hp)
      · rcases Option.or_eq_some_iff.mp hp with hp | ⟨_, hp⟩
        · exact .inr hp
        · exact .inl (Option.some.inj hp ▸ List.mem_cons_self)
    · split at h
      · exact .inl (Option.some.inj h ▸ List.mem_cons_self)
      · exact (ih h).imp_left (List.mem_cons_of_mem q)

theorem single_mem (s : Situation) {paths : List (Path Step)} {p : Path Step}
    (h : s.single paths = some p) : p ∈ paths := by
  unfold single at h
  dsimp only at h
  split at h
  · rename_i q hq
    rw [← Option.some.inj h]
    split at hq
    · cases hq
    · exact List.mem_of_find?_eq_some hq
  · rcases firstOpen_mem h with hp | hp
    · exact hp
    · cases hp

theorem several_sublist (s : Situation) (paths : List (Path Step)) :
    (s.several paths).Sublist paths := by
  rw [several_eq]
  dsimp only
  split
  · cases h : paths.find? fun p => p.guard.isOtherwise with
    | none => exact List.nil_sublist paths
    | some p => exact List.singleton_sublist.mpr (List.mem_of_find?_eq_some h)
  · exact List.filter_sublist

theorem outcome_mem (s : Situation) {outcomes : List (Outcome Step)} {o : Outcome Step}
    (h : s.outcome outcomes = some o) : o ∈ outcomes := by
  unfold outcome at h
  extract_lets first chosen at h
  split at h
  · cases h
  · split at h
    · rename_i q hq
      exact Option.some.inj h ▸ List.mem_of_find?_eq_some hq
    · exact List.mem_of_find?_eq_some h

end Situation

namespace Outline

variable {f : Flow}

theorem has_place (i : Fin f.outline.places.length) : f.Has (f.outline.place i) :=
  Flow.mem_places_iff.mp (List.getElem_mem _)

theorem id_of_indexOf? {o : Outline} {id : String} {i : Fin o.places.length}
    (h : o.indexOf? id = some i) : (o.place i).id = id :=
  beq_iff_eq.mp (List.findFinIdx?_eq_some_iff.mp h).1

/-- Whatever stands in the flow is found in its outline. -/
theorem exists_indexOf? {p : Place} (unique : f.ids.Nodup) (hp : f.Has p) :
    ∃ i, f.outline.indexOf? p.id = some i ∧ f.outline.place i = p := by
  cases h : f.outline.indexOf? p.id with
  | none =>
    have := List.findFinIdx?_eq_none_iff.mp h p (Flow.mem_places_iff.mpr hp)
    simp at this
  | some i => exact ⟨i, rfl, (has_place i).eq_of_id unique hp (id_of_indexOf? h)⟩

section Equations

variable {o : Outline} {forks : List Fork} {fork : Option String} {i j : Fin o.places.length}
  {scope : Scope} {g : Fork}

theorem onward_next {s : Step} (h : (o.place i).next? = some s) :
    o.onward forks fork i = (.activate ⟨s.id, fork⟩, forks) := by
  rw [onward, h]

theorem onward_last (h : (o.place i).next? = none) :
    o.onward forks fork i = o.leave forks fork i := by
  rw [onward, h]

theorem leave_main (h : (o.place i).scope? = none) :
    o.leave forks fork i = (.exhausted, forks) := by
  rw [leave]
  split <;> simp_all

theorem leave_lost (hs : (o.place i).scope? = some scope) (hj : o.indexOf? scope.owner = none) :
    o.leave forks fork i = (.absorbed, forks) := by
  rw [leave]
  split
  · simp_all
  · split <;> simp_all

/-- Leaving a scope reports to the fork around it, if the scope is one of its paths. -/
theorem leave_of (hs : (o.place i).scope? = some scope) (hj : o.indexOf? scope.owner = some j) :
    o.leave forks fork i =
      match Fork.of? forks fork scope.owner with
      | none => o.onward forks fork j
      | some g =>
        if g.joined then (.absorbed, forks)
        else if (g.report scope.id).joined then
          o.onward ((g.report scope.id).store forks) g.parent j
        else (.absorbed, (g.report scope.id).store forks) := by
  rw [leave]
  split
  · simp_all
  · rename_i scope' hs'
    obtain rfl : scope = scope' := by simpa [hs] using hs'
    split
    · simp_all
    · rename_i k hk
      obtain rfl : j = k := by simpa [hj] using hk
      rfl

end Equations

/-- Going on opens no fork and closes none. -/
theorem map_id_onward (o : Outline) :
    (∀ (forks : List Fork) (fork : Option String) (i : Fin o.places.length),
      (o.onward forks fork i).2.map Fork.id = forks.map Fork.id) ∧
    ∀ (forks : List Fork) (fork : Option String) (i : Fin o.places.length),
      (o.leave forks fork i).2.map Fork.id = forks.map Fork.id := by
  apply onward.mutual_induct o
    (fun forks fork i => (o.onward forks fork i).2.map Fork.id = forks.map Fork.id)
    (fun forks fork i => (o.leave forks fork i).2.map Fork.id = forks.map Fork.id)
  · intro forks fork i next hn
    rw [onward_next hn]
  · intro forks fork i hn ih
    rwa [onward_last hn]
  · intro forks fork i hs
    rw [leave_main hs]
  · intro forks fork i scope hs hj
    rw [leave_lost hs hj]
  · intro forks fork i scope hs j hj hg ih
    rw [leave_of hs hj, hg]
    exact ih
  · intro forks fork i scope hs j hj g hg hjoined
    rw [leave_of hs hj, hg]
    simp [hjoined]
  · intro forks fork i scope hs j hj g hg hjoined _ _ hr ih
    rw [leave_of hs hj, hg]
    dsimp only
    rw [if_neg hjoined, if_pos hr, ih, Fork.map_id_store]
  · intro forks fork i scope hs j hj g hg hjoined _ hr
    rw [leave_of hs hj, hg]
    dsimp only
    rw [if_neg hjoined, if_neg hr, Fork.map_id_store]

end Outline

theorem Onward.endRun_toPlan (next : Onward) : next.toPlan.endRun = false := by
  cases next <;> rfl

theorem Plan.endRun_add (plan : Plan) (next : Onward) : (plan.add next).endRun = plan.endRun := by
  cases next <;> rfl

theorem Outline.fanOut_eq (o : Outline) (forks : List Fork) (fork : Option String) (id : String)
    (i : Fin o.places.length) (join : Quorum) (taken : List (Path Step)) :
    o.fanOut forks fork id i join taken =
      if (Fork.opening id (o.place i).id fork join taken).joined then
        let next := o.onward (forks ++ [Fork.opening id (o.place i).id fork join taken]) fork i
        (Plan.add { activations := Path.heads id taken } next.1, next.2)
      else
        ({ activations := Path.heads id taken },
          forks ++ [Fork.opening id (o.place i).id fork join taken]) := rfl

/-- All that can follow a step. -/
theorem Outline.afterPlace_cases {P : Planned → Prop} (o : Outline) (policy : EnginePolicy)
    (forks : List Fork) (s : Situation) (fork : Option String) (newId : String)
    (i : Fin o.places.length)
    (past : (∀ join paths, (o.place i).step.body = .branch .parallel join paths →
      paths = []) →
      P (.ofOnward (o.onward forks fork i)))
    (enter : ∀ scope steps, (scope, steps) ∈ (o.place i).step.inner →
      (o.place i).step.forks policy = false → P (.ofOnward (o.enter forks fork i steps)))
    (fanOut : ∀ kind join paths taken, (o.place i).step.body = .branch kind join paths →
      policy.forks kind = true → taken.Sublist paths → (kind = .parallel → taken = paths) →
      taken ≠ [] → P ⟨(o.fanOut forks fork newId i join taken).1,
        (o.fanOut forks fork newId i join taken).2, true⟩)
    (goto : ∀ target q, (o.place i).step.body = .goto target → o.find? target = some q →
      q.onMainPath = true → P ⟨{ activations := [⟨q.id, none⟩] }, forks, false⟩)
    (stop : ∀ status, (o.place i).step.body = .terminate status →
      policy.terminate = .endRun ∨ (o.place i).onMainPath = true →
      P ⟨{ terminate := some status, endRun := true }, forks, false⟩)
    (quit : ∀ status, (o.place i).step.body = .terminate status →
      P ⟨{ (o.leave forks fork i).1.toPlan with terminate := some status },
        (o.leave forks fork i).2, false⟩) :
    P (o.afterPlace policy forks s fork newId i) := by
  unfold afterPlace
  split
  · rename_i hb
    exact past (by simp [hb])
  · rename_i hb
    exact past (by simp [hb])
  · rename_i hb
    exact past (by simp [hb])
  · rename_i kind join paths hb
    unfold afterBranch
    cases kind with
    | singleChoice =>
      dsimp only
      split
      · rename_i p hp
        exact enter _ _ (Path.inner_of_branch hb (s.single_mem hp))
          (by simp [Step.forks, hb, EnginePolicy.forks])
      · exact past (by simp [hb])
    | multiChoice =>
      dsimp only
      split
      · exact past (by simp [hb])
      · rename_i p rest hp
        have hsub := s.several_sublist paths
        rw [hp] at hsub
        split
        · rename_i hpolicy
          exact enter _ _ (Path.inner_of_branch hb (hsub.subset List.mem_cons_self))
            (by simp [Step.forks, hb, EnginePolicy.forks, hpolicy])
        · rename_i hpolicy
          exact fanOut _ _ _ _ hb (by simp [EnginePolicy.forks, hpolicy]) hsub (by simp) (by simp)
    | parallel =>
      dsimp only
      split
      · exact past (by simp [hb])
      · exact fanOut _ _ _ _ hb rfl (List.Sublist.refl _) (fun _ => rfl) (by simp)
  · rename_i outcomes hb
    split
    · rename_i outcome ho
      have hin : (⟨.outcome, (o.place i).step.id, outcome.id⟩, outcome.steps) ∈
          (o.place i).step.inner := by
        rw [Step.inner, hb]
        exact List.mem_map.mpr ⟨outcome, s.outcome_mem ho, rfl⟩
      exact enter _ _ hin (by simp [Step.forks, hb])
    · exact past (by simp [hb])
  · rename_i target hb
    split
    · rename_i q hq
      split
      · rename_i hmain
        exact goto _ _ hb hq hmain
      · exact past (by simp [hb])
    · exact past (by simp [hb])
  · rename_i status hb
    split
    · rename_i hend
      exact stop _ hb hend
    · exact quit _ hb

/-- A step opens one fork or none, and drops none. -/
theorem Outline.map_id_after (o : Outline) (policy : EnginePolicy) (run : Run)
    (id stepId : String) (result : Record) (fork : Option String) :
    let planned := o.after policy run id stepId result fork
    planned.forks.map Fork.id =
      run.forks.map Fork.id ++ if planned.opened then [id] else [] := by
  have honward := o.map_id_onward.1
  have hleave := o.map_id_onward.2
  unfold after
  split
  · simp
  · rename_i i _
    refine afterPlace_cases (P := fun p => p.forks.map Fork.id =
      run.forks.map Fork.id ++ if p.opened then [id] else []) o policy run.forks
        ⟨result, run⟩ fork
      id i ?_ ?_ ?_ ?_ ?_ ?_
    · simp [Planned.ofOnward, honward]
    · intro scope steps _ _
      cases steps <;> simp [Planned.ofOnward, Outline.enter, honward]
    · intro kind join paths taken _ _ _ _ _
      rw [fanOut_eq]
      split <;> simp [honward, Fork.opening]
    · simp
    · simp
    · simp [hleave]

namespace Front

variable {f : Flow} {policy : EnginePolicy} {m : Front}

def carry (m : Front) (p : Plan) : Front :=
  { m.visit p.activations with ended := m.ended + (p.exhausted || p.ending?.isSome).toNat }

@[simp] theorem carry_activate (m : Front) (a : Activation) :
    m.carry (Onward.activate a).toPlan = m.visit [a] := rfl

@[simp] theorem carry_exhausted (m : Front) : m.carry Onward.exhausted.toPlan = m.finish := by
  simp [carry, Onward.toPlan, Plan.ending?, finish, visit]

@[simp] theorem carry_absorbed (m : Front) : m.carry Onward.absorbed.toPlan = m := by
  simp [carry, Onward.toPlan, Plan.ending?, visit]

theorem carry_visits (m : Front) (as : List Activation) :
    m.carry { activations := as } = m.visit as := by
  simp [carry, Plan.ending?, visit]

theorem carry_add (m : Front) (as : List Activation) (next : Onward) :
    m.carry (Plan.add { activations := as } next) = (m.visit as).carry next.toPlan := by
  cases next with
  | activate a =>
    have happ : m.visit (as ++ [a]) = (m.visit as).visit [a] := by
      simp only [visit, List.map_append, ← Multiset.coe_add]
      congr 1
      · rw [Multiset.add_comm (Multiset.ofList (as.map Activation.strand)), Multiset.add_assoc]
      · rw [Multiset.add_comm (Multiset.ofList as), Multiset.add_assoc]
    rw [Plan.add, carry_activate, ← happ]
    exact m.carry_visits (as ++ [a])
  | exhausted => simp [Plan.add, carry, Plan.ending?, Onward.toPlan, visit]
  | absorbed => simp [Plan.add, carry, Plan.ending?, Onward.toPlan, visit]

/-- A strand can go on as a plan says. -/
def Sends (f : Flow) (policy : EnginePolicy) (m : Front) (s : Strand) (p : Planned) : Prop :=
  Turns f policy (m.put s) ((m.withForks p.forks).carry p.plan)

/-- Where the planner goes on behind a step is where a strand can go on from there. -/
theorem sends_onward (unique : f.ids.Nodup) :
    (∀ (forks : List Fork) (fork : Option String) (i : Fin f.outline.places.length) (m : Front),
      m.forks = forks → (m.put ⟨(f.outline.place i).id, fork, .behind⟩).Mirror f policy →
      m.Sends f policy ⟨(f.outline.place i).id, fork, .behind⟩
        (.ofOnward (f.outline.onward forks fork i))) ∧
    ∀ (forks : List Fork) (fork : Option String) (i : Fin f.outline.places.length) (m : Front),
      m.forks = forks → (m.put ⟨(f.outline.place i).id, fork, .leaving⟩).Mirror f policy →
      m.Sends f policy ⟨(f.outline.place i).id, fork, .leaving⟩
        (.ofOnward (f.outline.leave forks fork i)) := by
  apply Outline.onward.mutual_induct f.outline
    (fun forks fork i => ∀ m : Front,
      m.forks = forks → (m.put ⟨(f.outline.place i).id, fork, .behind⟩).Mirror f policy →
      m.Sends f policy ⟨(f.outline.place i).id, fork, .behind⟩
        (.ofOnward (f.outline.onward forks fork i)))
    (fun forks fork i => ∀ m : Front,
      m.forks = forks → (m.put ⟨(f.outline.place i).id, fork, .leaving⟩).Mirror f policy →
      m.Sends f policy ⟨(f.outline.place i).id, fork, .leaving⟩
        (.ofOnward (f.outline.leave forks fork i)))
  · rintro forks fork i next hn m rfl hm
    rw [Outline.onward_next hn]
    exact .single (.next (Outline.has_place i) hn)
  · rintro forks fork i hn ih m rfl hm
    rw [Outline.onward_last hn]
    have hstop : Turn f policy (m.put ⟨(f.outline.place i).id, fork, .behind⟩) _ :=
      .stop (Outline.has_place i) hn
    exact .head hstop (ih m rfl (hstop.mirror unique hm))
  · rintro forks fork i hs m rfl hm
    rw [Outline.leave_main hs]
    have hscopes : (f.outline.place i).scopes = [] := List.getLast?_eq_none_iff.mp hs
    unfold Sends Planned.ofOnward
    rw [carry_exhausted]
    exact .single (.exhaust (Outline.has_place i) hscopes)
  · rintro forks fork i scope hs hj m rfl hm
    -- The owner of a scope is always found, so no strand gets lost here.
    obtain ⟨o, ho, hi, _⟩ := (Outline.has_place i).owner hs
    obtain ⟨j, hj', _⟩ := Outline.exists_indexOf? unique ho
    rw [Step.owner_of_inner hi] at hj
    exact absurd (hj'.symm.trans hj) (by simp)
  · rintro forks fork i scope hs j hj hg ih m rfl hm
    rw [Outline.leave_of hs hj, hg]
    obtain ⟨o, ho, hi, hscopes⟩ := (Outline.has_place i).owner hs
    have hid := Outline.id_of_indexOf? hj
    have hoj : f.outline.place j = o :=
      (Outline.has_place j).eq_of_id unique ho (hid.trans (Step.owner_of_inner hi))
    have hclimb : Turn f policy _ _ := .climb (m := m) (Outline.has_place i) (Outline.has_place j)
      (hoj ▸ hscopes) hid (Fork.of?_eq_none hm.distinct hg)
    exact .head hclimb (ih m rfl (hclimb.mirror unique hm))
  · rintro forks fork i scope hs j hj g hg hjoined m rfl hm
    rw [Outline.leave_of hs hj, hg]
    obtain ⟨rfl, hb, pre, post, hforks, _⟩ := Fork.of?_eq_some hg
    simp only [hjoined, if_true]
    unfold Sends Planned.ofOnward
    rw [carry_absorbed]
    exact .single (.absorb (Outline.has_place i) hs (by simp [hforks]) hb hjoined)
  · rintro forks fork i scope hs j hj g hg hjoined _ _ hr ih m rfl hm
    rw [Outline.leave_of hs hj, hg]
    obtain ⟨rfl, hb, pre, post, hforks, hpre⟩ := Fork.of?_eq_some hg
    dsimp only
    rw [if_neg hjoined, if_pos hr]
    have hstore : (g.report scope.id).store m.forks = pre ++ g.report scope.id :: post := by
      rw [hforks, Fork.store_middle (Fork.id_report g _) hpre]
    have hid : (f.outline.place j).id = g.branch := (Outline.id_of_indexOf? hj).trans hb.symm
    have hjoin : Turn f policy _ _ :=
      .join (m := m) (Outline.has_place i) hs hforks hb (by simpa using hjoined) hr
    refine .head hjoin ?_
    rw [← hid, ← hstore]
    apply ih
    · exact rfl
    · rw [hid, hstore]
      exact hjoin.mirror unique hm
  · rintro forks fork i scope hs j hj g hg hjoined _ hr m rfl hm
    rw [Outline.leave_of hs hj, hg]
    obtain ⟨rfl, hb, pre, post, hforks, hpre⟩ := Fork.of?_eq_some hg
    dsimp only
    rw [if_neg hjoined, if_neg hr]
    unfold Sends Planned.ofOnward
    rw [carry_absorbed, hforks, Fork.store_middle (Fork.id_report g _) hpre]
    exact .single (.report (Outline.has_place i) hs hforks hb (by simpa using hjoined)
      (by simpa using hr))

/-- A strand goes on behind its step. -/
theorem sends_past {fork : Option String} {i : Fin f.outline.places.length}
    (unique : f.ids.Nodup)
    (hm : (m.put ⟨(f.outline.place i).id, fork, .here⟩).Mirror f policy) :
    m.Sends f policy ⟨(f.outline.place i).id, fork, .here⟩
      (.ofOnward (f.outline.onward m.forks fork i)) := by
  have hpass : Turn f policy (m.put ⟨(f.outline.place i).id, fork, .here⟩) _ :=
    .pass (Outline.has_place i)
  exact .head hpass ((sends_onward unique).1 m.forks fork i m rfl (hpass.mirror unique hm))

theorem sends_enter {fork : Option String} {i : Fin f.outline.places.length} {scope : Scope}
    {steps : List Step} (unique : f.ids.Nodup)
    (hi : (scope, steps) ∈ (f.outline.place i).step.inner)
    (hk : (f.outline.place i).step.forks policy = false)
    (hm : (m.put ⟨(f.outline.place i).id, fork, .here⟩).Mirror f policy) :
    m.Sends f policy ⟨(f.outline.place i).id, fork, .here⟩
      (.ofOnward (f.outline.enter m.forks fork i steps)) := by
  cases steps with
  | nil => exact sends_past unique hm
  | cons s rest => exact .single (.enter (Outline.has_place i) hi hk)

/-- The strands that a branch sends out are those of the fork that it opens. -/
theorem sends_fanOut {fork : Option String} {i : Fin f.outline.places.length} {kind : BranchKind}
    {join : Quorum} {paths taken : List (Path Step)} {id : String} (unique : f.ids.Nodup)
    (hb : (f.outline.place i).step.body = .branch kind join paths) (hk : policy.forks kind = true)
    (ht : taken.Sublist paths) (hne : taken ≠ []) (hid : id ∉ m.forks.map Fork.id)
    (hm : (m.put ⟨(f.outline.place i).id, fork, .here⟩).Mirror f policy) :
    m.Sends f policy ⟨(f.outline.place i).id, fork, .here⟩
      ⟨(f.outline.fanOut m.forks fork id i join taken).1,
        (f.outline.fanOut m.forks fork id i join taken).2, true⟩ := by
  have hp := Outline.has_place i
  cases hj : (Fork.opening id (f.outline.place i).id fork join taken).joined with
  | false =>
    rw [Outline.fanOut_eq, if_neg (Bool.eq_false_iff.mp hj)]
    unfold Sends
    rw [carry_visits]
    exact .single (.split hp hb hk ht hne hid hj)
  | true =>
    rw [Outline.fanOut_eq, if_pos hj]
    have hsplit : Turn f policy (m.put ⟨(f.outline.place i).id, fork, .here⟩) _ :=
      .splitOn hp hb hk ht hne hid hj
    have hnext := (sends_onward unique).1 _ fork i _ rfl (hsplit.mirror unique hm)
    unfold Sends at hnext ⊢
    dsimp only
    rw [carry_add]
    exact .head hsplit hnext

/-- What the planner says of a step that is over, a strand at the step can come to. -/
theorem sends_after {p : Place} {fork : Option String} {run : Run} {id : String} {result : Record}
    (unique : f.ids.Nodup) (hp : f.Has p) (hf : run.forks = m.forks)
    (hid : (f.outline.after policy run id p.id result fork).opened = true →
      id ∉ m.forks.map Fork.id)
    (hm : (m.put ⟨p.id, fork, .here⟩).Mirror f policy) :
    m.Sends f policy ⟨p.id, fork, .here⟩ (f.outline.after policy run id p.id result fork) := by
  obtain ⟨i, hi, rfl⟩ := Outline.exists_indexOf? unique hp
  revert hid
  unfold Outline.after
  rw [hi]
  dsimp only
  rw [hf]
  refine Outline.afterPlace_cases (P := fun next =>
    (next.opened = true → id ∉ m.forks.map Fork.id) → m.Sends f policy _ next)
    f.outline policy m.forks ⟨result, run⟩ fork id i
    (fun _ _ => sends_past unique hm) ?_ ?_ ?_ ?_ ?_
  · exact fun scope steps hin hk _ => sends_enter unique hin hk hm
  · exact fun kind join paths taken hb hk ht _ hne hid =>
      sends_fanOut unique hb hk ht hne (hid rfl) hm
  · intro target q hb hq hmain _
    have hq := (Flow.find?_eq_some_iff unique).mp hq
    unfold Sends
    rw [carry_visits]
    exact .single (.goto hp hb hq.1 (List.isEmpty_iff.mp hmain))
  · intro status hb hend _
    unfold Sends
    have hcarry : m.carry { terminate := some status, endRun := true } = m.finish := by
      simp [carry, Plan.ending?, visit, finish]
    exact hcarry ▸ .single (.terminate hp hb (hend.imp_right List.isEmpty_iff.mp))
  · intro status hb _
    have hquit : Turn f policy (m.put ⟨(f.outline.place i).id, fork, .here⟩) _ := .quit hp hb
    have hleave := (sends_onward unique).2 m.forks fork i m rfl (hquit.mirror unique hm)
    have hcarry : ∀ (n : Front) (next : Onward),
        n.carry { next.toPlan with terminate := some status } = n.carry next.toPlan := by
      intro n next
      cases next <;> simp [carry, Onward.toPlan, Plan.ending?, visit]
    unfold Sends at hleave ⊢
    dsimp only at hleave ⊢
    rw [hcarry]
    exact .head hquit hleave

end Front

end Workflow
