import Workflow.Proofs.Front.Census
import Workflow.Proofs.Front.Ending

namespace Workflow

namespace Flow

variable {f : Flow} {policy : EnginePolicy} (unique : f.ids.Nodup)
include unique

theorem Has.next_injective {p q : Place} {s t : Step} (hp : f.Has p) (hq : f.Has q)
    (hs : p.next? = some s) (ht : q.next? = some t) (hid : s.id = t.id) : p = q := by
  have he := (hp.next hs).eq_of_id unique (hq.next ht) hid
  have hps := hp.step_at
  have hqs := hq.step_at
  obtain ⟨step, siblings, index, scopes⟩ := p
  obtain ⟨step', siblings', index', scopes'⟩ := q
  simp only [Place.mk.injEq, Nat.add_right_cancel_iff] at he
  obtain ⟨_, rfl, rfl, rfl⟩ := he
  rw [hps] at hqs
  cases hqs
  rfl

theorem Has.next_ne {p : Place} {s : Step} (hp : f.Has p) (hs : p.next? = some s) :
    p.id ≠ s.id := by
  intro he
  have := congrArg Place.index (hp.eq_of_id unique (hp.next hs) he)
  simp at this

theorem Has.next_ne_head {p o : Place} {s h : Step} {scope : Scope} {rest : List Step}
    (hp : f.Has p) (hs : p.next? = some s) (ho : f.Has o)
    (hi : (scope, h :: rest) ∈ o.step.inner) : h.id ≠ s.id := by
  intro he
  have hh : f.Has ⟨h, h :: rest, 0, o.scopes ++ [scope]⟩ := .inner ho hi rfl
  have := congrArg Place.index (hh.eq_of_id unique (hp.next hs) he)
  simp at this

theorem Has.first_ne_next {p : Place} {first s : Step} {rest : List Step} (hp : f.Has p)
    (hs : p.next? = some s) (hf : f.steps = first :: rest) : first.id ≠ s.id := by
  intro he
  have hmain : f.Has ⟨first, f.steps, 0, []⟩ := .main (by rw [hf]; rfl)
  have := congrArg Place.index (hmain.eq_of_id unique (hp.next hs) he)
  simp at this

theorem Has.first_ne_head {o : Place} {first h : Step} {scope : Scope} {rest tail : List Step}
    (ho : f.Has o) (hi : (scope, h :: tail) ∈ o.step.inner) (hf : f.steps = first :: rest) :
    first.id ≠ h.id := by
  intro he
  have hmain : f.Has ⟨first, f.steps, 0, []⟩ := .main (by rw [hf]; rfl)
  have hh : f.Has ⟨h, h :: tail, 0, o.scopes ++ [scope]⟩ := .inner ho hi rfl
  have := congrArg Place.scopes (hmain.eq_of_id unique hh he)
  simp at this

theorem Has.head_injective {o o' : Place} {h h' : Step} {scope scope' : Scope}
    {rest rest' : List Step} (ho : f.Has o) (hi : (scope, h :: rest) ∈ o.step.inner)
    (ho' : f.Has o') (hi' : (scope', h' :: rest') ∈ o'.step.inner) (hid : h.id = h'.id) :
    o = o' := by
  have hh : f.Has ⟨h, h :: rest, 0, o.scopes ++ [scope]⟩ := .inner ho hi rfl
  have hh' : f.Has ⟨h', h' :: rest', 0, o'.scopes ++ [scope']⟩ := .inner ho' hi' rfl
  have hs := congrArg Place.scopes (hh.eq_of_id unique hh' hid)
  obtain ⟨_, hscope⟩ := List.append_inj' hs rfl
  simp only [List.cons.injEq, and_true] at hscope
  apply ho.eq_of_id unique ho'
  rw [Place.id, Place.id, ← Step.owner_of_inner hi, ← Step.owner_of_inner hi', hscope]

theorem underWay_next {p : Place} {s : Step} (hp : f.Has p) (hs : p.next? = some s) :
    f.underWay policy s.id = s.id :: f.awaiting policy p.scopes :=
  underWay_eq unique (hp.next hs)

theorem underWay_inner {p o : Place} {scope : Scope} (hp : f.Has p) (ho : f.Has o)
    (hs : p.scopes = o.scopes ++ [scope]) (hid : o.id = scope.owner)
    (hk : f.forksAt policy scope.owner = false) :
    f.underWay policy p.id = p.id :: f.underWay policy o.id := by
  rw [underWay_eq unique hp, underWay_eq unique ho, hs, awaiting_append, hk, hid]
  rfl

theorem Has.not_underWay_next {p : Place} {s : Step} (hp : f.Has p) (hs : p.next? = some s) :
    p.id ∉ f.underWay policy s.id := by
  rw [underWay_next unique hp hs, List.mem_cons]
  rintro (he | hm)
  · exact hp.next_ne unique hs he
  · obtain ⟨scope, hscope, hid⟩ := owner_of_mem_awaiting hm
    exact hp.not_own unique hscope hid

theorem underWay_head {o : Place} {kind : BranchKind} {join : Quorum}
    {paths taken : List (Path Step)} {fork : String} (ho : f.Has o)
    (hb : o.step.body = .branch kind join paths) (hk : policy.forks kind = true)
    (ht : taken.Sublist paths) :
    ∀ id ∈ (Path.heads fork taken).map Activation.step, f.underWay policy id = [id] := by
  intro id hid
  obtain ⟨a, ha, rfl⟩ := List.mem_map.mp hid
  obtain ⟨p, hp, s, rest, hs, rfl⟩ := Path.mem_heads ha
  have hin := Path.inner_of_branch hb (ht.subset hp)
  have hu : f.underWay policy s.id = s.id :: f.awaiting policy (o.scopes ++ [_]) :=
    underWay_eq unique (.inner (k := 0) ho hin (by rw [hs]; rfl))
  rw [awaiting_append, if_pos (forksAt_branch unique ho hb hk)] at hu
  exact hu

end Flow

namespace Census

/-- How many strands and waiting forks keep a step under way. -/
def under (f : Flow) (policy : EnginePolicy) (stands : Multiset String) (id : String) : Nat :=
  stands.countP fun x => id ∈ f.underWay policy x

/-- No step is activated more often than control came to it. -/
structure Once (f : Flow) (policy : EnginePolicy) (c : Census) : Prop where
  next : ∀ p s, f.Has p → p.next? = some s →
    c.visited.count s.id + under f policy c.stands p.id ≤ c.visited.count p.id
  head : ∀ o scope h rest, f.Has o → (scope, h :: rest) ∈ o.step.inner →
    c.visited.count h.id + c.here.count o.id ≤ c.visited.count o.id
  first : ∀ s rest, f.steps = s :: rest → c.visited.count s.id ≤ 1

variable {f : Flow} {policy : EnginePolicy} {c d : Census}

theorem under_cons (stands : Multiset String) (x id : String) :
    under f policy (x ::ₘ stands) id =
      under f policy stands id + if id ∈ f.underWay policy x then 1 else 0 :=
  Multiset.countP_cons _ x stands

theorem under_add (more stands : Multiset String) (id : String) :
    under f policy (more + stands) id = under f policy more id + under f policy stands id :=
  Multiset.countP_add _ more stands

theorem under_heads {ids : List String} (h : ∀ x ∈ ids, f.underWay policy x = [x])
    (id : String) :
    under f policy (ids : Multiset String) id = ids.count id := by
  unfold under
  rw [Multiset.coe_countP, List.count]
  apply List.countP_congr
  intro x hx
  rw [h x hx, decide_eq_true_iff, List.mem_singleton, beq_iff_eq]
  exact eq_comm

section Moves

variable (unique : f.ids.Nodup) {visited here stands : Multiset String}
include unique

/-- The strand that stood at a step is what the activation of the next step is paid with. -/
theorem Once.advance {p : Place} {s : Step} (hp : f.Has p) (hs : p.next? = some s)
    (hc : Once f policy ⟨visited, here, p.id ::ₘ stands⟩) :
    Once f policy ⟨s.id ::ₘ visited, s.id ::ₘ here, s.id ::ₘ stands⟩ := by
  refine ⟨?_, ?_, ?_⟩
  · intro q t hq ht
    have hq' := hc.next q t hq ht
    rw [under_cons, Flow.underWay_eq unique hp] at hq'
    rw [under_cons, Flow.underWay_next unique hp hs, Multiset.count_cons, Multiset.count_cons]
    dsimp only at hq' ⊢
    by_cases hts : t.id = s.id
    · have hqp := hq.next_injective unique hp ht hs hts
      subst hqp
      have hnot : q.id ∉ f.underWay policy s.id := hq.not_underWay_next unique hs
      rw [Flow.underWay_next unique hq hs] at hnot
      rw [if_pos List.mem_cons_self] at hq'
      rw [if_neg hnot, if_pos hts]
      omega
    · rw [if_neg hts]
      simp only [List.mem_cons] at hq' ⊢
      by_cases hqs : q.id = s.id
      · simp only [hqs, true_or, if_true] at hq' ⊢
        split at hq' <;> omega
      · by_cases hw : q.id ∈ f.awaiting policy p.scopes
        · simp only [hqs, hw, or_true, if_true, if_false] at hq' ⊢
          omega
        · simp only [hqs, hw, or_false, if_false] at hq' ⊢
          omega
  · intro o scope h rest ho hi
    have := hc.head o scope h rest ho hi
    have hne := hp.next_ne_head unique hs ho hi
    rw [Multiset.count_cons_of_ne hne, Multiset.count_cons, Multiset.count_cons]
    dsimp only at this ⊢
    omega
  · intro t rest ht
    have hfirst := hc.first t rest ht
    rwa [Multiset.count_cons_of_ne (hp.first_ne_next unique hs ht)]

/-- The strand at an owner is what the activation of the first step inside is paid with. -/
theorem Once.enter {o : Place} {scope : Scope} {h : Step} {rest : List Step} (ho : f.Has o)
    (hi : (scope, h :: rest) ∈ o.step.inner) (hk : o.step.forks policy = false)
    (hc : Once f policy ⟨visited, o.id ::ₘ here, o.id ::ₘ stands⟩) :
    Once f policy ⟨h.id ::ₘ visited, h.id ::ₘ here, h.id ::ₘ stands⟩ := by
  have hplace : f.Has ⟨h, h :: rest, 0, o.scopes ++ [scope]⟩ := .inner ho hi rfl
  have hid := Step.owner_of_inner hi
  have hfork : f.forksAt policy scope.owner = false := by
    rw [hid]
    exact (Flow.forksAt_eq unique ho).trans hk
  have hunder : f.underWay policy h.id = h.id :: f.underWay policy o.id :=
    Flow.underWay_inner unique hplace ho rfl hid.symm hfork
  refine ⟨?_, ?_, ?_⟩
  · intro q t hq ht
    have hq' := hc.next q t hq ht
    have hne := hq.next_ne_head unique ht ho hi
    rw [under_cons] at hq'
    rw [under_cons, hunder, Multiset.count_cons_of_ne hne.symm, Multiset.count_cons]
    dsimp only at hq' ⊢
    simp only [List.mem_cons]
    by_cases hqh : q.id = h.id
    · simp only [hqh, true_or, if_true] at hq' ⊢
      omega
    · simp only [hqh, false_or, if_false] at hq' ⊢
      omega
  · intro o' scope' h' rest' ho' hi'
    have hq' := hc.head o' scope' h' rest' ho' hi'
    rw [Multiset.count_cons] at hq'
    rw [Multiset.count_cons, Multiset.count_cons, Multiset.count_cons]
    dsimp only at hq' ⊢
    by_cases hh : h'.id = h.id
    · have hoo := ho'.head_injective unique hi' ho hi hh
      subst hoo
      rw [if_pos rfl] at hq'
      rw [if_pos hh]
      omega
    · rw [if_neg hh]
      omega
  · intro t rest' ht
    have hfirst := hc.first t rest' ht
    rwa [Multiset.count_cons_of_ne (ho.first_ne_head unique hi ht)]

/-- A branch that forks activates the first step of each path it takes once. -/
theorem Once.fork {o : Place} {kind : BranchKind} {join : Quorum} {paths taken : List (Path Step)}
    (id : String) (ho : f.Has o) (hb : o.step.body = .branch kind join paths)
    (hk : policy.forks kind = true) (ht : taken.Sublist paths)
    (hc : Once f policy ⟨visited, o.id ::ₘ here, stands⟩) :
    Once f policy ⟨((Path.heads id taken).map Activation.step : List String) + visited,
      ((Path.heads id taken).map Activation.step : List String) + here,
      ((Path.heads id taken).map Activation.step : List String) + stands⟩ := by
  have hheads : ∀ x ∈ (Path.heads id taken).map Activation.step,
      ∃ scope h rest, (scope, h :: rest) ∈ o.step.inner ∧ x = h.id := by
    intro x hx
    obtain ⟨a, ha, rfl⟩ := List.mem_map.mp hx
    obtain ⟨p, hp, s, rest, hs, rfl⟩ := Path.mem_heads ha
    have hin := Path.inner_of_branch hb (ht.subset hp)
    rw [hs] at hin
    exact ⟨_, s, rest, hin, rfl⟩
  have hunder : ∀ x ∈ (Path.heads id taken).map Activation.step, f.underWay policy x = [x] :=
    Flow.underWay_head unique ho hb hk ht
  have hnodup := (ho.heads_nodup unique).sublist (Path.heads_sublist id hb ht)
  generalize (Path.heads id taken).map Activation.step = heads at hheads hunder hnodup
  refine ⟨?_, ?_, ?_⟩
  · intro q t hq hn
    have hq' := hc.next q t hq hn
    have hzero : heads.count t.id = 0 := by
      rw [List.count_eq_zero]
      intro hm
      obtain ⟨scope, h, rest, hi, he⟩ := hheads _ hm
      exact hq.next_ne_head unique hn ho hi he.symm
    rw [under_add, under_heads hunder, Multiset.count_add, Multiset.count_add, Multiset.coe_count,
      Multiset.coe_count, hzero]
    dsimp only at hq' ⊢
    omega
  · intro o' scope' h' rest' ho' hi'
    have hq' := hc.head o' scope' h' rest' ho' hi'
    rw [Multiset.count_cons] at hq'
    rw [Multiset.count_add, Multiset.count_add, Multiset.count_add, Multiset.coe_count,
      Multiset.coe_count]
    have hone := List.nodup_iff_count_le_one.mp hnodup h'.id
    dsimp only at hq' ⊢
    by_cases hm : h'.id ∈ heads
    · obtain ⟨scope, h, rest, hi, he⟩ := hheads _ hm
      have hoo := ho'.head_injective unique hi' ho hi he
      subst hoo
      rw [if_pos rfl] at hq'
      omega
    · rw [List.count_eq_zero.mpr hm]
      omega
  · intro t rest' hsteps
    have hfirst := hc.first t rest' hsteps
    have hzero : heads.count t.id = 0 := by
      rw [List.count_eq_zero]
      intro hm
      obtain ⟨scope, h, rest, hi, he⟩ := hheads _ hm
      exact ho.first_ne_head unique hi hsteps he
    rw [Multiset.count_add, Multiset.coe_count, hzero, Nat.zero_add]
    exact hfirst

/-- Every shift keeps to what control came to. -/
theorem Shift.once (h : Shift f policy c d) (hc : c.Once f policy) : d.Once f policy := by
  cases h with
  | stay => exact hc
  | @settle visited here stands id =>
    refine ⟨hc.next, ?_, hc.first⟩
    intro o scope h rest ho hi
    have := hc.head o scope h rest ho hi
    rw [Multiset.count_cons] at this
    dsimp only at this ⊢
    omega
  | @drop visited here stands id =>
    refine ⟨?_, hc.head, hc.first⟩
    intro p s hp hs
    have := hc.next p s hp hs
    rw [under_cons] at this
    dsimp only at this ⊢
    omega
  | next hp hs => exact hc.advance unique hp hs
  | @climb visited here stands p o scope hp ho hs hid hk =>
    refine ⟨?_, hc.head, hc.first⟩
    intro q t hq ht
    have hq' := hc.next q t hq ht
    rw [under_cons, Flow.underWay_inner unique hp ho hs hid hk] at hq'
    rw [under_cons]
    dsimp only at hq' ⊢
    by_cases hw : q.id ∈ f.underWay policy o.id
    · rw [if_pos (List.mem_cons_of_mem _ hw)] at hq'
      rwa [if_pos hw]
    · rw [if_neg hw]
      omega
  | enter ho hi hk => exact hc.enter unique ho hi hk
  | split id ho hb hk ht => exact hc.fork unique id ho hb hk ht

theorem once_of_shifts (h : Relation.ReflTransGen (Shift f policy) c d) (hc : c.Once f policy) :
    d.Once f policy := by
  induction h with
  | refl => exact hc
  | tail _ hs ih => exact hs.once unique ih

end Moves

end Census

namespace Front

variable {f : Flow} {policy : EnginePolicy} {m : Front} (unique : f.ids.Nodup)
include unique

/-- In a run that starts, no step was activated more often than control came to it. -/
theorem census_initial_once : (initial f).census.Once f policy := by
  unfold initial
  split
  · rename_i hsteps
    refine ⟨fun p s _ _ => ?_, fun o scope h rest _ _ => ?_, fun s rest hs => ?_⟩
    · exact Nat.le_refl 0
    · exact Nat.le_refl 0
    · rw [hsteps] at hs
      cases hs
  · rename_i first rest hsteps
    have hmain : f.Has ⟨first, f.steps, 0, []⟩ := .main (by rw [hsteps]; rfl)
    have hempty : (⟨0, 0, [], 0⟩ : Front).census = ⟨0, 0, 0⟩ := rfl
    rw [census_visit_one, hempty]
    refine ⟨?_, ?_, ?_⟩
    · intro p s hp hs
      have hne := (hp.first_ne_next unique hs hsteps).symm
      have hunder : f.underWay policy first.id = [first.id] := Flow.underWay_eq unique hmain
      rw [Multiset.count_cons_of_ne hne, Census.under_cons, Multiset.count_cons, hunder]
      by_cases hid : p.id = first.id
      · rw [if_pos hid, if_pos (List.mem_singleton.mpr hid)]
        exact Nat.le_refl 1
      · rw [if_neg hid, if_neg fun hm => hid (List.mem_singleton.mp hm)]
        exact Nat.le_refl 0
    · intro o scope h tail ho hi
      rw [Multiset.count_cons_of_ne (ho.first_ne_head unique hi hsteps).symm]
      exact Nat.le_of_eq (Nat.zero_add _)
    · intro s tail hs
      rw [hsteps] at hs
      cases hs
      exact Nat.le_of_eq (Multiset.count_cons_self first.id 0)

theorem Reached.once (h : Reached f policy m) (hg : f.NoGoto) : m.census.Once f policy := by
  have hno : ∀ p, f.Has p → ∀ t, p.step.body ≠ .goto t := fun p hp =>
    hg p (Flow.mem_places_iff.mpr hp)
  refine Reached.induct (P := fun m => m.census.Once f policy) (census_initial_once unique) ?_ h
  intro m n hr hm ht
  exact Census.once_of_shifts unique (ht.recount unique hno (hr.mirror unique)) hm

omit unique in
/-- What is activated no more often than its predecessor or its owner is activated once. -/
theorem Census.Once.visited_le_one {c : Census} (hc : c.Once f policy) {p : Place} (hp : f.Has p) :
    c.visited.count p.id ≤ 1 := by
  induction hp with
  | @main k s hs =>
    induction k generalizing s with
    | zero =>
      cases hsteps : f.steps with
      | nil => simp [hsteps] at hs
      | cons first rest =>
        have hfirst := hc.first first rest hsteps
        simp only [hsteps, List.getElem?_cons_zero, Option.some.injEq] at hs
        subst hs
        exact hfirst
    | succ k ih =>
      obtain ⟨hlt, _⟩ := List.getElem?_eq_some_iff.mp hs
      have hprev : f.steps[k]? = some f.steps[k] := List.getElem?_eq_getElem (by omega)
      have hnext := hc.next ⟨_, f.steps, k, []⟩ s (.main hprev) hs
      have hone := ih hprev
      dsimp only [Place.id] at hone hnext ⊢
      omega
  | @inner o scope steps k s ho hi hs ih =>
    induction k generalizing s with
    | zero =>
      obtain ⟨rest, rfl⟩ : ∃ rest, steps = s :: rest := by
        cases steps with
        | nil => simp at hs
        | cons t rest =>
          simp only [List.getElem?_cons_zero, Option.some.injEq] at hs
          exact ⟨rest, by rw [hs]⟩
      have hhead := hc.head o scope s rest ho hi
      dsimp only [Place.id] at ih hhead ⊢
      omega
    | succ k ihk =>
      obtain ⟨hlt, _⟩ := List.getElem?_eq_some_iff.mp hs
      have hprev : steps[k]? = some steps[k] := List.getElem?_eq_getElem (by omega)
      have hnext := hc.next ⟨_, steps, k, o.scopes ++ [scope]⟩ s (.inner ho hi hprev) hs
      have hone := ihk hprev
      dsimp only [Place.id] at hone hnext ⊢
      omega

/-- Without GOTO, no step is activated twice. -/
theorem Reached.visited_le_one (h : Reached f policy m) (hg : f.NoGoto) {p : Place} (hp : f.Has p) :
    (m.visited.map Activation.step).count p.id ≤ 1 :=
  Census.Once.visited_le_one (h.once unique hg) hp

end Front

end Workflow
