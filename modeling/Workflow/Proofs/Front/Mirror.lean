import Workflow.Proofs.Front

namespace Workflow

structure Fork.Stems (f : Flow) (policy : EnginePolicy) (g : Fork) (o : Place) (kind : BranchKind)
    (paths taken : List (Path Step)) : Prop where
  has : f.Has o
  id : o.id = g.branch
  body : o.step.body = .branch kind g.join paths
  forks : policy.forks kind = true
  sub : taken.Sublist paths
  ids : g.paths = taken.map Path.id
  ne : taken ≠ []

structure Front.Mirror (f : Flow) (policy : EnginePolicy) (m : Front) : Prop where
  distinct : (m.forks.map Fork.id).Nodup
  strands : ∀ s ∈ m.strands, f.Mirrors policy m.forks s.step s.fork
  visited : ∀ a ∈ m.visited, f.Mirrors policy m.forks a.step a.fork
  branches : ∀ g ∈ m.forks, ∃ o kind paths taken, g.Stems f policy o kind paths taken
  parents : ∀ k g, m.forks[k]? = some g → f.Mirrors policy (m.forks.take k) g.branch g.parent

@[simp] theorem Fork.frame_report (g : Fork) (path : String) : (g.report path).frame = g.frame := by
  unfold Fork.report
  split <;> rfl

theorem Fork.map_id_of_frames {forks forks' : List Fork}
    (h : forks'.map Fork.frame = forks.map Fork.frame) :
    forks'.map Fork.id = forks.map Fork.id := by
  have hids : ∀ gs : List Fork, gs.map Fork.id = (gs.map Fork.frame).map Fork.id := by
    intro gs
    rw [List.map_map]
    rfl
  rw [hids, h, ← hids]

theorem Fork.Stems.of_frame {f : Flow} {policy : EnginePolicy} {g g' : Fork} {o : Place}
    {kind : BranchKind} {paths taken : List (Path Step)}
    (h : g.Stems f policy o kind paths taken) (he : g'.frame = g.frame) :
    g'.Stems f policy o kind paths taken := by
  simp only [Fork.frame, Fork.mk.injEq] at he
  exact ⟨h.has, by rw [h.id, he.2.1], by rw [h.body, he.2.2.2.2.2.1], h.forks, h.sub,
    by rw [← h.ids, he.2.2.2.1], h.ne⟩

namespace Front.Mirror

variable {f : Flow} {policy : EnginePolicy} {m : Front}

theorem drop {s : Strand} (h : (m.put s).Mirror f policy) : m.Mirror f policy :=
  ⟨h.distinct, fun t ht => h.strands t (Multiset.mem_cons_of_mem ht), h.visited, h.branches,
    h.parents⟩

theorem of_put {s : Strand} (h : (m.put s).Mirror f policy) :
    f.Mirrors policy m.forks s.step s.fork :=
  h.strands s (Multiset.mem_cons_self s m.strands)

theorem put {s : Strand} (h : m.Mirror f policy) (hs : f.Mirrors policy m.forks s.step s.fork) :
    (m.put s).Mirror f policy := by
  refine ⟨h.distinct, ?_, h.visited, h.branches, h.parents⟩
  intro t ht
  rcases Multiset.mem_cons.mp ht with rfl | ht
  · exact hs
  · exact h.strands t ht

theorem visit {as : List Activation} (h : m.Mirror f policy)
    (ha : ∀ a ∈ as, f.Mirrors policy m.forks a.step a.fork) : (m.visit as).Mirror f policy := by
  refine ⟨h.distinct, ?_, ?_, h.branches, h.parents⟩
  · intro t ht
    rcases Multiset.mem_add.mp ht with ht | ht
    · obtain ⟨a, hm, rfl⟩ := List.mem_map.mp (Multiset.mem_coe.mp ht)
      exact ha a hm
    · exact h.strands t ht
  · intro a hm
    rcases Multiset.mem_add.mp hm with hm | hm
    · exact ha a (Multiset.mem_coe.mp hm)
    · exact h.visited a hm

theorem finish (h : m.Mirror f policy) : m.finish.Mirror f policy :=
  ⟨h.distinct, h.strands, h.visited, h.branches, h.parents⟩

/-- Reports change no frame. -/
theorem reframe {pre post : List Fork} {g g' : Fork} (h : m.Mirror f policy)
    (hm : m.forks = pre ++ g :: post) (he : g'.frame = g.frame) :
    (m.withForks (pre ++ g' :: post)).Mirror f policy := by
  have hframes : m.forks.map Fork.frame = (pre ++ g' :: post).map Fork.frame := by
    simp [hm, he]
  have hsub : m.forks.map Fork.frame ⊆ (pre ++ g' :: post).map Fork.frame := by
    rw [hframes]
    exact List.Subset.refl _
  refine ⟨?_, fun s hs => (h.strands s hs).of_frames hsub,
    fun a ha => (h.visited a ha).of_frames hsub, ?_, ?_⟩
  · rw [withForks_forks, Fork.map_id_of_frames hframes.symm]
    exact h.distinct
  · intro k hk
    obtain ⟨k', hk', hf⟩ : ∃ k' ∈ m.forks, k.frame = k'.frame := by
      have := List.mem_map_of_mem (f := Fork.frame) hk
      rw [withForks_forks, ← hframes] at this
      obtain ⟨k', hk', he'⟩ := List.mem_map.mp this
      exact ⟨k', hk', he'.symm⟩
    obtain ⟨o, kind, paths, taken, hs⟩ := h.branches k' hk'
    exact ⟨o, kind, paths, taken, hs.of_frame hf⟩
  · intro k x hx
    have hat := congrArg (fun gs => gs[k]?) hframes
    simp only [withForks_forks] at hx
    simp only [List.getElem?_map, hx, Option.map_some] at hat
    obtain ⟨y, hy, hxy⟩ := Option.map_eq_some_iff.mp hat
    have hp := h.parents k y hy
    simp only [Fork.frame, Fork.mk.injEq] at hxy
    rw [hxy.2.1, hxy.2.2.1] at hp
    apply hp.of_frames
    rw [withForks_forks, List.map_take, List.map_take, hframes]
    exact List.Subset.refl _

/-- A fork that a branch opens is in its place. -/
theorem opened {g : Fork} (h : m.Mirror f policy) (hid : g.id ∉ m.forks.map Fork.id)
    (hb : ∃ o kind paths taken, g.Stems f policy o kind paths taken)
    (hp : f.Mirrors policy m.forks g.branch g.parent) :
    (m.withForks (m.forks ++ [g])).Mirror f policy := by
  have hsub : m.forks.map Fork.frame ⊆ (m.forks ++ [g]).map Fork.frame := by
    rw [List.map_append]
    exact List.subset_append_left _ _
  refine ⟨?_, fun s hs => (h.strands s hs).of_frames hsub,
    fun a ha => (h.visited a ha).of_frames hsub, ?_, ?_⟩
  · rw [withForks_forks, List.map_append, List.map_singleton]
    exact h.distinct.append (List.nodup_singleton _) (by simpa using hid)
  · intro k hk
    rcases List.mem_append.mp hk with hk | hk
    · exact h.branches k hk
    · rw [List.mem_singleton.mp hk]
      exact hb
  · intro k x hx
    rw [withForks_forks] at hx ⊢
    rcases Nat.lt_or_ge k m.forks.length with hk | hk
    · rw [List.getElem?_append_left hk] at hx
      rw [List.take_append_of_le_length (Nat.le_of_lt hk)]
      exact h.parents k x hx
    · rw [List.getElem?_append_right hk] at hx
      have hx' : x = g ∧ k = m.forks.length := by
        cases hd : k - m.forks.length with
        | zero =>
          simp only [hd, List.getElem?_cons_zero, Option.some.injEq] at hx
          exact ⟨hx.symm, by omega⟩
        | succ n => simp [hd] at hx
      obtain ⟨rfl, rfl⟩ := hx'
      rw [List.take_left']
      · exact hp
      · rfl

theorem eq_of_id {g k : Fork} (h : m.Mirror f policy) (hg : g ∈ m.forks) (hk : k ∈ m.forks)
    (he : g.id = k.id) : g = k :=
  List.inj_on_of_nodup_map h.distinct hg hk he

theorem parent {g : Fork} (h : m.Mirror f policy) (hg : g ∈ m.forks) :
    f.Mirrors policy m.forks g.branch g.parent := by
  obtain ⟨k, hk⟩ := List.getElem?_of_mem hg
  exact (h.parents k g hk).of_frames ((List.take_sublist k m.forks).map Fork.frame).subset

end Front.Mirror

theorem Fork.opening_stems {f : Flow} {policy : EnginePolicy} {o : Place} {kind : BranchKind}
    {join : Quorum} {paths taken : List (Path Step)} (id : String) (fork : Option String)
    (ho : f.Has o) (hb : o.step.body = .branch kind join paths) (hk : policy.forks kind = true)
    (ht : taken.Sublist paths) (hne : taken ≠ []) :
    (Fork.opening id o.id fork join taken).Stems f policy o kind paths taken :=
  ⟨ho, rfl, hb, hk, ht, rfl, hne⟩

namespace Front

variable {f : Flow} {policy : EnginePolicy} {m n : Front} (unique : f.ids.Nodup)
include unique

/-- The first steps of the paths that a fork takes are part of the fork. -/
theorem mirrors_heads {o : Place} {kind : BranchKind} {join : Quorum}
    {paths taken : List (Path Step)} {forks : List Fork} {g : Fork} (ho : f.Has o)
    (hb : o.step.body = .branch kind join paths) (hk : policy.forks kind = true)
    (ht : taken.Sublist paths) (hg : g ∈ forks) (hgb : g.branch = o.id)
    (hgp : g.paths = taken.map Path.id) :
    ∀ a ∈ Path.heads g.id taken, f.Mirrors policy forks a.step a.fork := by
  intro a ha
  obtain ⟨p, hp, s, rest, hs, rfl⟩ := Path.mem_heads ha
  have hin := Path.inner_of_branch hb (ht.subset hp)
  refine ⟨_, .inner (k := 0) (s := s) ho hin (by rw [hs]; rfl), rfl, ?_⟩
  unfold Flow.Matches
  rw [Flow.lane?_append, if_pos (Flow.forksAt_branch unique ho hb hk)]
  exact ⟨g, hg, rfl, hgb, hgp ▸ List.mem_map_of_mem hp⟩

theorem Mirror.enter {o : Place} {scope : Scope} {fork : Option String} {forks : List Fork}
    (ho : f.Has o) (hid : o.id = scope.owner) (hk : o.step.forks policy = false)
    (h : f.Mirrors policy forks o.id fork) :
    f.Matches policy forks (o.scopes ++ [scope]) fork := by
  have hm := h.at unique ho
  unfold Flow.Matches at hm ⊢
  rwa [Flow.lane?_append, ← hid, Flow.forksAt_eq unique ho, hk]

/-- A strand that leaves a scope without a fork stands for the owner of the scope. -/
theorem Mirror.climb {p o : Place} {scope : Scope} {fork : Option String} {forks : List Fork}
    (hp : f.Has p) (ho : f.Has o) (hs : p.scopes = o.scopes ++ [scope])
    (hf : ∀ g ∈ forks, fork = some g.id → g.branch ≠ scope.owner)
    (h : f.Mirrors policy forks p.id fork) : f.forksAt policy scope.owner = false ∧
      f.Mirrors policy forks o.id fork := by
  have hm := h.at unique hp
  unfold Flow.Matches at hm
  rw [hs, Flow.lane?_append] at hm
  cases hfork : f.forksAt policy scope.owner with
  | true =>
    simp only [hfork, if_true] at hm
    obtain ⟨g, hg, he, hb, _⟩ := hm
    exact absurd hb (hf g hg he)
  | false =>
    simp only [hfork, Bool.false_eq_true, if_false] at hm
    exact ⟨rfl, o, ho, rfl, hm⟩

/-- A turn keeps all strands in the forks that their surroundings call for. -/
theorem Turn.mirror (ht : Turn f policy m n) (h : m.Mirror f policy) : n.Mirror f policy := by
  cases ht with
  | pass hp => exact h.drop.put h.of_put
  | quit hp _ => exact h.drop.put h.of_put
  | @next m p s fork hp hs =>
    apply h.drop.visit
    intro a ha
    rw [List.mem_singleton.mp ha]
    exact ⟨_, hp.next hs, rfl, h.of_put.at unique hp⟩
  | stop hp _ => exact h.drop.put h.of_put
  | exhaust hp _ => exact h.drop.finish
  | climb hp ho hs hid hf => exact h.drop.put (Mirror.climb unique hp ho hs hf h.of_put).2
  | absorb _ _ _ _ _ => exact h.drop
  | report _ _ hg _ _ _ => exact h.drop.reframe hg (Fork.frame_report _ _)
  | @join m p scope g pre post hp hs hg hb hj hr =>
    refine (h.drop.reframe hg (Fork.frame_report _ _)).put ?_
    have hmem : g ∈ m.forks := by simp [hg]
    apply (h.drop.parent hmem).of_frames
    simp [hg]
  | @enter m o scope s rest fork ho hi hk =>
    apply h.drop.visit
    intro a ha
    rw [List.mem_singleton.mp ha]
    have hid := Step.owner_of_inner hi
    exact ⟨_, .inner ho hi (by rfl : (s :: rest)[0]? = some s), rfl,
      Mirror.enter unique ho hid.symm hk h.of_put⟩
  | @split m o kind join paths taken fork id ho hb hk ht hne hid hj =>
    have hopen := h.drop.opened (g := Fork.opening id o.id fork join taken) hid
      ⟨_, _, _, _, Fork.opening_stems id fork ho hb hk ht hne⟩ h.of_put
    exact hopen.visit (mirrors_heads unique ho hb hk ht
      (g := Fork.opening id o.id fork join taken) (by simp) rfl rfl)
  | @splitOn m o kind join paths taken fork id ho hb hk ht hne hid hj =>
    have hopen := h.drop.opened (g := Fork.opening id o.id fork join taken) hid
      ⟨_, _, _, _, Fork.opening_stems id fork ho hb hk ht hne⟩ h.of_put
    refine (hopen.visit (mirrors_heads unique ho hb hk ht
      (g := Fork.opening id o.id fork join taken) (by simp) rfl rfl)).put ?_
    apply h.of_put.of_frames
    simp
  | @goto m p q target fork hp hb hq hs =>
    apply h.drop.visit
    intro a ha
    rw [List.mem_singleton.mp ha]
    exact ⟨q, hq, rfl, by simp [Flow.Matches, hs]⟩
  | terminate _ _ _ => exact h.drop.finish

theorem Reached.mirror (h : Reached f policy m) : m.Mirror f policy := by
  refine h.induct ?_ fun _ hm ht => ht.mirror unique hm
  have hempty : (⟨0, 0, [], 0⟩ : Front).Mirror f policy := by
    refine ⟨List.nodup_nil, ?_, ?_, ?_, ?_⟩ <;> simp
  unfold initial
  split
  · exact hempty.finish
  · rename_i s rest hs
    apply hempty.visit
    intro a ha
    rw [List.mem_singleton.mp ha]
    exact ⟨_, .main (by rw [hs]; rfl : f.steps[0]? = some s), rfl, rfl⟩

end Front

end Workflow
