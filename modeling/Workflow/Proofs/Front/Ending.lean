import Workflow.Proofs.Front.Balance

namespace Workflow

def Flow.PathsDiffer (f : Flow) : Prop :=
  ∀ p ∈ f.places, ∀ kind join paths, p.step.body = .branch kind join paths →
    (paths.map Path.id).Nodup

def Flow.NoGoto (f : Flow) : Prop :=
  ∀ p ∈ f.places, ∀ target, p.step.body ≠ .goto target

def Flow.JoinsAll (f : Flow) : Prop :=
  ∀ p ∈ f.places, ∀ kind join paths, p.step.body = .branch kind join paths → join = .all

namespace Flow

variable (f : Flow) (P : Quorum → List (Path Step) → Prop)

theorem forall_branch_iff :
    (∀ p ∈ f.places, match p.step.body with
      | .branch _ join paths => P join paths
      | _ => True) ↔
    ∀ p ∈ f.places, ∀ kind join paths, p.step.body = .branch kind join paths →
      P join paths := by
  refine forall₂_congr fun p _ => ?_
  cases p.step.body <;> simp

theorem noGoto_iff :
    (∀ p ∈ f.places, match p.step.body with
      | .goto _ => False
      | _ => True) ↔ f.NoGoto := by
  refine forall₂_congr fun p _ => ?_
  cases p.step.body <;> simp

instance [∀ join paths, Decidable (P join paths)] : Decidable (∀ p ∈ f.places,
    ∀ kind join paths, p.step.body = .branch kind join paths → P join paths) :=
  have (b : Body Step) : Decidable (match b with
      | .branch _ join paths => P join paths
      | _ => True) :=
    match b with
    | .branch _ join paths => inferInstanceAs (Decidable (P join paths))
    | .action .. | .subFlow .. | .decision _ | .goto _ | .gotoDestination _ | .terminate _ =>
      .isTrue trivial
  decidable_of_iff _ (f.forall_branch_iff P)

instance : Decidable f.PathsDiffer :=
  inferInstanceAs (Decidable (∀ p ∈ f.places, ∀ _ _ _, _ → _))

instance : Decidable f.JoinsAll :=
  inferInstanceAs (Decidable (∀ p ∈ f.places, ∀ _ _ _, _ → _))

instance : Decidable f.NoGoto :=
  have (b : Body Step) : Decidable (match b with
      | .goto _ => False
      | _ => True) :=
    match b with
    | .goto _ => .isFalse not_false
    | .action .. | .subFlow .. | .decision _ | .branch .. | .gotoDestination _ | .terminate _ =>
      .isTrue trivial
  decidable_of_iff _ f.noGoto_iff

end Flow

namespace Front

variable {f : Flow} {policy : EnginePolicy} {m n : Front}

theorem ledger_initial (f : Flow) (policy : EnginePolicy) :
    (initial f).ledger f policy = ⟨0, [], 1⟩ ∨
      ∃ lane, (initial f).ledger f policy = ⟨{(none, lane)}, [], 0⟩ := by
  unfold initial
  split
  · exact .inl rfl
  · exact .inr ⟨_, ledger_visit_one _ _⟩

section Unique

variable (unique : f.ids.Nodup)
include unique

/-- What the first ledger has and every shift keeps holds of the ledgers of all fronts. -/
theorem Reached.ledger_induct {P : Ledger → Prop} (h : Reached f policy m)
    (ended : P ⟨0, [], 1⟩)
    (one : ∀ lane, P ⟨{(none, lane)}, [], 0⟩)
    (shift : ∀ {m : Front} {l : Ledger}, Reached f policy m → P (m.ledger f policy) →
      Ledger.Shift f policy (m.ledger f policy) l → P l) : P (m.ledger f policy) := by
  refine Reached.induct (P := fun m => P (m.ledger f policy)) ?_ ?_ h
  · rcases ledger_initial f policy with he | ⟨lane, he⟩
    · exact he ▸ ended
    · exact he ▸ one lane
  · intro m n hr hm ht
    exact shift hr hm (ht.shift unique (hr.mirror unique))

theorem Reached.sound (h : Reached f policy m) :
    ∀ g ∈ m.forks, Ledger.Sound (m.ledger f policy).shares g := by
  refine h.ledger_induct (P := fun l => ∀ g ∈ l.forks, Ledger.Sound l.shares g) unique ?_ ?_ ?_
  · simp
  · simp
  · exact fun _ hm hs => hs.sound hm

theorem Reached.paths_nodup (h : Reached f policy m) (hp : f.PathsDiffer) :
    ∀ g ∈ m.forks, g.paths.Nodup := by
  intro g hg
  obtain ⟨o, kind, paths, taken, hs⟩ := (h.mirror unique).branches g hg
  rw [hs.ids]
  have hnodup := hp o (Flow.mem_places_iff.mpr hs.has) kind g.join paths hs.body
  exact hnodup.sublist (hs.sub.map Path.id)

theorem Reached.balanced (h : Reached f policy m) (hp : f.PathsDiffer) :
    (m.ledger f policy).Balanced := by
  refine h.ledger_induct unique ?_ ?_ ?_
  · exact Nat.le_refl 1
  · intro lane
    exact Nat.le_of_eq (Ledger.held_cons_self 0 (none, lane)).symm
  · exact fun hr hm hs => hs.balanced (hr.sound unique) (hr.paths_nodup unique hp) hm

end Unique

end Front

/-- Keys that differ share out what they count. -/
theorem sum_count_le {α : Type} [BEq α] [LawfulBEq α] (keys : List α) (hd : keys.Nodup)
    (as : List α) :
    (keys.map fun k => as.count k).sum ≤ as.length := by
  induction keys generalizing as with
  | nil => exact Nat.zero_le _
  | cons k ks ih =>
    rw [List.nodup_cons] at hd
    have hsame : (ks.map fun k' => (as.filter fun a => a != k).count k') =
        ks.map fun k' => as.count k' := by
      apply List.map_congr_left
      intro k' hk'
      apply List.count_filter
      simp only [bne_iff_ne, ne_eq]
      intro he
      exact hd.1 (he ▸ hk')
    have hrest := ih hd.2 (as.filter fun a => a != k)
    have hsplit := List.length_eq_countP_add_countP (fun a => a == k) (l := as)
    have hne : (as.filter fun a => a != k).length = as.countP fun a => !(a == k) := by
      rw [← List.countP_eq_length_filter]
      rfl
    rw [List.map_cons, List.sum_cons, List.count]
    rw [hsame, hne] at hrest
    simp only [Bool.decide_eq_false, Bool.not_eq_true] at hsplit
    omega

namespace Ledger

variable {f : Flow} {policy : EnginePolicy}

theorem held_waiting (forks : List Fork) (fork : Option String) :
    held ((Fork.waiting forks).map (Fork.share f policy)) fork =
      ((forks.filter fun g => !g.joined).map Fork.parent).count fork := by
  unfold held Fork.waiting
  rw [Multiset.map_coe, Multiset.coe_countP, List.countP_map, List.count, List.countP_map]
  apply List.countP_congr
  intro g _
  simp only [Function.comp_apply, Fork.share, beq_iff_eq]
  exact decide_eq_true_iff

/-- Forks alone cannot hold all shares: the innermost ones would wait for nothing. -/
theorem Balanced.not_forks_alone {l : Ledger} (hb : l.Balanced)
    (hl : ∀ g ∈ l.forks, Sound l.shares g) (hd : (l.forks.map Fork.id).Nodup)
    (hended : l.ended = 0) :
    l.shares ≠ (Fork.waiting l.forks).map (Fork.share f policy) := by
  intro hs
  let waiting := l.forks.filter fun g => !g.joined
  let parents := waiting.map Fork.parent
  have hheld : ∀ fork, held l.shares fork = parents.count fork := by
    intro fork
    rw [hs]
    exact held_waiting l.forks fork
  -- Each fork that waits misses a path or is the parent of another one, and each has one parent.
  have hmissing : waiting.length ≤
      gap l.shares l.forks + (waiting.map fun g => parents.count (some g.id)).sum := by
    have hone : ∀ g ∈ waiting, 1 ≤ missing l.shares g + parents.count (some g.id) := by
      intro g hg
      obtain ⟨hm, hj⟩ := List.mem_filter.mp hg
      have hlt := (hl g hm).finished_lt (by simpa using hj)
      unfold missing
      rw [hheld]
      omega
    calc waiting.length
      _ = (waiting.map fun _ => 1).sum := by simp
      _ ≤ (waiting.map fun g => missing l.shares g + parents.count (some g.id)).sum :=
        List.sum_le_sum hone
      _ = gap l.shares l.forks + (waiting.map fun g => parents.count (some g.id)).sum :=
        List.sum_map_add
  have hkeys : (none :: waiting.map fun g => some g.id).Nodup := by
    rw [List.nodup_cons]
    refine ⟨by simp, ?_⟩
    rw [show (waiting.map fun g => some g.id) = (waiting.map Fork.id).map some by
      rw [List.map_map]; rfl]
    exact ((hd.sublist ((List.filter_sublist).map Fork.id))).map (Option.some_injective _)
  have hcount := sum_count_le _ hkeys parents
  rw [List.map_cons, List.sum_cons, List.map_map] at hcount
  have hlen : parents.length = waiting.length := List.length_map _
  unfold Balanced at hb
  rw [hended, hheld] at hb
  simp only [Function.comp_def] at hcount
  omega

end Ledger

namespace Front

variable {f : Flow} {policy : EnginePolicy} {m : Front} (unique : f.ids.Nodup)
include unique

/-- A front that is not over has a strand. -/
theorem Reached.strands_ne_zero (h : Reached f policy m) (hp : f.PathsDiffer) (ho : m.ended = 0) :
    m.strands ≠ 0 := by
  intro hs
  have hshares : (m.ledger f policy).shares =
      (Fork.waiting m.forks).map (Fork.share f policy) := by
    simp [ledger, hs]
  exact (h.balanced unique hp).not_forks_alone (h.sound unique) (h.mirror unique).distinct ho
    hshares

/-- Without GOTO, and when a TERMINATE ends its scope alone, one share of the main path is held
until the run is over. -/
theorem Reached.held_none_le (h : Reached f policy m) (hg : f.NoGoto)
    (he : policy.terminate = .endScope) :
    Ledger.held (m.ledger f policy).shares none + m.ended ≤ 1 := by
  refine h.ledger_induct (P := fun l => Ledger.held l.shares none + l.ended ≤ 1) unique ?_ ?_ ?_
  · exact Nat.le_refl 1
  · intro lane
    exact Nat.le_of_eq (Ledger.held_cons_self 0 (none, lane))
  · intro m l hr hm hs
    generalize m.ledger f policy = k at hm hs
    cases hs with
    | stay => exact hm
    | absorb _ => rwa [Ledger.held_cons_of_ne (by simp)] at hm
    | @finish shares forks ended s _ hnone =>
      have hself := Ledger.held_cons_self shares s
      rw [hnone he] at hself
      dsimp only at hm ⊢
      omega
    | report _ _ => rwa [Ledger.held_cons_of_ne (by simp)] at hm
    | split _ _ _ _ _ =>
      rwa [Ledger.held_add, Ledger.held_paths, if_neg (by simp), Nat.zero_add]
    | goto hp hb _ => exact absurd hb (hg _ (Flow.mem_places_iff.mpr hp) _)

/-- When every fork waits for all its paths, a held share of a fork means a held share of the main
path: the forks around it wait as well. -/
theorem Reached.held_fork_eq_zero (h : Reached f policy m) (hj : f.JoinsAll)
    (hnone : Ledger.held (m.ledger f policy).shares none = 0) :
    ∀ (k : Nat) (g : Fork), m.forks[k]? = some g →
      Ledger.held (m.ledger f policy).shares (some g.id) = 0 := by
  intro k
  -- A fork comes behind the forks around it, so those are known to hold nothing.
  induction k using Nat.strong_induction_on with
  | _ k ih =>
    intro g hk
    have hg := List.mem_of_getElem? hk
    have hmirror := h.mirror unique
    obtain ⟨o, kind, paths, taken, hs⟩ := hmirror.branches g hg
    have hall := hj o (Flow.mem_places_iff.mpr hs.has) kind g.join paths hs.body
    cases hjoined : g.joined with
    | true => exact (h.sound unique g hg).held_eq_zero hall hjoined
    | false =>
      exfalso
      have hshare : g.share f policy ∈ (m.ledger f policy).shares := by
        refine Multiset.mem_add.mpr (.inr ?_)
        exact Multiset.mem_map_of_mem _ (List.mem_filter.mpr ⟨hg, by simp [hjoined]⟩)
      have hparent : 0 < Ledger.held (m.ledger f policy).shares g.parent :=
        Multiset.countP_pos.mpr ⟨_, hshare, rfl⟩
      have hmirrors := hmirror.parents k g hk
      cases hp : g.parent with
      | none =>
        rw [hp, hnone] at hparent
        exact Nat.lt_irrefl 0 hparent
      | some id =>
        rw [hp] at hmirrors
        obtain ⟨q, _, _, hmatch⟩ := hmirrors
        obtain ⟨g', hg', rfl, _⟩ := hmatch.fork_mem
        obtain ⟨k', hk'⟩ := List.getElem?_of_mem hg'
        have hlt : k' < k := by
          have := (List.getElem?_eq_some_iff.mp hk').1
          rw [List.length_take] at this
          omega
        rw [List.getElem?_take_of_lt hlt] at hk'
        rw [hp, ih k' hlt g' hk'] at hparent
        exact Nat.lt_irrefl 0 hparent

/-- A front that is over has no strand left, if nothing jumps, every fork waits for all its paths
and a TERMINATE ends its scope alone. -/
theorem Reached.strands_eq_zero (h : Reached f policy m) (hg : f.NoGoto) (hj : f.JoinsAll)
    (he : policy.terminate = .endScope) (ho : 0 < m.ended) : m.strands = 0 := by
  have hnone : Ledger.held (m.ledger f policy).shares none = 0 := by
    have := h.held_none_le unique hg he
    omega
  have hforks := h.held_fork_eq_zero unique hj hnone
  apply Multiset.eq_zero_of_forall_notMem
  intro s hs
  have hheld : 0 < Ledger.held (m.ledger f policy).shares s.fork :=
    Multiset.countP_pos.mpr
      ⟨s.share f policy, Multiset.mem_add.mpr (.inl (Multiset.mem_map_of_mem _ hs)), rfl⟩
  cases hf : s.fork with
  | none =>
    rw [hf, hnone] at hheld
    exact Nat.lt_irrefl 0 hheld
  | some id =>
    have hmirrors := (h.mirror unique).strands s hs
    rw [hf] at hmirrors
    obtain ⟨p, _, _, hmatch⟩ := hmirrors
    obtain ⟨g, hg', rfl, _⟩ := hmatch.fork_mem
    obtain ⟨k, hk⟩ := List.getElem?_of_mem hg'
    rw [hf, hforks k g hk] at hheld
    exact Nat.lt_irrefl 0 hheld

end Front

end Workflow
