import Mathlib.Data.Multiset.Count
import Mathlib.Data.Multiset.Filter
import Workflow.Proofs.Front.Mirror

namespace Workflow

structure Census where
  visited : Multiset String
  here : Multiset String
  /-- The steps of strands, however far they are with them, and the branches of waiting forks. -/
  stands : Multiset String

def Front.census (m : Front) : Census :=
  ⟨m.visited.map Activation.step,
    (m.strands.filter fun s => s.phase = .here).map Strand.step,
    m.strands.map Strand.step + (Fork.waiting m.forks).map Fork.branch⟩

namespace Census

inductive Shift (f : Flow) (policy : EnginePolicy) : Census → Census → Prop where
  | stay (c : Census) : Shift f policy c c
  /-- A step is over, but its strand still stands there. -/
  | settle {visited here stands : Multiset String} (id : String) :
      Shift f policy ⟨visited, id ::ₘ here, stands⟩ ⟨visited, here, stands⟩
  | drop {visited here stands : Multiset String} (id : String) :
      Shift f policy ⟨visited, here, id ::ₘ stands⟩ ⟨visited, here, stands⟩
  | next {visited here stands : Multiset String} {p : Place} {s : Step} (hp : f.Has p)
      (hs : p.next? = some s) :
      Shift f policy ⟨visited, here, p.id ::ₘ stands⟩
        ⟨s.id ::ₘ visited, s.id ::ₘ here, s.id ::ₘ stands⟩
  | climb {visited here stands : Multiset String} {p o : Place} {scope : Scope} (hp : f.Has p)
      (ho : f.Has o) (hs : p.scopes = o.scopes ++ [scope]) (hid : o.id = scope.owner)
      (hk : f.forksAt policy scope.owner = false) :
      Shift f policy ⟨visited, here, p.id ::ₘ stands⟩ ⟨visited, here, o.id ::ₘ stands⟩
  | enter {visited here stands : Multiset String} {o : Place} {scope : Scope} {h : Step}
      {rest : List Step} (ho : f.Has o) (hi : (scope, h :: rest) ∈ o.step.inner)
      (hk : o.step.forks policy = false) :
      Shift f policy ⟨visited, o.id ::ₘ here, o.id ::ₘ stands⟩
        ⟨h.id ::ₘ visited, h.id ::ₘ here, h.id ::ₘ stands⟩
  | split {visited here stands : Multiset String} {o : Place} {kind : BranchKind} {join : Quorum}
      {paths taken : List (Path Step)} (id : String) (ho : f.Has o)
      (hb : o.step.body = .branch kind join paths) (hk : policy.forks kind = true)
      (ht : taken.Sublist paths) :
      Shift f policy ⟨visited, o.id ::ₘ here, stands⟩
        ⟨((Path.heads id taken).map Activation.step : List String) + visited,
          ((Path.heads id taken).map Activation.step : List String) + here,
          ((Path.heads id taken).map Activation.step : List String) + stands⟩

end Census

@[simp] theorem Fork.branch_report (g : Fork) (path : String) :
    (g.report path).branch = g.branch := by
  unfold Fork.report
  split <;> rfl

namespace Front

variable {f : Flow} {policy : EnginePolicy} {m n : Front}

theorem census_put_here (m : Front) (step : String) (fork : Option String) :
    (m.put ⟨step, fork, .here⟩).census =
      ⟨m.census.visited, step ::ₘ m.census.here, step ::ₘ m.census.stands⟩ := by
  simp [census]

theorem census_put {phase : Phase} (h : phase ≠ .here) (m : Front) (step : String)
    (fork : Option String) :
    (m.put ⟨step, fork, phase⟩).census =
      ⟨m.census.visited, m.census.here, step ::ₘ m.census.stands⟩ := by
  simp [census, h]

theorem census_visit (m : Front) (as : List Activation) :
    (m.visit as).census =
      ⟨(as.map Activation.step : List String) + m.census.visited,
        (as.map Activation.step : List String) + m.census.here,
        (as.map Activation.step : List String) + m.census.stands⟩ := by
  have hhere : (as.map Activation.strand).filter (fun s => decide (s.phase = .here)) =
      as.map Activation.strand := by
    apply List.filter_eq_self.mpr
    intro s hs
    obtain ⟨a, _, rfl⟩ := List.mem_map.mp hs
    rfl
  simp only [census, visit_visited, visit_strands, visit_forks, Multiset.map_add, Multiset.map_coe,
    Multiset.filter_add, Multiset.filter_coe, hhere, List.map_map]
  rw [Multiset.add_assoc]
  rfl

theorem census_visit_one (m : Front) (step : String) (fork : Option String) :
    (m.visit [⟨step, fork⟩]).census =
      ⟨step ::ₘ m.census.visited, step ::ₘ m.census.here, step ::ₘ m.census.stands⟩ :=
  census_visit m _

/-- Every turn that is no GOTO changes the census in one of these ways, the end of the run in two
of them. -/
theorem Turn.recount (unique : f.ids.Nodup) (hg : ∀ p, f.Has p → ∀ t, p.step.body ≠ .goto t)
    (ht : Turn f policy m n) (hm : m.Mirror f policy) :
    Relation.ReflTransGen (Census.Shift f policy) m.census n.census := by
  cases ht with
  | @pass m p fork hp =>
    rw [census_put_here, census_put (by simp)]
    exact .single (.settle p.id)
  | @quit m p status fork hp hb =>
    rw [census_put_here, census_put (by simp)]
    exact .single (.settle p.id)
  | @next m p s fork hp hs =>
    rw [census_visit_one, census_put (by simp)]
    exact .single (.next hp hs)
  | stop hp hs =>
    rw [census_put (by simp), census_put (by simp)]
  | @exhaust m p fork hp hs =>
    rw [census_put (by simp)]
    exact .single (.drop p.id)
  | @climb m p o scope fork hp ho hs hid hf =>
    have hfork := (Mirror.climb unique hp ho hs hf hm.of_put).1
    rw [census_put (by simp), census_put (by simp)]
    exact .single (.climb hp ho hs hid hfork)
  | @absorb m p scope g hp hs hg hb hj =>
    rw [census_put (by simp)]
    exact .single (.drop p.id)
  | @report m p scope g pre post hp hs hg hb hj hr =>
    rw [census_put (by simp)]
    have he : (m.withForks (pre ++ g.report scope.id :: post)).census = m.census := by
      simp only [census, withForks_visited, withForks_strands, withForks_forks, hg,
        Fork.waiting_middle, hj, hr, Bool.false_eq_true, if_false, Multiset.map_cons,
        Fork.branch_report]
    rw [he]
    exact .single (.drop p.id)
  | @join m p scope g pre post hp hs hg hb hj hr =>
    rw [census_put (by simp), census_put (by simp)]
    have he : (⟨(m.withForks (pre ++ g.report scope.id :: post)).census.visited,
        (m.withForks (pre ++ g.report scope.id :: post)).census.here,
        g.branch ::ₘ (m.withForks (pre ++ g.report scope.id :: post)).census.stands⟩ : Census) =
        m.census := by
      simp only [census, withForks_visited, withForks_strands, withForks_forks, hg,
        Fork.waiting_middle, hj, hr, if_true, Bool.false_eq_true, if_false, Multiset.map_cons,
        Multiset.add_cons]
    rw [he]
    exact .single (.drop p.id)
  | @enter m o scope h rest fork ho hi hk =>
    rw [census_visit_one, census_put_here]
    exact .single (.enter ho hi hk)
  | @split m o kind join paths taken fork id ho hb hk ht hne hid hj =>
    rw [census_visit, census_put_here]
    have he : (m.withForks (m.forks ++ [Fork.opening id o.id fork join taken])).census =
        ⟨m.census.visited, m.census.here, o.id ::ₘ m.census.stands⟩ := by
      simp only [census, withForks_visited, withForks_strands, withForks_forks,
        Fork.waiting_middle, hj, Bool.false_eq_true, if_false, List.append_nil, Multiset.map_cons,
        Multiset.add_cons]
      rfl
    rw [he]
    exact .single (.split id ho hb hk ht)
  | @splitOn m o kind join paths taken fork id ho hb hk ht hne hid hj =>
    rw [census_put_here, census_put (by simp), census_visit]
    have he : (m.withForks (m.forks ++ [Fork.opening id o.id fork join taken])).census =
        m.census := by
      simp only [census, withForks_visited, withForks_strands, withForks_forks,
        Fork.waiting_middle, hj, if_true, List.append_nil]
    rw [he, ← Multiset.add_cons]
    exact .single (.split id ho hb hk ht)
  | goto hp hb _ _ => exact absurd hb (hg _ hp _)
  | @terminate m p status fork hp hb he =>
    rw [census_put_here]
    exact .tail (.single (.settle p.id)) (.drop p.id)

end Front

end Workflow
