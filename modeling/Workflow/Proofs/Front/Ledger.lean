import Workflow.Proofs.Front.Mirror

namespace Workflow

/-- A share of a fork or of the main path, with the lane it lies in. -/
abbrev Share := Option String × String

structure Ledger where
  shares : Multiset Share
  forks : List Fork
  ended : Nat

/-- The share that a fork holds for its branch. -/
def Fork.share (f : Flow) (policy : EnginePolicy) (g : Fork) : Share :=
  (g.parent, f.laneOf policy g.branch)

def Strand.share (f : Flow) (policy : EnginePolicy) (s : Strand) : Share :=
  (s.fork, f.laneOf policy s.step)

def Front.ledger (f : Flow) (policy : EnginePolicy) (m : Front) : Ledger :=
  ⟨m.strands.map (Strand.share f policy) + (Fork.waiting m.forks).map (Fork.share f policy),
    m.forks, m.ended⟩

namespace Ledger

/-- How turns shift shares. -/
inductive Shift (f : Flow) (policy : EnginePolicy) : Ledger → Ledger → Prop where
  | stay (l : Ledger) : Shift f policy l l
  | absorb {shares : Multiset Share} {forks : List Fork} {ended : Nat} {id lane : String}
      (hj : ∀ g ∈ forks, g.id = id → g.joined = true) :
      Shift f policy ⟨(some id, lane) ::ₘ shares, forks, ended⟩ ⟨shares, forks, ended⟩
  /-- A strand ends the run, from outside of all forks if scopes are ended alone. -/
  | finish {shares : Multiset Share} {forks : List Fork} {ended : Nat} {s : Share}
      (hd : (forks.map Fork.id).Nodup) (hs : policy.terminate = .endScope → s.1 = none) :
      Shift f policy ⟨s ::ₘ shares, forks, ended⟩ ⟨shares, forks, ended + 1⟩
  | report {shares : Multiset Share} {pre post : List Fork} {ended : Nat} {g : Fork} {lane : String}
      (hd : ∀ k ∈ pre ++ post, k.id ≠ g.id) (hj : g.joined = false) :
      Shift f policy ⟨(some g.id, lane) ::ₘ shares, pre ++ g :: post, ended⟩
        ⟨shares, pre ++ g.report lane :: post, ended⟩
  | split {shares : Multiset Share} {forks : List Fork} {ended : Nat} {g : Fork} {o : Place}
      {kind : BranchKind} {paths taken : List (Path Step)}
      (hs : g.Stems f policy o kind paths taken)
      (hf : g.finished = (taken.filter fun p => p.steps.isEmpty).map Path.id)
      (hj : g.joined = g.isEnough) (hd : g.id ∉ forks.map Fork.id)
      (hn : ∀ s ∈ shares, s.1 ≠ some g.id) :
      Shift f policy ⟨shares, forks, ended⟩
        ⟨(((taken.filter fun p => !p.steps.isEmpty).map fun p => (some g.id, p.id) : List Share) :
          Multiset Share) + shares, forks ++ [g], ended⟩
  | goto {shares : Multiset Share} {forks : List Fork} {ended : Nat} {s : Share} {p : Place}
      {target : String} (hp : f.Has p) (hb : p.step.body = .goto target)
      (hd : (forks.map Fork.id).Nodup) :
      Shift f policy ⟨s ::ₘ shares, forks, ended⟩ ⟨(none, "") ::ₘ shares, forks, ended⟩

end Ledger

namespace Front

variable {f : Flow} {policy : EnginePolicy} {m n : Front}

theorem ledger_put (m : Front) (s : Strand) :
    (m.put s).ledger f policy =
      ⟨s.share f policy ::ₘ (m.ledger f policy).shares, m.forks, m.ended⟩ := by
  simp [ledger]

theorem ledger_visit_one (m : Front) (a : Activation) :
    (m.visit [a]).ledger f policy =
      ⟨a.strand.share f policy ::ₘ (m.ledger f policy).shares, m.forks, m.ended⟩ := by
  simp [ledger, ← Multiset.singleton_add, Multiset.add_assoc]

/-- How far a strand is with its step makes no difference. -/
theorem ledger_put_phase (m : Front) (step : String) (fork : Option String) (a b : Phase) :
    (m.put ⟨step, fork, a⟩).ledger f policy = (m.put ⟨step, fork, b⟩).ledger f policy := by
  rw [ledger_put, ledger_put]
  rfl

theorem share_eq_none {p : Place} {fork : Option String} {phase : Phase}
    (unique : f.ids.Nodup) (hp : f.Has p) (hs : p.scopes = [])
    (h : (m.put ⟨p.id, fork, phase⟩).Mirror f policy) : fork = none := by
  apply (h.of_put.at unique hp).fork_none
  rw [hs, Flow.lane?_nil]

end Front

theorem Fork.share_report (f : Flow) (policy : EnginePolicy) (g : Fork) (path : String) :
    (g.report path).share f policy = g.share f policy := by
  have h := g.frame_report path
  simp only [Fork.frame, Fork.mk.injEq] at h
  simp only [Fork.share, h.2.1, h.2.2.1]

theorem Front.distinct_others {forks pre post : List Fork} {g : Fork}
    (hd : (forks.map Fork.id).Nodup) (hg : forks = pre ++ g :: post) :
    ∀ k ∈ pre ++ post, k.id ≠ g.id := by
  rw [hg, (List.perm_middle.map Fork.id).nodup_iff, List.map_cons, List.nodup_cons] at hd
  intro k hk he
  exact hd.1 (he ▸ List.mem_map_of_mem hk)

theorem Fork.Stems.forksAt {f : Flow} {policy : EnginePolicy} {g : Fork} {o : Place}
    {kind : BranchKind} {paths taken : List (Path Step)} (unique : f.ids.Nodup)
    (h : g.Stems f policy o kind paths taken) : f.forksAt policy g.branch = true := by
  rw [← h.id, Flow.forksAt_eq unique h.has]
  simp [Step.forks, h.body, h.forks]

namespace Front

variable {f : Flow} {policy : EnginePolicy} {m n : Front} (unique : f.ids.Nodup)
include unique

/-- A strand that leaves a path of its fork's branch stands in that lane. -/
theorem laneOf_leaving {p : Place} {scope : Scope} {g : Fork} (hm : m.Mirror f policy)
    (hp : f.Has p) (hs : p.scope? = some scope) (hg : g ∈ m.forks) (hb : g.branch = scope.owner) :
    f.laneOf policy p.id = scope.id := by
  obtain ⟨o, _, _, hscopes⟩ := hp.owner hs
  obtain ⟨b, kind, paths, taken, hstems⟩ := hm.branches g hg
  rw [Flow.laneOf_eq unique hp, hscopes, Flow.lane?_append, ← hb, hstems.forksAt unique]
  rfl

omit unique in
/-- No share names a fork that is not on the front. -/
theorem known_shares (hm : m.Mirror f policy) :
    ∀ s ∈ (m.ledger f policy).shares, ∀ id, s.1 = some id → id ∈ m.forks.map Fork.id := by
  intro s hs id hid
  have hknown : ∀ step : String, f.Mirrors policy m.forks step (some id) →
      id ∈ m.forks.map Fork.id := by
    rintro step ⟨p, _, _, hmatch⟩
    obtain ⟨g, hg, rfl, _⟩ := hmatch.fork_mem
    exact List.mem_map_of_mem hg
  rcases Multiset.mem_add.mp hs with hs | hs
  · obtain ⟨t, ht, rfl⟩ := Multiset.mem_map.mp hs
    have := hm.strands t ht
    rw [show t.fork = some id from hid] at this
    exact hknown _ this
  · obtain ⟨g, hg, rfl⟩ := Multiset.mem_map.mp hs
    have := hm.parent (List.mem_filter.mp (Multiset.mem_coe.mp hg)).1
    rw [show g.parent = some id from hid] at this
    exact hknown _ this

theorem laneOf_next {p : Place} {s : Step} (hp : f.Has p) (hs : p.next? = some s) :
    f.laneOf policy s.id = f.laneOf policy p.id := by
  have hn := hp.next hs
  rw [Flow.laneOf_eq unique hp]
  exact Flow.laneOf_eq unique hn

theorem laneOf_inner {p o : Place} {scope : Scope} (hp : f.Has p) (ho : f.Has o)
    (hs : p.scopes = o.scopes ++ [scope]) (hf : f.forksAt policy scope.owner = false) :
    f.laneOf policy p.id = f.laneOf policy o.id := by
  rw [Flow.laneOf_eq unique hp, Flow.laneOf_eq unique ho, hs, Flow.lane?_append, hf]
  rfl

/-- The first steps of the paths that a fork takes hold the shares of these paths. -/
theorem shares_heads {o : Place} {kind : BranchKind} {join : Quorum}
    {paths taken : List (Path Step)} (id : String) (ho : f.Has o)
    (hb : o.step.body = .branch kind join paths) (hk : policy.forks kind = true)
    (ht : taken.Sublist paths) :
    (Path.heads id taken).map (fun a => a.strand.share f policy) =
      (taken.filter fun p => !p.steps.isEmpty).map fun p => (some id, p.id) := by
  induction taken with
  | nil => rfl
  | cons p rest ih =>
    have hrest := ih ((List.sublist_cons_self p rest).trans ht)
    cases hp : p.steps with
    | nil => simpa [Path.heads, hp] using hrest
    | cons s steps =>
      have hin := Path.inner_of_branch hb (ht.subset List.mem_cons_self)
      have hs : f.Has ⟨s, p.steps, 0, o.scopes ++ [⟨.path, o.step.id, p.id⟩]⟩ :=
        .inner ho hin (by rw [hp]; rfl)
      have hlane : f.laneOf policy s.id = p.id := by
        refine (Flow.laneOf_eq unique hs).trans ?_
        rw [Flow.lane?_append, if_pos (Flow.forksAt_branch unique ho hb hk)]
        rfl
      have hhead : Path.heads id (p :: rest) = ⟨s.id, some id⟩ :: Path.heads id rest := by
        simp [Path.heads, hp]
      rw [hhead, List.map_cons, hrest]
      simp [Activation.strand, Strand.share, hlane, hp]

/-- A new fork takes over the share that its branch held, unless it has joined already. -/
theorem ledger_opening {o : Place} {kind : BranchKind} {join : Quorum}
    {paths taken : List (Path Step)} {id : String} (fork : Option String) (ho : f.Has o)
    (hb : o.step.body = .branch kind join paths) (hk : policy.forks kind = true)
    (ht : taken.Sublist paths) :
    ((m.withForks (m.forks ++ [Fork.opening id o.id fork join taken])).visit
        (Path.heads id taken)).ledger f policy =
      ⟨((taken.filter fun p => !p.steps.isEmpty).map fun p => (some id, p.id) : List Share) +
        (if (Fork.opening id o.id fork join taken).joined then (m.ledger f policy).shares
          else Strand.share f policy ⟨o.id, fork, .here⟩ ::ₘ (m.ledger f policy).shares),
        m.forks ++ [Fork.opening id o.id fork join taken], m.ended⟩ := by
  have hheads := shares_heads unique id ho hb hk ht
  simp only [ledger, visit_strands, visit_forks, visit_ended, withForks_strands, withForks_forks,
    withForks_ended, Multiset.map_add, Multiset.map_coe, List.map_map, Function.comp_def, hheads,
    Fork.waiting_middle, List.append_nil]
  rw [Multiset.add_assoc]
  cases (Fork.opening id o.id fork join taken).joined with
  | false =>
    rw [if_neg Bool.false_ne_true, if_neg Bool.false_ne_true, Multiset.map_cons, Multiset.add_cons]
    rfl
  | true => rw [if_pos rfl, if_pos rfl]

omit unique in
theorem fresh_share {s : Strand} {id : String} (hm : (m.put s).Mirror f policy)
    (hid : id ∉ m.forks.map Fork.id) :
    ∀ t ∈ ((m.put s).ledger f policy).shares, t.1 ≠ some id :=
  fun t ht he => hid (known_shares hm t ht id he)

/-- Every turn shifts shares. -/
theorem Turn.shift (ht : Turn f policy m n) (hm : m.Mirror f policy) :
    Ledger.Shift f policy (m.ledger f policy) (n.ledger f policy) := by
  cases ht with
  | pass _ =>
    rw [ledger_put_phase _ _ _ .here .behind]
    exact .stay _
  | quit _ _ =>
    rw [ledger_put_phase _ _ _ .here .leaving]
    exact .stay _
  | stop _ _ =>
    rw [ledger_put_phase _ _ _ .behind .leaving]
    exact .stay _
  | @next m p s fork hp hs =>
    rw [ledger_put, ledger_visit_one]
    have hlane : f.laneOf policy s.id = f.laneOf policy p.id := laneOf_next unique hp hs
    simp only [Strand.share, Activation.strand, hlane]
    exact .stay _
  | @exhaust m p fork hp hs =>
    have hnone := share_eq_none unique hp hs hm
    rw [ledger_put]
    exact .finish hm.distinct fun _ => hnone
  | @climb m p o scope fork hp ho hs hid hf =>
    have hfork := (Mirror.climb unique hp ho hs hf hm.of_put).1
    rw [ledger_put, ledger_put]
    have hlane := laneOf_inner unique hp ho hs hfork
    simp only [Strand.share, hlane]
    exact .stay _
  | @absorb m p scope g hp hs hg hb hj =>
    rw [ledger_put]
    refine .absorb ?_
    intro k hk he
    rw [hm.eq_of_id hk hg he]
    exact hj
  | @report m p scope g pre post hp hs hg hb hj hr =>
    have hlane := laneOf_leaving unique hm hp hs (by simp [hg]) hb
    have hd := distinct_others hm.distinct hg
    rw [ledger_put]
    simp only [ledger, Strand.share, hlane, withForks_strands, withForks_forks, withForks_ended, hg,
      Fork.waiting_middle, hj, hr, Bool.false_eq_true, if_false, Multiset.map_cons,
      Fork.share_report]
    exact .report hd hj
  | @join m p scope g pre post hp hs hg hb hj hr =>
    have hlane := laneOf_leaving unique hm hp hs (by simp [hg]) hb
    have hd := distinct_others hm.distinct hg
    rw [ledger_put, ledger_put]
    simp only [ledger, Strand.share, hlane, withForks_strands, withForks_forks, withForks_ended, hg,
      Fork.waiting_middle, hj, hr, if_true, Bool.false_eq_true, if_false, Multiset.map_cons]
    rw [Multiset.add_cons]
    exact .report hd hj
  | @enter m o scope h rest fork ho hi hk =>
    have hp : f.Has ⟨h, h :: rest, 0, o.scopes ++ [scope]⟩ := .inner ho hi rfl
    have hfork : f.forksAt policy scope.owner = false := by
      rw [Step.owner_of_inner hi]
      exact (Flow.forksAt_eq unique ho).trans hk
    have hlane : f.laneOf policy h.id = f.laneOf policy o.id :=
      laneOf_inner unique hp ho rfl hfork
    rw [ledger_put, ledger_visit_one]
    simp only [Strand.share, Activation.strand, hlane]
    exact .stay _
  | @split m o kind join paths taken fork id ho hb hk ht hne hid hj =>
    have hn := fresh_share hm hid
    rw [ledger_put] at hn ⊢
    rw [ledger_opening unique fork ho hb hk ht, if_neg (by simp [hj])]
    exact .split (Fork.opening_stems id fork ho hb hk ht hne) rfl rfl hid hn
  | @splitOn m o kind join paths taken fork id ho hb hk ht hne hid hj =>
    have hn := fresh_share hm hid
    rw [ledger_put] at hn ⊢
    rw [ledger_put, ledger_opening unique fork ho hb hk ht, if_pos hj, ← Multiset.add_cons]
    exact .split (Fork.opening_stems id fork ho hb hk ht hne) rfl rfl hid hn
  | @goto m p q target fork hp hb hq hs =>
    rw [ledger_put, ledger_visit_one]
    have hlane : f.laneOf policy q.id = "" := by
      rw [Flow.laneOf_eq unique hq, hs]
      rfl
    simp only [Strand.share, Activation.strand, hlane]
    exact .goto hp hb hm.distinct
  | @terminate m p status fork hp hb he =>
    rw [ledger_put]
    refine .finish hm.distinct ?_
    intro hend
    rcases he with he | hs
    · rw [hend] at he
      cases he
    · exact share_eq_none unique hp hs hm

end Front

end Workflow
