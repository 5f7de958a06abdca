import Mathlib.Data.Multiset.AddSub
import Mathlib.Data.Multiset.MapFold
import Workflow.Proofs.Lanes

/-!
Fronts. A front is what counts of a run for its further course: the strands under way, the forks,
the activations so far, and how many strands ran off the end. The turns are all a single strand can
do. Routing is left open: a strand may turn into any path or outcome that its step has.
-/

namespace Workflow

inductive Phase where
  | here | behind | leaving
  deriving DecidableEq, Repr

/-- A strand of a run: at a step that has started, behind a step that is over, or on its way out of
the scope around a step. -/
structure Strand where
  step : String
  fork : Option String
  phase : Phase
  deriving DecidableEq, Repr

def Activation.strand (a : Activation) : Strand :=
  ⟨a.step, a.fork, .here⟩

structure Front where
  strands : Multiset Strand
  visited : Multiset Activation
  forks : List Fork
  ended : Nat

namespace Front

def put (m : Front) (s : Strand) : Front :=
  { m with strands := s ::ₘ m.strands }

def visit (m : Front) (as : List Activation) : Front :=
  { m with
    strands := (as.map Activation.strand : List Strand) + m.strands
    visited := (as : Multiset Activation) + m.visited }

def withForks (m : Front) (forks : List Fork) : Front :=
  { m with forks := forks }

def finish (m : Front) : Front :=
  { m with ended := m.ended + 1 }

@[simp] theorem put_strands (m : Front) (s : Strand) : (m.put s).strands = s ::ₘ m.strands := rfl
@[simp] theorem put_visited (m : Front) (s : Strand) : (m.put s).visited = m.visited := rfl
@[simp] theorem put_forks (m : Front) (s : Strand) : (m.put s).forks = m.forks := rfl
@[simp] theorem put_ended (m : Front) (s : Strand) : (m.put s).ended = m.ended := rfl

@[simp] theorem visit_strands (m : Front) (as : List Activation) :
    (m.visit as).strands = (as.map Activation.strand : List Strand) + m.strands := rfl
@[simp] theorem visit_visited (m : Front) (as : List Activation) :
    (m.visit as).visited = (as : Multiset Activation) + m.visited := rfl
@[simp] theorem visit_forks (m : Front) (as : List Activation) :
    (m.visit as).forks = m.forks := rfl
@[simp] theorem visit_ended (m : Front) (as : List Activation) : (m.visit as).ended = m.ended := rfl

@[simp] theorem withForks_strands (m : Front) (forks : List Fork) :
    (m.withForks forks).strands = m.strands := rfl
@[simp] theorem withForks_visited (m : Front) (forks : List Fork) :
    (m.withForks forks).visited = m.visited := rfl
@[simp] theorem withForks_forks (m : Front) (forks : List Fork) :
    (m.withForks forks).forks = forks := rfl
@[simp] theorem withForks_ended (m : Front) (forks : List Fork) :
    (m.withForks forks).ended = m.ended := rfl

@[simp] theorem finish_strands (m : Front) : m.finish.strands = m.strands := rfl
@[simp] theorem finish_visited (m : Front) : m.finish.visited = m.visited := rfl
@[simp] theorem finish_forks (m : Front) : m.finish.forks = m.forks := rfl
@[simp] theorem finish_ended (m : Front) : m.finish.ended = m.ended + 1 := rfl

end Front

/-- The fork that a branch opens when a run goes down some of its paths. -/
def Fork.opening (id branch : String) (parent : Option String) (join : Quorum)
    (taken : List (Path Step)) : Fork :=
  let opened : Fork :=
    { id := id
      branch := branch
      parent := parent
      paths := taken.map Path.id
      finished := (taken.filter fun p => p.steps.isEmpty).map Path.id
      join := join
      joined := false }
  { opened with joined := opened.isEnough }

def Path.heads (fork : String) (taken : List (Path Step)) : List Activation :=
  taken.filterMap fun p => p.steps.head?.map fun s => ⟨s.id, some fork⟩

theorem Path.inner_of_branch {s : Step} {kind : BranchKind} {join : Quorum}
    {paths : List (Path Step)} (hb : s.body = .branch kind join paths) {p : Path Step}
    (hp : p ∈ paths) : (⟨.path, s.id, p.id⟩, p.steps) ∈ s.inner := by
  rw [Step.inner, hb]
  exact List.mem_map.mpr ⟨p, hp, rfl⟩

theorem Path.mem_heads {fork : String} {taken : List (Path Step)} {a : Activation}
    (ha : a ∈ Path.heads fork taken) :
    ∃ p ∈ taken, ∃ s rest, p.steps = s :: rest ∧ a = ⟨s.id, some fork⟩ := by
  obtain ⟨p, hp, hh⟩ := List.mem_filterMap.mp ha
  obtain ⟨s, hs, rfl⟩ := Option.map_eq_some_iff.mp hh
  obtain ⟨rest, hrest⟩ := List.head?_eq_some_iff.mp hs
  exact ⟨p, hp, s, rest, hrest, rfl⟩

theorem Path.map_step_heads (fork : String) (taken : List (Path Step)) :
    (Path.heads fork taken).map Activation.step =
      taken.filterMap fun p => p.steps.head?.map Step.id := by
  simp [Path.heads, List.map_filterMap, Function.comp_def]

theorem Path.heads_sublist {s : Step} {kind : BranchKind} {join : Quorum}
    {paths taken : List (Path Step)} (fork : String) (hb : s.body = .branch kind join paths)
    (ht : taken.Sublist paths) : ((Path.heads fork taken).map Activation.step).Sublist s.heads := by
  rw [map_step_heads, Step.heads_branch hb]
  exact ht.filterMap _

def Fork.waiting (forks : List Fork) : Multiset Fork :=
  (forks.filter fun g => !g.joined : List Fork)

theorem Fork.waiting_middle (pre post : List Fork) (g : Fork) :
    Fork.waiting (pre ++ g :: post) =
      if g.joined then Fork.waiting (pre ++ post) else g ::ₘ Fork.waiting (pre ++ post) := by
  unfold Fork.waiting
  cases h : g.joined
  · simp only [List.filter_append, h, List.filter_cons, Bool.not_false, if_true,
      Bool.false_eq_true, if_false]
    exact Multiset.coe_eq_coe.mpr List.perm_middle
  · simp [h]

/-- All that one strand can do, given the flow and the policy. -/
inductive Front.Turn (f : Flow) (policy : EnginePolicy) : Front → Front → Prop where
  /-- The step is over, and whatever it opens is left aside. -/
  | pass {m : Front} {p : Place} {fork : Option String} (hp : f.Has p) :
      Turn f policy (m.put ⟨p.id, fork, .here⟩) (m.put ⟨p.id, fork, .behind⟩)
  /-- A TERMINATE ends its scope. -/
  | quit {m : Front} {p : Place} {status : TerminateStatus} {fork : Option String} (hp : f.Has p)
      (hb : p.step.body = .terminate status) :
      Turn f policy (m.put ⟨p.id, fork, .here⟩) (m.put ⟨p.id, fork, .leaving⟩)
  | next {m : Front} {p : Place} {s : Step} {fork : Option String} (hp : f.Has p)
      (hs : p.next? = some s) :
      Turn f policy (m.put ⟨p.id, fork, .behind⟩) (m.visit [⟨s.id, fork⟩])
  | stop {m : Front} {p : Place} {fork : Option String} (hp : f.Has p) (hs : p.next? = none) :
      Turn f policy (m.put ⟨p.id, fork, .behind⟩) (m.put ⟨p.id, fork, .leaving⟩)
  /-- A strand leaves the main path, which ends the run. -/
  | exhaust {m : Front} {p : Place} {fork : Option String} (hp : f.Has p) (hs : p.scopes = []) :
      Turn f policy (m.put ⟨p.id, fork, .leaving⟩) m.finish
  /-- A strand leaves a scope that is no lane of its fork. -/
  | climb {m : Front} {p o : Place} {scope : Scope} {fork : Option String} (hp : f.Has p)
      (ho : f.Has o) (hs : p.scopes = o.scopes ++ [scope]) (hid : o.id = scope.owner)
      (hf : ∀ g ∈ m.forks, fork = some g.id → g.branch ≠ scope.owner) :
      Turn f policy (m.put ⟨p.id, fork, .leaving⟩) (m.put ⟨o.id, fork, .behind⟩)
  /-- A strand leaves a lane of its fork after the fork has joined. -/
  | absorb {m : Front} {p : Place} {scope : Scope} {g : Fork} (hp : f.Has p)
      (hs : p.scope? = some scope) (hg : g ∈ m.forks) (hb : g.branch = scope.owner)
      (hj : g.joined = true) :
      Turn f policy (m.put ⟨p.id, some g.id, .leaving⟩) m
  /-- A strand leaves a lane of its fork, and the fork waits for others. -/
  | report {m : Front} {p : Place} {scope : Scope} {g : Fork} {pre post : List Fork}
      (hp : f.Has p) (hs : p.scope? = some scope) (hg : m.forks = pre ++ g :: post)
      (hb : g.branch = scope.owner) (hj : g.joined = false)
      (hr : (g.report scope.id).joined = false) :
      Turn f policy (m.put ⟨p.id, some g.id, .leaving⟩)
        (m.withForks (pre ++ g.report scope.id :: post))
  /-- A strand leaves a lane of its fork, which joins the fork. -/
  | join {m : Front} {p : Place} {scope : Scope} {g : Fork} {pre post : List Fork}
      (hp : f.Has p) (hs : p.scope? = some scope) (hg : m.forks = pre ++ g :: post)
      (hb : g.branch = scope.owner) (hj : g.joined = false)
      (hr : (g.report scope.id).joined = true) :
      Turn f policy (m.put ⟨p.id, some g.id, .leaving⟩)
        ((m.withForks (pre ++ g.report scope.id :: post)).put ⟨g.branch, g.parent, .behind⟩)
  /-- A strand enters a scope of its step that is no lane. -/
  | enter {m : Front} {o : Place} {scope : Scope} {h : Step} {rest : List Step}
      {fork : Option String} (ho : f.Has o) (hi : (scope, h :: rest) ∈ o.step.inner)
      (hk : o.step.forks policy = false) :
      Turn f policy (m.put ⟨o.id, fork, .here⟩) (m.visit [⟨h.id, fork⟩])
  /-- A branch opens a fork, which waits for its paths. -/
  | split {m : Front} {o : Place} {kind : BranchKind} {join : Quorum}
      {paths taken : List (Path Step)} {fork : Option String} {id : String} (ho : f.Has o)
      (hb : o.step.body = .branch kind join paths) (hk : policy.forks kind = true)
      (ht : taken.Sublist paths) (hne : taken ≠ []) (hid : id ∉ m.forks.map Fork.id)
      (hj : (Fork.opening id o.id fork join taken).joined = false) :
      Turn f policy (m.put ⟨o.id, fork, .here⟩)
        ((m.withForks (m.forks ++ [Fork.opening id o.id fork join taken])).visit
          (Path.heads id taken))
  /-- A branch opens a fork that has joined already by its paths without steps. -/
  | splitOn {m : Front} {o : Place} {kind : BranchKind} {join : Quorum}
      {paths taken : List (Path Step)} {fork : Option String} {id : String} (ho : f.Has o)
      (hb : o.step.body = .branch kind join paths) (hk : policy.forks kind = true)
      (ht : taken.Sublist paths) (hne : taken ≠ []) (hid : id ∉ m.forks.map Fork.id)
      (hj : (Fork.opening id o.id fork join taken).joined = true) :
      Turn f policy (m.put ⟨o.id, fork, .here⟩)
        (((m.withForks (m.forks ++ [Fork.opening id o.id fork join taken])).visit
          (Path.heads id taken)).put ⟨o.id, fork, .behind⟩)
  /-- A GOTO leaves all scopes and forks. -/
  | goto {m : Front} {p q : Place} {target : String} {fork : Option String} (hp : f.Has p)
      (hb : p.step.body = .goto target) (hq : f.Has q) (hs : q.scopes = []) :
      Turn f policy (m.put ⟨p.id, fork, .here⟩) (m.visit [⟨q.id, none⟩])
  /-- A TERMINATE ends the run. -/
  | terminate {m : Front} {p : Place} {status : TerminateStatus} {fork : Option String}
      (hp : f.Has p) (hb : p.step.body = .terminate status)
      (he : policy.terminate = .endRun ∨ p.scopes = []) :
      Turn f policy (m.put ⟨p.id, fork, .here⟩) m.finish

namespace Front

abbrev Turns (f : Flow) (policy : EnginePolicy) : Front → Front → Prop :=
  Relation.ReflTransGen (Turn f policy)

/-- Where a run begins: at the first step of the main path, if there is one. -/
def initial (f : Flow) : Front :=
  match f.steps with
  | [] => ⟨0, 0, [], 1⟩
  | s :: _ => (⟨0, 0, [], 0⟩ : Front).visit [⟨s.id, none⟩]

def Reached (f : Flow) (policy : EnginePolicy) (m : Front) : Prop :=
  Turns f policy (initial f) m

/-- What the start has and every turn keeps holds of all fronts that a run can come to. -/
theorem Reached.induct {f : Flow} {policy : EnginePolicy} {P : Front → Prop}
    (start : P (initial f))
    (turn : ∀ {m n : Front}, Reached f policy m → P m → Turn f policy m n → P n)
    {m : Front} (h : Reached f policy m) : P m := by
  induction h with
  | refl => exact start
  | tail hr ht ih => exact turn hr ih ht

end Front

end Workflow
