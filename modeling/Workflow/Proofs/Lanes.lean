import Workflow.Plan
import Workflow.Proofs.Tree

namespace Workflow

/-- Whether branches of a kind send a run down all paths that open, not down one of them. -/
def EnginePolicy.forks (policy : EnginePolicy) : BranchKind → Bool
  | .singleChoice => false
  | .multiChoice => policy.multiChoice == .fanOut
  | .parallel => true

def Step.forks (policy : EnginePolicy) (s : Step) : Bool :=
  match s.body with
  | .branch kind _ _ => policy.forks kind
  | _ => false

/-- The fork as it was opened, without what its paths reported since. -/
def Fork.frame (g : Fork) : Fork :=
  { g with finished := [], joined := false }

namespace Flow

variable (f : Flow) (policy : EnginePolicy)

/-- Whether the step with that id is a branch that forks. -/
def forksAt (id : String) : Bool :=
  (f.find? id).any fun p => p.step.forks policy

def lane? (scopes : List Scope) : Option Scope :=
  (scopes.filter fun s => f.forksAt policy s.owner).getLast?

/-- The owners of the scopes inside of the innermost lane, from the innermost. -/
def awaiting (scopes : List Scope) : List String :=
  (scopes.reverse.takeWhile fun s => !f.forksAt policy s.owner).map Scope.owner

/-- Whether a fork is the one that a strand in some scopes is part of: none outside of all lanes,
else one of the lane's branch that went down the lane. -/
def Matches (forks : List Fork) (scopes : List Scope) (fork : Option String) : Prop :=
  match f.lane? policy scopes with
  | none => fork = none
  | some lane => ∃ g ∈ forks, fork = some g.id ∧ g.branch = lane.owner ∧ lane.id ∈ g.paths

def Mirrors (forks : List Fork) (step : String) (fork : Option String) : Prop :=
  ∃ p, f.Has p ∧ p.id = step ∧ f.Matches policy forks p.scopes fork

/-- The id of the innermost lane around the step with that id. -/
def laneOf (id : String) : String :=
  ((f.find? id).bind fun p => f.lane? policy p.scopes).elim "" Scope.id

/-- The steps that are under way while a strand is at the step with that id: the step itself and
the owners around it, out to the innermost lane. -/
def underWay (id : String) : List String :=
  id :: (f.find? id).elim [] fun p => f.awaiting policy p.scopes

end Flow

namespace Flow

variable {f : Flow} {policy : EnginePolicy}

@[simp] theorem lane?_nil : f.lane? policy [] = none := rfl

theorem lane?_append (scopes : List Scope) (s : Scope) :
    f.lane? policy (scopes ++ [s]) =
      if f.forksAt policy s.owner then some s else f.lane? policy scopes := by
  unfold lane?
  rw [List.filter_append]
  cases h : f.forksAt policy s.owner <;> simp [h]

theorem awaiting_append (scopes : List Scope) (s : Scope) :
    f.awaiting policy (scopes ++ [s]) =
      if f.forksAt policy s.owner then [] else s.owner :: f.awaiting policy scopes := by
  unfold awaiting
  rw [List.reverse_append, List.reverse_singleton, List.singleton_append, List.takeWhile_cons]
  cases h : f.forksAt policy s.owner <;> simp

theorem owner_of_mem_awaiting {scopes : List Scope} {id : String}
    (h : id ∈ f.awaiting policy scopes) : ∃ s ∈ scopes, s.owner = id := by
  obtain ⟨s, hs, rfl⟩ := List.mem_map.mp h
  exact ⟨s, List.mem_reverse.mp ((List.takeWhile_sublist _).subset hs), rfl⟩

/-- Only the frames of the forks matter. -/
theorem Matches.of_frames {forks forks' : List Fork} {scopes : List Scope} {fork : Option String}
    (h : f.Matches policy forks scopes fork)
    (hsub : forks.map Fork.frame ⊆ forks'.map Fork.frame) :
    f.Matches policy forks' scopes fork := by
  unfold Matches at h ⊢
  cases hl : f.lane? policy scopes with
  | none => simpa [hl] using h
  | some lane =>
    rw [hl] at h
    obtain ⟨g, hg, rfl, hb, hp⟩ := h
    obtain ⟨g', hg', he⟩ := List.mem_map.mp (hsub (List.mem_map_of_mem hg))
    simp only [Fork.frame, Fork.mk.injEq] at he
    exact ⟨g', hg', by rw [he.1], by rw [he.2.1, hb], by rwa [he.2.2.2.1]⟩

theorem Mirrors.of_frames {forks forks' : List Fork} {step : String} {fork : Option String}
    (h : f.Mirrors policy forks step fork)
    (hsub : forks.map Fork.frame ⊆ forks'.map Fork.frame) :
    f.Mirrors policy forks' step fork := by
  obtain ⟨p, hp, hid, hm⟩ := h
  exact ⟨p, hp, hid, hm.of_frames hsub⟩

theorem Matches.fork_mem {forks : List Fork} {scopes : List Scope} {id : String}
    (h : f.Matches policy forks scopes (some id)) :
    ∃ g ∈ forks, g.id = id ∧ ∃ lane, f.lane? policy scopes = some lane ∧
      g.branch = lane.owner ∧
      lane.id ∈ g.paths := by
  unfold Matches at h
  split at h
  · cases h
  · rename_i lane hl
    obtain ⟨g, hg, he, hb, hp⟩ := h
    exact ⟨g, hg, (Option.some.inj he).symm, lane, hl, hb, hp⟩

theorem Matches.fork_none {forks : List Fork} {scopes : List Scope} {fork : Option String}
    (h : f.Matches policy forks scopes fork) (hl : f.lane? policy scopes = none) : fork = none := by
  simpa [Matches, hl] using h

section Unique

variable (unique : f.ids.Nodup)
include unique

theorem forksAt_eq {p : Place} (hp : f.Has p) : f.forksAt policy p.id = p.step.forks policy := by
  simp [forksAt, hp.find? unique]

theorem forksAt_branch {o : Place} {kind : BranchKind} {join : Quorum} {paths : List (Path Step)}
    (ho : f.Has o) (hb : o.step.body = .branch kind join paths) (hk : policy.forks kind = true) :
    f.forksAt policy o.step.id = true := by
  have hat : f.forksAt policy o.id = o.step.forks policy := forksAt_eq unique ho
  simpa [Step.forks, hb, hk, Place.id] using hat

theorem laneOf_eq {p : Place} (hp : f.Has p) :
    f.laneOf policy p.id = (f.lane? policy p.scopes).elim "" Scope.id := by
  simp [laneOf, hp.find? unique]

theorem underWay_eq {p : Place} (hp : f.Has p) :
    f.underWay policy p.id = p.id :: f.awaiting policy p.scopes := by
  simp [underWay, hp.find? unique]

theorem Mirrors.at {forks : List Fork} {p : Place} {fork : Option String}
    (h : f.Mirrors policy forks p.id fork) (hp : f.Has p) :
    f.Matches policy forks p.scopes fork := by
  obtain ⟨q, hq, hid, hm⟩ := h
  rwa [hq.eq_of_id unique hp hid] at hm

end Unique

end Flow

end Workflow
