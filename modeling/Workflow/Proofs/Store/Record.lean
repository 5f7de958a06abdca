import Mathlib.Data.String.Basic
import Workflow.Store

namespace Workflow.Store

variable {δ : Type}

inductive Stored (δ : Type) where
  | flow (r : FlowRecord δ)
  | run (r : RunRecord δ)

def Stored.key : Stored δ → Key
  | .flow r => .flow r.id
  | .run r => .run r.run.id

namespace State

def stored? (s : State δ) : Key → Option (Stored δ)
  | .flow id => (s.flows.find? id).map fun entry => .flow entry.value
  | .run id => (s.runs.find? id).map fun entry => .run entry.value

/-- Publishing a record replaces it and no other. -/
theorem stored?_publish {s working : State δ} {key : Key} (h : (working.stored? key).isSome)
    (k : Key) :
    (s.publish working key).stored? k = if k = key then working.stored? k else s.stored? k := by
  cases key with
  | flow id =>
    cases hf : working.flows.find? id with
    | none => simp [stored?, hf] at h
    | some entry =>
      cases k with
      | flow other =>
        by_cases hk : other = id
        · simp [publish, stored?, hf, hk, Table.find?_put_self]
        · simp [publish, stored?, hf, hk, Table.find?_put_of_ne hk]
      | run other => simp [publish, stored?, hf]
  | run id =>
    cases hf : working.runs.find? id with
    | none => simp [stored?, hf] at h
    | some entry =>
      cases k with
      | flow other => simp [publish, stored?, hf]
      | run other =>
        by_cases hk : other = id
        · simp [publish, stored?, hf, hk, Table.find?_put_self]
        · simp [publish, stored?, hf, hk, Table.find?_put_of_ne hk]

/-- It adds one to the count of its commits. -/
theorem commits_publish {s working : State δ} {key : Key} (h : (working.stored? key).isSome)
    (k : Key) :
    (s.publish working key).commits k = s.commits k + if k = key then 1 else 0 := by
  cases key with
  | flow id =>
    cases hf : working.flows.find? id with
    | none => simp [stored?, hf] at h
    | some entry =>
      cases k with
      | flow other =>
        by_cases hk : other = id
        · simp [publish, commits, hf, hk, Table.find?_put_self]
        · simp [publish, commits, hf, hk, Table.find?_put_of_ne hk]
      | run other => simp [publish, commits, hf]
  | run id =>
    cases hf : working.runs.find? id with
    | none => simp [stored?, hf] at h
    | some entry =>
      cases k with
      | flow other => simp [publish, commits, hf]
      | run other =>
        by_cases hk : other = id
        · simp [publish, commits, hf, hk, Table.find?_put_self]
        · simp [publish, commits, hf, hk, Table.find?_put_of_ne hk]

/-- The committed state with the records of some keys taken from another state. -/
def publishAll (s working : State δ) (keys : List Key) : State δ :=
  keys.foldl (fun s key => s.publish working key) s

theorem stored?_publishAll {s working : State δ} {keys : List Key}
    (h : ∀ key ∈ keys, (working.stored? key).isSome) (k : Key) :
    (s.publishAll working keys).stored? k =
      if k ∈ keys then working.stored? k else s.stored? k := by
  induction keys generalizing s with
  | nil => simp [publishAll]
  | cons key rest ih =>
    have hrest := ih (s := s.publish working key) fun other hin =>
      h other (List.mem_cons_of_mem _ hin)
    rw [publishAll, List.foldl_cons, ← publishAll, hrest,
      stored?_publish (h key List.mem_cons_self)]
    by_cases hk : k ∈ rest <;> by_cases hkey : k = key <;> simp [hk, hkey]

/-- Publishing several records adds one to the count of each. -/
theorem commits_publishAll {s working : State δ} {keys : List Key} (nodup : keys.Nodup)
    (h : ∀ key ∈ keys, (working.stored? key).isSome) (k : Key) :
    (s.publishAll working keys).commits k = s.commits k + if k ∈ keys then 1 else 0 := by
  induction keys generalizing s with
  | nil => simp [publishAll]
  | cons key rest ih =>
    obtain ⟨hkey, nodup⟩ := List.nodup_cons.mp nodup
    have hrest := ih (s := s.publish working key) nodup fun other hin =>
      h other (List.mem_cons_of_mem _ hin)
    rw [publishAll, List.foldl_cons, ← publishAll, hrest,
      commits_publish (h key List.mem_cons_self)]
    by_cases hk : k = key
    · subst hk
      simp [hkey]
    · simp [hk]

end State

section Keys

/-- Different keys have different labels. -/
theorem Key.label_injective : Function.Injective Key.label := by
  intro a b h
  cases a <;> cases b <;> simp only [Key.label] at h
  · simpa using h
  · have := congrArg (fun s : String => s.toList.head?) h
    simp at this
  · have := congrArg (fun s : String => s.toList.head?) h
    simp at this
  · simpa using h

def Sorted (keys : List Key) : Prop :=
  keys.Pairwise fun a b => a.label < b.label

theorem Sorted.nodup {keys : List Key} (h : Sorted keys) : keys.Nodup := by
  refine List.Pairwise.imp ?_ h
  rintro a b hlt rfl
  exact lt_irrefl _ hlt

theorem mem_insertKey {key k : Key} {keys : List Key} :
    k ∈ insertKey key keys ↔ k = key ∨ k ∈ keys := by
  induction keys with
  | nil => simp [insertKey]
  | cons a rest ih =>
    unfold insertKey
    split
    · rename_i ha
      subst ha
      simp
    · split
      · simp
      · rw [List.mem_cons, ih, List.mem_cons]
        tauto

theorem Sorted.insertKey {key : Key} {keys : List Key} (h : Sorted keys) :
    Sorted (insertKey key keys) := by
  induction keys with
  | nil => simp [Store.insertKey, Sorted]
  | cons a rest ih =>
    obtain ⟨hall, hrest⟩ := List.pairwise_cons.mp h
    unfold Store.insertKey
    split
    · exact h
    · rename_i hne
      split
      · rename_i hlt
        refine List.pairwise_cons.mpr ⟨fun b hb => ?_, h⟩
        rcases List.mem_cons.mp hb with rfl | hb
        · exact hlt
        · exact lt_trans hlt (hall b hb)
      · rename_i hlt
        refine List.pairwise_cons.mpr ⟨fun b hb => ?_, ih hrest⟩
        rcases mem_insertKey.mp hb with rfl | hb
        · exact lt_of_le_of_ne (not_lt.mp hlt) fun heq => hne (Key.label_injective heq)
        · exact hall b hb

end Keys

namespace Transaction

variable {t t' : Transaction δ}

def put (t : Transaction δ) : Stored δ → Transaction δ
  | .flow r => t.putFlow r
  | .run r => t.putRun r

@[simp] theorem written_put (t : Transaction δ) (r : Stored δ) :
    (t.put r).written = insertKey r.key t.written := by
  cases r <;> rfl

/-- A transaction reads what it wrote, and what was there otherwise. -/
theorem stored?_put (t : Transaction δ) (r : Stored δ) (k : Key) :
    (t.put r).working.stored? k = if k = r.key then some r else t.working.stored? k := by
  cases r with
  | flow r =>
    cases k with
    | flow id =>
      by_cases h : id = r.id
      · simp [put, putFlow, State.stored?, Stored.key, h, Table.find?_put_self]
      · simp [put, putFlow, State.stored?, Stored.key, h, Table.find?_put_of_ne h]
    | run id => simp [put, putFlow, State.stored?, Stored.key]
  | run r =>
    cases k with
    | flow id => simp [put, putRun, State.stored?, Stored.key]
    | run id =>
      by_cases h : id = r.run.id
      · simp [put, putRun, State.stored?, Stored.key, h, Table.find?_put_self]
      · simp [put, putRun, State.stored?, Stored.key, h, Table.find?_put_of_ne h]

/-- A record that is put in place keeps its count of commits. -/
theorem commits_put (t : Transaction δ) (r : Stored δ) (k : Key) :
    (t.put r).working.commits k = t.working.commits k := by
  cases r with
  | flow r =>
    cases k with
    | flow id =>
      by_cases h : id = r.id
      · simp [put, putFlow, State.commits, h, Table.find?_put_self]
      · simp [put, putFlow, State.commits, Table.find?_put_of_ne h]
    | run id => simp [put, putFlow, State.commits]
  | run r =>
    cases k with
    | flow id => simp [put, putRun, State.commits]
    | run id =>
      by_cases h : id = r.run.id
      · simp [put, putRun, State.commits, h, Table.find?_put_self]
      · simp [put, putRun, State.commits, Table.find?_put_of_ne h]

theorem stored?_flow (t : Transaction δ) (id : String) :
    t.working.stored? (.flow id) = (t.getFlow id).map .flow := by
  simp [State.stored?, getFlow, Option.map_map, Function.comp_def]

theorem stored?_run (t : Transaction δ) (id : String) :
    t.working.stored? (.run id) = (t.getRun id).map .run := by
  simp [State.stored?, getRun, Option.map_map, Function.comp_def]

end Transaction

inductive Write (δ : Type) where
  | insertFlow (r : FlowRecord δ)
  | updateFlow (r : FlowRecord δ)
  | insertRun (r : RunRecord δ)
  | updateRun (r : RunRecord δ)

def Write.stored (t : Transaction δ) (now : UInt64) : Write δ → Stored δ
  | .insertFlow r =>
    let created := if r.createdAt = 0 then now else r.createdAt
    .flow { r with createdAt := created, updatedAt := created }
  | .updateFlow r =>
    let created := ((t.getFlow r.id).map FlowRecord.createdAt).getD r.createdAt
    .flow { r with createdAt := created, updatedAt := now }
  | .insertRun r | .updateRun r => .run { r with updatedAt := now }

def Transaction.write (t : Transaction δ) (now : UInt64) : Write δ →
    Except Error (Transaction δ)
  | .insertFlow r => t.insertFlow r now
  | .updateFlow r => t.updateFlow r now
  | .insertRun r => t.insertRun r now
  | .updateRun r => t.updateRun r now

namespace Transaction

variable {t t' : Transaction δ} {now : UInt64} {w : Write δ}

/-- Only an unfinished transaction writes, and a write puts its record in place. Over a flow that is
there, only the next version is written. -/
theorem write_ok (h : t.write now w = .ok t') :
    t.isActive = true ∧ t' = t.put (w.stored t now) ∧
      ∀ old new, t.working.stored? (w.stored t now).key = some (.flow old) →
        w.stored t now = .flow new → new.version = old.version + 1 := by
  cases w with
  | insertFlow r =>
    simp only [write, insertFlow] at h
    split at h
    · cases h
    · rename_i hactive
      split at h
      · cases h
      · split at h
        · cases h
        · rename_i habsent
          cases h
          refine ⟨by simpa using hactive, rfl, fun old new hold _ => ?_⟩
          rw [Write.stored, Stored.key, stored?_flow] at hold
          obtain ⟨_, hold, _⟩ := Option.map_eq_some_iff.mp hold
          simp [hold] at habsent
  | updateFlow r =>
    simp only [write, updateFlow] at h
    split at h
    · cases h
    · rename_i hactive
      split at h
      · cases h
      · rename_i stored hstored
        split at h
        · cases h
        · rename_i hversion
          cases h
          refine ⟨by simpa using hactive, by simp [put, Write.stored, hstored], ?_⟩
          intro old new hold hnew
          simp only [Write.stored, Stored.key, stored?_flow, hstored, Option.map_some,
            Option.some.injEq, Stored.flow.injEq] at hold hnew
          rw [← hnew, ← hold]
          simpa using hversion
  | insertRun r =>
    simp only [write, insertRun] at h
    split at h
    · cases h
    · rename_i hactive
      split at h
      · cases h
      · split at h <;> cases h
        exact ⟨by simpa using hactive, rfl, by simp [Write.stored]⟩
  | updateRun r =>
    simp only [write, updateRun] at h
    split at h
    · cases h
    · rename_i hactive
      split at h <;> cases h
      exact ⟨by simpa using hactive, rfl, by simp [Write.stored]⟩

end Transaction

end Workflow.Store
