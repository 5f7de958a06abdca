import Mathlib.Logic.Function.Basic
import Workflow.Proofs.Store.Record

namespace Workflow.Store

variable {δ : Type}

namespace Transaction

variable {t : Transaction δ} {s : State δ}

theorem overtaken?_eq_none :
    t.overtaken? s = none ↔ ∀ k ∈ t.written, s.commits k = t.working.commits k := by
  simp [overtaken?, List.find?_eq_none]

theorem commit_ok (hactive : t.isActive = true)
    (h : ∀ k ∈ t.written, s.commits k = t.working.commits k) :
    t.commit s = .ok ({ t with phase := .committed }, s.publishAll t.working t.written) := by
  have hphase : t.phase = .active := by simpa [isActive] using hactive
  rw [commit, hphase, overtaken?_eq_none.mpr h]
  rfl

theorem commit_refused (hactive : t.isActive = true)
    (h : ¬ ∀ k ∈ t.written, s.commits k = t.working.commits k) :
    ∃ k, t.commit s = .error (.overtaken k) := by
  have hphase : t.phase = .active := by simpa [isActive] using hactive
  obtain ⟨k, hk⟩ := Option.ne_none_iff_exists'.mp (mt overtaken?_eq_none.mp h)
  exact ⟨k, by rw [commit, hphase, hk]⟩

/-- A transaction that is over publishes nothing. -/
theorem commit_of_finished (hactive : t.isActive = false) {t' : Transaction δ} {s' : State δ}
    (h : t.commit s = .ok (t', s')) : t' = t ∧ s' = s := by
  unfold commit at h
  split at h
  · cases h
    exact ⟨rfl, rfl⟩
  · cases h
  · rename_i hphase
    simp [isActive, hphase] at hactive

@[simp] theorem working_rollback (t : Transaction δ) : t.rollback.working = t.working := by
  unfold rollback
  split <;> rfl

@[simp] theorem written_rollback (t : Transaction δ) : t.rollback.written = t.written := by
  unfold rollback
  split <;> rfl

theorem isActive_rollback (t : Transaction δ) : t.rollback.isActive = false := by
  unfold rollback
  split
  · rename_i h
    have hphase : t.phase = .committed := by simpa [isCommitted] using h
    simp [isActive, hphase]
  · rfl

end Transaction

/-- A commit that went through: the transaction, and the records it published. -/
structure Publication where
  author : Nat
  keys : List Key

structure Attempt (δ : Type) where
  tx : Transaction δ
  /-- What was committed when it began. -/
  base : State δ
  /-- How many commits had gone through when it began. -/
  since : Nat
  /-- What it wrote, the latest first. -/
  puts : List (Stored δ) := []

namespace Attempt

/-- The state at the beginning with the transaction's own writes laid over. -/
def sees (a : Attempt δ) (k : Key) : Option (Stored δ) :=
  (a.puts.find? fun r => r.key = k).or (a.base.stored? k)

def count (a : Attempt δ) (k : Key) : Nat :=
  a.puts.countP fun r => r.key = k

end Attempt

/-- A store, the transactions that were started on it, and the commits that went through. -/
structure Repository (δ : Type) where
  committed : State δ := {}
  attempts : Nat → Option (Attempt δ) := fun _ => none
  next : Nat := 0
  log : List Publication := []

inductive Request (δ : Type) where
  | begin
  | getFlow (tx : Nat) (id : String)
  | getRun (tx : Nat) (id : String)
  | write (tx : Nat) (w : Write δ) (now : UInt64)
  | commit (tx : Nat)
  | rollback (tx : Nat)
  | drop (tx : Nat)

inductive Answer (δ : Type) where
  | began (tx : Nat)
  | flow (r : Option (FlowRecord δ))
  | run (r : Option (RunRecord δ))
  | done
  | refused (e : Error)
  | unknown

namespace Repository

/-- The repository with what became of one transaction. -/
def set (R : Repository δ) (i : Nat) (a : Option (Attempt δ)) : Repository δ :=
  { R with attempts := Function.update R.attempts i a }

/-- Commits a transaction; the commit is logged unless it repeats an earlier one. -/
def commit (R : Repository δ) (i : Nat) (a : Attempt δ) : Repository δ × Answer δ :=
  match a.tx.commit R.committed with
  | .error e => (R, .refused e)
  | .ok (tx, committed) =>
    let log := if a.tx.isActive then R.log ++ [⟨i, a.tx.written⟩] else R.log
    ({ R.set i (some { a with tx := tx }) with committed := committed, log := log }, .done)

def write (R : Repository δ) (i : Nat) (a : Attempt δ) (w : Write δ) (now : UInt64) :
    Repository δ × Answer δ :=
  match a.tx.write now w with
  | .error e => (R, .refused e)
  | .ok tx => (R.set i (some { a with tx := tx, puts := w.stored a.tx now :: a.puts }), .done)

/-- Answers one request. -/
def serve (R : Repository δ) (q : Request δ) : Repository δ × Answer δ :=
  let on := fun (i : Nat) (f : Attempt δ → Repository δ × Answer δ) =>
    match R.attempts i with
    | some a => f a
    | none => (R, .unknown)
  match q with
  | .begin =>
    let a := { tx := R.committed.begin, base := R.committed, since := R.log.length }
    ({ R.set R.next (some a) with next := R.next + 1 }, .began R.next)
  | .getFlow i id => on i fun a => (R, .flow (a.tx.getFlow id))
  | .getRun i id => on i fun a => (R, .run (a.tx.getRun id))
  | .write i w now => on i fun a => R.write i a w now
  | .commit i => on i fun a => R.commit i a
  | .rollback i => on i fun a => (R.set i (some { a with tx := a.tx.rollback }), .done)
  | .drop i => on i fun _ => (R.set i none, .done)

/-- What comes of requests to a new store. -/
inductive Reached : Repository δ → Prop where
  | start : Reached {}
  | serve {R : Repository δ} (h : Reached R) (q : Request δ) : Reached (R.serve q).1

end Repository

/-- What is known of a transaction among the commits that went through. -/
structure Attempt.Sound (committed : State δ) (log : List Publication) (i : Nat) (a : Attempt δ) :
    Prop where
  reads : ∀ k, a.tx.working.stored? k = a.sees k
  written : ∀ k, k ∈ a.tx.written ↔ ∃ r ∈ a.puts, r.key = k
  sorted : Sorted a.tx.written
  since_le : a.since ≤ log.length
  /-- The count of a record has gone up by its commits since it began, as far as a word can tell. -/
  counted : ∀ k, committed.commits k = a.tx.working.commits k +
    UInt64.ofNat ((log.drop a.since).countP fun c => k ∈ c.keys)
  /-- A record that nobody committed is what it was. -/
  kept : ∀ k, (∀ c ∈ log.drop a.since, k ∉ c.keys) →
    committed.stored? k = a.base.stored? k
  /-- A transaction that is under way has committed nothing. -/
  pending : a.tx.isActive = true → ∀ c ∈ log, c.author ≠ i
  /-- The version of a flow tells how often it was updated. -/
  versions : ∀ id r, a.base.stored? (.flow id) = some (.flow r) →
    ∃ r', a.sees (.flow id) = some (.flow r') ∧
      r'.version = r.version + UInt64.ofNat (a.count (.flow id))

namespace Attempt

variable {committed : State δ} {log : List Publication} {i : Nat} {a : Attempt δ}

theorem Sound.begin (hlog : ∀ c ∈ log, c.author ≠ i) :
    Sound committed log i { tx := committed.begin, base := committed, since := log.length } where
  reads k := by simp [sees, State.begin]
  written k := by simp [State.begin]
  sorted := List.Pairwise.nil
  since_le := le_rfl
  counted k := by simp [State.begin]
  kept k _ := rfl
  pending _ := hlog
  versions id r h := ⟨r, by simpa [sees] using h, by simp [count]⟩

/-- What is known outlives any change of the phase. -/
theorem Sound.phase (h : a.Sound committed log i) {tx : Transaction δ}
    (hworking : tx.working = a.tx.working) (hwritten : tx.written = a.tx.written)
    (hactive : tx.isActive = false) : Sound committed log i { a with tx := tx } where
  reads k := by rw [hworking]; exact h.reads k
  written k := by rw [hwritten]; exact h.written k
  sorted := by rw [hwritten]; exact h.sorted
  since_le := h.since_le
  counted k := by rw [hworking]; exact h.counted k
  kept := h.kept
  pending := by simp [hactive]
  versions := h.versions

theorem sees_put (r : Stored δ) (tx : Transaction δ) (k : Key) :
    sees { a with tx := tx, puts := r :: a.puts } k = if k = r.key then some r else a.sees k := by
  by_cases hk : r.key = k
  · simp [sees, hk]
  · simp [sees, hk, Ne.symm hk]

theorem count_put (r : Stored δ) (tx : Transaction δ) (k : Key) :
    count { a with tx := tx, puts := r :: a.puts } k =
      a.count k + if k = r.key then 1 else 0 := by
  by_cases hk : r.key = k
  · simp [count, hk]
  · simp [count, hk, Ne.symm hk]

/-- A write keeps what is known of its transaction. -/
theorem Sound.write (h : a.Sound committed log i) {w : Write δ} {now : UInt64}
    {tx : Transaction δ}
    (hw : a.tx.write now w = .ok tx) :
    Sound committed log i { a with tx := tx, puts := w.stored a.tx now :: a.puts } := by
  obtain ⟨hactive, rfl, hversion⟩ := Transaction.write_ok hw
  refine { reads := ?_, written := ?_, sorted := ?_, since_le := h.since_le, counted := ?_,
           kept := h.kept, pending := fun _ => h.pending hactive, versions := ?_ }
  · intro k
    rw [Transaction.stored?_put, sees_put, h.reads]
  · intro k
    rw [Transaction.written_put, mem_insertKey, h.written]
    simp [eq_comm]
  · rw [Transaction.written_put]
    exact h.sorted.insertKey
  · intro k
    rw [Transaction.commits_put]
    exact h.counted k
  · intro id r hbase
    obtain ⟨r', hsees, hr'⟩ := h.versions id r hbase
    rw [sees_put, count_put]
    by_cases hk : .flow id = (w.stored a.tx now).key
    · rw [if_pos hk, if_pos hk]
      cases hnew : w.stored a.tx now with
      | run new => simp [hnew, Stored.key] at hk
      | flow new =>
        have hold : a.tx.working.stored? (w.stored a.tx now).key = some (.flow r') := by
          rw [← hk, h.reads, hsees]
        refine ⟨new, rfl, ?_⟩
        rw [hversion r' new hold hnew, hr', UInt64.ofNat_add, UInt64.add_assoc]
        rfl
    · rw [if_neg hk, if_neg hk]
      exact ⟨r', hsees, hr'⟩

/-- What a transaction writes is there to be published. -/
theorem Sound.present (h : a.Sound committed log i) :
    ∀ k ∈ a.tx.written, (a.tx.working.stored? k).isSome := by
  intro k hk
  obtain ⟨r, hr, rfl⟩ := (h.written k).mp hk
  have hfind : (a.puts.find? fun s => s.key = r.key).isSome = true := by
    rw [List.isSome_find?, List.any_eq_true]
    exact ⟨r, hr, by simp⟩
  rw [h.reads, sees, Option.isSome_or, hfind, Bool.true_or]

/-- What is known of one transaction outlives the commit of another. -/
theorem Sound.publish (h : a.Sound committed log i) {j : Nat} {b : Attempt δ}
    (hb : b.Sound committed log j) (hj : a.tx.isActive = true → j ≠ i) :
    a.Sound (committed.publishAll b.tx.working b.tx.written)
      (log ++ [⟨j, b.tx.written⟩]) i := by
  have hdrop : ∀ c, (log ++ [c]).drop a.since = log.drop a.since ++ [c] :=
    fun c => List.drop_append_of_le_length h.since_le
  refine { reads := h.reads, written := h.written, sorted := h.sorted, since_le := ?_,
           counted := ?_, kept := ?_, pending := ?_, versions := h.versions }
  · rw [List.length_append]
    exact Nat.le_add_right_of_le h.since_le
  · intro k
    rw [State.commits_publishAll hb.sorted.nodup hb.present, h.counted, hdrop, List.countP_append,
      UInt64.ofNat_add, UInt64.add_assoc]
    by_cases hk : k ∈ b.tx.written <;> simp [hk]
  · intro k hk
    rw [hdrop] at hk
    have hkeys : k ∉ b.tx.written := hk ⟨j, b.tx.written⟩ (by simp)
    rw [State.stored?_publishAll hb.present, if_neg hkeys]
    exact h.kept k fun c hc => hk c (List.mem_append_left _ hc)
  · intro hactive c hc
    rcases List.mem_append.mp hc with hc | hc
    · exact h.pending hactive c hc
    · rw [List.mem_singleton] at hc
      rw [hc]
      exact hj hactive

theorem add_ofNat_eq_self_iff {w : UInt64} {n : Nat} : w + UInt64.ofNat n = w ↔ 2 ^ 64 ∣ n := by
  rw [UInt64.add_eq_left, ← UInt64.toNat_inj, UInt64.toNat_ofNat', Nat.dvd_iff_mod_eq_zero]
  rfl

/-- A record that has the count it had was committed in the meantime not at all, or so often that
its count has run through all words. -/
theorem Sound.counted_iff (h : a.Sound committed log i) (k : Key) :
    committed.commits k = a.tx.working.commits k ↔
      2 ^ 64 ∣ (log.drop a.since).countP fun c => k ∈ c.keys := by
  rw [h.counted, add_ofNat_eq_self_iff]

end Attempt

namespace Repository

variable {R : Repository δ}

/-- What is known of a repository. -/
structure Sound (R : Repository δ) : Prop where
  attempts : ∀ i a, R.attempts i = some a → i < R.next ∧ a.Sound R.committed R.log i
  log : ∀ c ∈ R.log, c.author < R.next

theorem Sound.set (h : R.Sound) {i : Nat} {a : Option (Attempt δ)} (hi : i < R.next)
    (ha : ∀ b, a = some b → b.Sound R.committed R.log i) : (R.set i a).Sound where
  attempts j b hb := by
    by_cases hj : j = i
    · subst hj
      exact ⟨hi, ha b (by simpa [Repository.set] using hb)⟩
    · exact h.attempts j b (by simpa [Repository.set, Function.update_of_ne hj] using hb)
  log := h.log

theorem Sound.begin (h : R.Sound) : (R.serve .begin).1.Sound where
  attempts i a ha := by
    by_cases hi : i = R.next
    · subst hi
      simp only [Repository.serve, Repository.set, Function.update_self, Option.some.injEq] at ha
      subst ha
      exact ⟨Nat.lt_succ_self _, .begin fun c hc => (h.log c hc).ne⟩
    · obtain ⟨hlt, hsound⟩ := h.attempts i a (by
        simpa [Repository.serve, Repository.set, Function.update_of_ne hi] using ha)
      exact ⟨Nat.lt_succ_of_lt hlt, hsound⟩
  log c hc := Nat.lt_succ_of_lt (h.log c hc)

theorem commit_done {i : Nat} {a : Attempt δ} (hactive : a.tx.isActive = true)
    (h : ∀ k ∈ a.tx.written, R.committed.commits k = a.tx.working.commits k) :
    R.commit i a =
      ({ R.set i (some { a with tx := { a.tx with phase := .committed } }) with
          committed := R.committed.publishAll a.tx.working a.tx.written
          log := R.log ++ [⟨i, a.tx.written⟩] }, .done) := by
  rw [commit, Transaction.commit_ok hactive h]
  simp [hactive]

theorem commit_refused {i : Nat} {a : Attempt δ} (hactive : a.tx.isActive = true)
    (h : ¬ ∀ k ∈ a.tx.written, R.committed.commits k = a.tx.working.commits k) :
    ∃ e, R.commit i a = (R, .refused e) := by
  obtain ⟨k, hk⟩ := Transaction.commit_refused hactive h
  exact ⟨_, by rw [commit, hk]⟩

/-- A commit of a transaction that is over changes nothing. -/
theorem commit_of_finished {i : Nat} {a : Attempt δ} (ha : R.attempts i = some a)
    (hactive : a.tx.isActive = false) : (R.commit i a).1 = R := by
  unfold commit
  split
  · rfl
  · rename_i tx committed hcommit
    obtain ⟨rfl, rfl⟩ := Transaction.commit_of_finished hactive hcommit
    simp [hactive, Repository.set, ← ha]

/-- So does a commit, of all transactions. -/
theorem Sound.commit (h : R.Sound) {i : Nat} {a : Attempt δ} (ha : R.attempts i = some a) :
    (R.commit i a).1.Sound := by
  obtain ⟨hi, hsound⟩ := h.attempts i a ha
  by_cases hactive : a.tx.isActive = true
  · by_cases hfree : ∀ k ∈ a.tx.written, R.committed.commits k = a.tx.working.commits k
    · rw [commit_done hactive hfree]
      refine ⟨fun j b hb => ?_, fun c hc => ?_⟩
      · by_cases hj : j = i
        · subst hj
          simp only [Repository.set, Function.update_self, Option.some.injEq] at hb
          subst hb
          have hover : Attempt.Sound R.committed R.log j
              { a with tx := { a.tx with phase := .committed } } := hsound.phase rfl rfl rfl
          exact ⟨hi, hover.publish hsound (by simp [Transaction.isActive])⟩
        · obtain ⟨hlt, hb⟩ := h.attempts j b (by
            simpa [Repository.set, Function.update_of_ne hj] using hb)
          exact ⟨hlt, hb.publish hsound fun _ => Ne.symm hj⟩
      · rcases List.mem_append.mp hc with hc | hc
        · exact h.log c hc
        · rw [List.mem_singleton] at hc
          rw [hc]
          exact hi
    · obtain ⟨e, he⟩ := commit_refused (R := R) (i := i) hactive hfree
      rw [he]
      exact h
  · rw [commit_of_finished ha (by simpa using hactive)]
    exact h

/-- No request breaks what is known. -/
theorem Sound.serve (h : R.Sound) (q : Request δ) : (R.serve q).1.Sound := by
  cases q with
  | begin => exact h.begin
  | getFlow i id => simp only [Repository.serve]; split <;> exact h
  | getRun i id => simp only [Repository.serve]; split <;> exact h
  | write i w now =>
    simp only [Repository.serve]
    split
    · rename_i a ha
      obtain ⟨hi, hsound⟩ := h.attempts i a ha
      unfold Repository.write
      split
      · exact h
      · rename_i tx hw
        exact h.set hi (by rintro b ⟨⟩; exact hsound.write hw)
    · exact h
  | commit i =>
    simp only [Repository.serve]
    split
    · rename_i a ha
      exact h.commit ha
    · exact h
  | rollback i =>
    simp only [Repository.serve]
    split
    · rename_i a ha
      obtain ⟨hi, hsound⟩ := h.attempts i a ha
      exact h.set hi
        (by rintro b ⟨⟩; exact hsound.phase (by simp) (by simp) a.tx.isActive_rollback)
    · exact h
  | drop i =>
    simp only [Repository.serve]
    split
    · rename_i a ha
      exact h.set (h.attempts i a ha).1 (by rintro b ⟨⟩)
    · exact h

theorem Reached.sound (h : R.Reached) : R.Sound := by
  induction h with
  | start => exact ⟨by rintro i a ⟨⟩, by simp⟩
  | serve _ q ih => exact ih.serve q

/-- Only the commit of a transaction that is under way changes what is committed. -/
theorem committed_serve (q : Request δ)
    (hq : ∀ i a, q = .commit i → R.attempts i = some a → a.tx.isActive = true →
      (R.serve q).2 ≠ .done) : (R.serve q).1.committed = R.committed := by
  cases q with
  | begin => rfl
  | getFlow i id => simp only [Repository.serve]; split <;> rfl
  | getRun i id => simp only [Repository.serve]; split <;> rfl
  | write i w now =>
    simp only [Repository.serve]
    split
    · unfold Repository.write
      split <;> rfl
    · rfl
  | commit i =>
    cases ha : R.attempts i with
    | none => simp [Repository.serve, ha]
    | some a =>
      have hserve : R.serve (.commit i) = R.commit i a := by simp [Repository.serve, ha]
      rw [hserve] at hq ⊢
      by_cases hactive : a.tx.isActive = true
      · by_cases hfree : ∀ k ∈ a.tx.written, R.committed.commits k = a.tx.working.commits k
        · rw [commit_done hactive hfree] at hq
          exact absurd rfl (hq i a rfl ha hactive)
        · obtain ⟨e, he⟩ := commit_refused (R := R) (i := i) hactive hfree
          rw [he]
      · rw [commit_of_finished ha (by simpa using hactive)]
  | rollback i => simp only [Repository.serve]; split <;> rfl
  | drop i => simp only [Repository.serve]; split <;> rfl

/-- How often others have committed a record since a transaction began. -/
def overtakings (R : Repository δ) (i : Nat) (a : Attempt δ) (k : Key) : Nat :=
  (R.log.drop a.since).countP fun c => c.author ≠ i ∧ k ∈ c.keys

theorem overtakings_eq {i : Nat} {a : Attempt δ} (hsound : a.Sound R.committed R.log i)
    (hactive : a.tx.isActive = true) (k : Key) :
    R.overtakings i a k = (R.log.drop a.since).countP fun c => k ∈ c.keys := by
  refine List.countP_congr fun c hc => ?_
  have hauthor := hsound.pending hactive c (List.mem_of_mem_drop hc)
  simp [hauthor]

theorem overtakings_eq_zero_iff {i : Nat} {a : Attempt δ} {k : Key} :
    R.overtakings i a k = 0 ↔ ∀ c ∈ R.log.drop a.since, c.author ≠ i → k ∉ c.keys := by
  rw [overtakings, List.countP_eq_zero]
  simp

/-- The count of a record tells whether others committed it, unless they did so too often. -/
theorem dvd_overtakings_iff {i : Nat} {a : Attempt δ} {k : Key}
    (hfew : R.overtakings i a k < 2 ^ 64) :
    2 ^ 64 ∣ R.overtakings i a k ↔ ∀ c ∈ R.log.drop a.since, c.author ≠ i →
      k ∉ c.keys := by
  rw [← overtakings_eq_zero_iff]
  constructor
  · intro hdvd
    exact Nat.eq_zero_of_dvd_of_lt hdvd hfew
  · intro hzero
    rw [hzero]
    exact Nat.dvd_zero _

/-- A commit goes through just when no count of a record that it would publish has changed. -/
theorem commit_done_iff {i : Nat} {a : Attempt δ} (hsound : a.Sound R.committed R.log i)
    (ha : R.attempts i = some a) (hactive : a.tx.isActive = true) :
    (R.serve (.commit i)).2 = .done ↔ ∀ k ∈ a.tx.written, 2 ^ 64 ∣ R.overtakings i a k := by
  have hserve : R.serve (.commit i) = R.commit i a := by simp [Repository.serve, ha]
  have hcounts : (∀ k ∈ a.tx.written, 2 ^ 64 ∣ R.overtakings i a k) ↔
      ∀ k ∈ a.tx.written, R.committed.commits k = a.tx.working.commits k :=
    forall₂_congr fun k _ => by rw [overtakings_eq hsound hactive, hsound.counted_iff]
  rw [hserve, hcounts]
  by_cases hfree : ∀ k ∈ a.tx.written, R.committed.commits k = a.tx.working.commits k
  · rw [commit_done hactive hfree]
    simp only [true_iff]
    exact hfree
  · obtain ⟨e, he⟩ := commit_refused (R := R) (i := i) hactive hfree
    rw [he]
    simp only [reduceCtorEq, false_iff]
    exact hfree

/-- As long as no record was committed too often, a commit goes through unless another transaction
committed a record that it would publish. -/
theorem commit_done_iff_of_few {i : Nat} {a : Attempt δ} (hsound : a.Sound R.committed R.log i)
    (ha : R.attempts i = some a) (hactive : a.tx.isActive = true)
    (hfew : ∀ k ∈ a.tx.written, R.overtakings i a k < 2 ^ 64) :
    (R.serve (.commit i)).2 = .done ↔
      ∀ c ∈ R.log.drop a.since, c.author ≠ i → ∀ k ∈ a.tx.written, k ∉ c.keys := by
  have hrecords : (∀ k ∈ a.tx.written, 2 ^ 64 ∣ R.overtakings i a k) ↔
      ∀ k ∈ a.tx.written, ∀ c ∈ R.log.drop a.since, c.author ≠ i → k ∉ c.keys :=
    forall₂_congr fun k hk => dvd_overtakings_iff (hfew k hk)
  rw [commit_done_iff hsound ha hactive, hrecords]
  constructor
  · intro h c hc hauthor k hk
    exact h k hk c hc hauthor
  · intro h k hk c hc hauthor
    exact h c hc hauthor k hk

/-- A commit that goes through publishes what its transaction sees of the records it wrote. -/
theorem stored?_commit {i : Nat} {a : Attempt δ} (hsound : a.Sound R.committed R.log i)
    (ha : R.attempts i = some a) (hactive : a.tx.isActive = true)
    (hdone : (R.serve (.commit i)).2 = .done) (k : Key) :
    (R.serve (.commit i)).1.committed.stored? k =
      if k ∈ a.tx.written then a.sees k else R.committed.stored? k := by
  have hcounts : ∀ k ∈ a.tx.written, R.committed.commits k = a.tx.working.commits k := by
    intro k hk
    rw [hsound.counted_iff, ← overtakings_eq hsound hactive]
    exact (commit_done_iff hsound ha hactive).mp hdone k hk
  have hserve : R.serve (.commit i) = R.commit i a := by simp [Repository.serve, ha]
  rw [hserve, commit_done hactive hcounts]
  simp only [State.stored?_publishAll hsound.present, hsound.reads]

/-- What a commit replaces is what its transaction began with, unless it was committed too often. -/
theorem stored?_replaced {i : Nat} {a : Attempt δ} (hsound : a.Sound R.committed R.log i)
    (ha : R.attempts i = some a) (hactive : a.tx.isActive = true)
    (hdone : (R.serve (.commit i)).2 = .done) {k : Key} (hk : k ∈ a.tx.written)
    (hfew : R.overtakings i a k < 2 ^ 64) : R.committed.stored? k = a.base.stored? k := by
  have hothers := (dvd_overtakings_iff hfew).mp ((commit_done_iff hsound ha hactive).mp hdone k hk)
  exact hsound.kept k fun c hc =>
    hothers c hc (hsound.pending hactive c (List.mem_of_mem_drop hc))

/-- A commit that goes through raises the version of each flow by the number of its updates. -/
theorem version_commit {i : Nat} {a : Attempt δ} (hsound : a.Sound R.committed R.log i)
    (ha : R.attempts i = some a) (hactive : a.tx.isActive = true)
    (hdone : (R.serve (.commit i)).2 = .done) {id : String} {r : FlowRecord δ}
    (hfew : .flow id ∈ a.tx.written → R.overtakings i a (.flow id) < 2 ^ 64)
    (hr : R.committed.stored? (.flow id) = some (.flow r)) :
    ∃ r', (R.serve (.commit i)).1.committed.stored? (.flow id) = some (.flow r') ∧
      r'.version = r.version + UInt64.ofNat (a.count (.flow id)) := by
  have hstored := stored?_commit hsound ha hactive hdone
  by_cases hk : .flow id ∈ a.tx.written
  · rw [hstored, if_pos hk]
    refine hsound.versions id r ?_
    rw [← stored?_replaced hsound ha hactive hdone hk (hfew hk), hr]
  · rw [hstored, if_neg hk]
    have hcount : a.count (.flow id) = 0 := by
      rw [Attempt.count, List.countP_eq_zero]
      intro put hput heq
      exact hk ((hsound.written _).mpr ⟨put, hput, by simpa using heq⟩)
    exact ⟨r, hr, by simp [hcount]⟩

theorem le_of_version {v w : UInt64} {n : Nat} (hw : w = v + UInt64.ofNat n)
    (hfits : v.toNat + n < 2 ^ 64) : v ≤ w := by
  rw [hw, UInt64.le_iff_toNat_le, UInt64.toNat_add, UInt64.toNat_ofNat']
  omega

/-- How a transaction stands apart from the others on its repository. Counts of commits are words: a
record that others committed a multiple of `2 ^ 64` times since the transaction began passes for one
that nobody committed. -/
structure Isolated (R : Repository δ) (i : Nat) (a : Attempt δ) : Prop where
  /-- It reads what was committed when it began, with its own writes laid over. -/
  flows : ∀ id, (a.tx.getFlow id).map .flow = a.sees (.flow id)
  runs : ∀ id, (a.tx.getRun id).map .run = a.sees (.run id)
  writeSet : ∀ k, k ∈ a.tx.written ↔ ∃ r ∈ a.puts, r.key = k
  /-- No record is missing when it is published. -/
  present : ∀ k ∈ a.tx.written, (a.tx.working.stored? k).isSome
  counts : a.tx.isActive = true → ((R.serve (.commit i)).2 = .done ↔
    ∀ k ∈ a.tx.written, 2 ^ 64 ∣ R.overtakings i a k)
  /-- It can be committed exactly if no other committed a record of its write set since. -/
  commits : a.tx.isActive = true → (∀ k ∈ a.tx.written, R.overtakings i a k < 2 ^ 64) →
    ((R.serve (.commit i)).2 = .done ↔
      ∀ c ∈ R.log.drop a.since, c.author ≠ i → ∀ k ∈ a.tx.written, k ∉ c.keys)
  publishes : a.tx.isActive = true → (R.serve (.commit i)).2 = .done → ∀ k,
    (R.serve (.commit i)).1.committed.stored? k =
      if k ∈ a.tx.written then a.sees k else R.committed.stored? k
  /-- What it replaces is what it began with. -/
  replaces : a.tx.isActive = true → (R.serve (.commit i)).2 = .done →
    ∀ k ∈ a.tx.written, R.overtakings i a k < 2 ^ 64 →
      R.committed.stored? k = a.base.stored? k
  /-- Each update counts in the version of a flow, which goes down only when it runs over. -/
  versions : a.tx.isActive = true → (R.serve (.commit i)).2 = .done →
    ∀ id r, (.flow id ∈ a.tx.written → R.overtakings i a (.flow id) < 2 ^ 64) →
      R.committed.stored? (.flow id) = some (.flow r) →
      ∃ r', (R.serve (.commit i)).1.committed.stored? (.flow id) = some (.flow r') ∧
        r'.version = r.version + UInt64.ofNat (a.count (.flow id)) ∧
        (r.version.toNat + a.count (.flow id) < 2 ^ 64 → r.version ≤ r'.version)

/-- Whatever is asked of a store by whom, transactions stay apart, and nothing but the commit of one
that is under way changes what is committed. -/
theorem Reached.isolated (h : R.Reached) :
    (∀ i a, R.attempts i = some a → R.Isolated i a) ∧
      ∀ q, (∀ i a, q = .commit i → R.attempts i = some a → a.tx.isActive = true →
        (R.serve q).2 ≠ .done) → (R.serve q).1.committed = R.committed := by
  refine ⟨fun i a ha => ?_, committed_serve⟩
  have hsound := (h.sound.attempts i a ha).2
  refine { flows := fun id => ?_, runs := fun id => ?_, writeSet := hsound.written,
           present := hsound.present, counts := commit_done_iff hsound ha,
           commits := commit_done_iff_of_few hsound ha, publishes := stored?_commit hsound ha,
           replaces := fun hactive hdone k hk => stored?_replaced hsound ha hactive hdone hk,
           versions := fun hactive hdone id r hfew hr => ?_ }
  · rw [← Transaction.stored?_flow, hsound.reads]
  · rw [← Transaction.stored?_run, hsound.reads]
  · obtain ⟨r', hr', hversion⟩ := version_commit hsound ha hactive hdone hfew hr
    exact ⟨r', hr', hversion, le_of_version hversion⟩

end Repository

namespace Sample

open Repository

def flow (version : UInt64) : FlowRecord Unit :=
  { id := "f", version := version, document := () }

def run : RunRecord Unit :=
  { run := { id := "r" }, document := () }

/-- A flow is committed with that version, and two transactions begin. -/
def started (version : UInt64) : Repository Unit :=
  [.begin, .write 0 (.insertFlow (flow version)) 0, .commit 0, .begin, .begin].foldl
    (fun R q => (R.serve q).1) {}

theorem reached_started (version : UInt64) : (started version).Reached :=
  ((((Reached.start.serve _).serve _).serve _).serve _).serve _

def updated (version : UInt64) : Repository Unit :=
  ((started version).serve (.write 1 (.updateFlow (flow (version + 1))) 0)).1

theorem reached_updated (version : UInt64) : (updated version).Reached :=
  (reached_started version).serve _

def rivals : Repository Unit :=
  ((updated 1).serve (.write 2 (.updateFlow (flow 2)) 0)).1

theorem reached_rivals : rivals.Reached :=
  (reached_updated 1).serve _

end Sample

namespace Repository

theorem Reached.isolated_rivals :
    (Sample.rivals.serve (.commit 1)).2 = .done ∧
      ((Sample.rivals.serve (.commit 1)).1.serve (.commit 2)).2 ≠ .done := by
  have hfirst := Sample.reached_rivals.isolated.1 1 _ rfl
  have hsecond := (Sample.reached_rivals.serve (.commit 1)).isolated.1 2 _ rfl
  constructor
  · exact (hfirst.commits rfl (by decide +kernel)).mpr fun c hc => absurd hc List.not_mem_nil
  · intro hdone
    exact (hsecond.commits rfl (by decide +kernel)).mp hdone ⟨1, [.flow "f"]⟩
      (.head _) (by decide)
      (.flow "f") (.head _) (.head _)

section Overrun

variable {R : Repository δ} {i : Nat} {a : Attempt δ} {r : RunRecord δ}

/-- A run that is there can be committed once more, by a new transaction. -/
theorem Reached.exists_round (h : R.Reached) (ha : R.attempts i = some a)
    (hr : (R.committed.stored? (.run r.run.id)).isSome = true) :
    ∃ R' : Repository δ, R'.Reached ∧ R'.attempts i = some a ∧
      (R'.committed.stored? (.run r.run.id)).isSome = true ∧
      ∃ c : Publication, R'.log = R.log ++ [c] ∧ c.author ≠ i ∧
        c.keys = [.run r.run.id] := by
  have hne : i ≠ R.next := (h.sound.attempts i a ha).1.ne
  let new : Stored δ := .run { r with updatedAt := 0 }
  let b : Attempt δ := ⟨R.committed.begin.put new, R.committed, R.log.length, [new]⟩
  let R₂ : Repository δ := { R.set R.next (some b) with next := R.next + 1 }
  have hupdate : R.committed.begin.write 0 (.updateRun r) = .ok b.tx := by
    have hactive : R.committed.begin.isActive = true := rfl
    have hthere : (R.committed.begin.getRun r.run.id).isNone = false := by
      rw [← Option.isNone_map (f := Stored.run), ← Transaction.stored?_run]
      simpa [State.begin] using hr
    rw [Transaction.write, Transaction.updateRun, if_neg (by simp [hactive]),
      if_neg (by simp [hthere])]
    rfl
  have hwritten : ((R.serve .begin).1.serve (.write R.next (.updateRun r) 0)).1 = R₂ := by
    simp [Repository.serve, Repository.write, Repository.set, hupdate, R₂, b, new, Write.stored]
  have hreached : R₂.Reached :=
    hwritten ▸ (h.serve .begin).serve (.write R.next (.updateRun r) 0)
  have hattempt : R₂.attempts R.next = some b := Function.update_self ..
  have hcounts : ∀ k ∈ b.tx.written, R₂.committed.commits k = b.tx.working.commits k :=
    fun k _ => (Transaction.commits_put R.committed.begin new k).symm
  have hcommit : R₂.serve (.commit R.next) = R₂.commit R.next b := by
    simp [Repository.serve, hattempt]
  rw [commit_done rfl hcounts] at hcommit
  have hpresent := (hreached.sound.attempts R.next b hattempt).2.present
  refine ⟨_, hreached.serve (.commit R.next), ?_, ?_, ⟨R.next, b.tx.written⟩, ?_,
    hne.symm, rfl⟩
  · rw [hcommit]
    simp [Repository.set, Function.update_of_ne hne, R₂, ha]
  · rw [hcommit]
    simp only [State.stored?_publishAll hpresent]
    split
    · rename_i hk
      exact hpresent _ hk
    · exact hr
  · rw [hcommit]
    rfl

/-- A run can be committed any number of times while a transaction is under way. -/
theorem Reached.exists_rounds (h : R.Reached) (ha : R.attempts i = some a)
    (hr : (R.committed.stored? (.run r.run.id)).isSome = true) (n : Nat) :
    ∃ R' : Repository δ, R'.Reached ∧ R'.attempts i = some a ∧
      ∃ l : List Publication, R'.log = R.log ++ l ∧ l.length = n ∧
        ∀ c ∈ l, c.author ≠ i ∧ c.keys = [.run r.run.id] := by
  induction n generalizing R with
  | zero => exact ⟨R, h, ha, [], (List.append_nil _).symm, rfl, by simp⟩
  | succ n ih =>
    obtain ⟨R₁, h₁, ha₁, hr₁, c, hlog₁, hc⟩ := h.exists_round ha hr
    obtain ⟨R₂, h₂, ha₂, l, hlog₂, hlength, hl⟩ := ih h₁ ha₁ hr₁
    refine ⟨R₂, h₂, ha₂, c :: l, ?_, by rw [List.length_cons, hlength], ?_⟩
    · rw [hlog₂, hlog₁, List.append_assoc, List.singleton_append]
    · simpa using ⟨hc, hl⟩

end Overrun

end Repository

namespace Sample

/-- A run is committed, and a transaction writes it and is still under way. -/
def holding : Repository Unit :=
  [.begin, .write 0 (.insertRun run) 0, .commit 0, .begin, .write 1 (.updateRun run) 0].foldl
    (fun R q => (R.serve q).1) {}

end Sample

namespace Repository

/-- A transaction is committed although others committed what it writes: the count of the record has
run through all words in the meantime. -/
theorem exists_unnoticed : ∃ (R : Repository Unit) (a : Attempt Unit), R.Reached ∧
    R.attempts 1 = some a ∧ a.tx.isActive = true ∧ (R.serve (.commit 1)).2 = .done ∧
      ∃ c ∈ R.log.drop a.since, c.author ≠ 1 ∧ ∃ k ∈ a.tx.written, k ∈ c.keys := by
  have hstart : Sample.holding.Reached :=
    ((((Reached.start.serve _).serve _).serve _).serve _).serve _
  obtain ⟨a, ha, hactive, hwritten, hsince⟩ : ∃ a, Sample.holding.attempts 1 = some a ∧
      a.tx.isActive = true ∧ a.tx.written = [.run "r"] ∧ a.since = Sample.holding.log.length :=
    ⟨_, rfl, rfl, rfl, rfl⟩
  obtain ⟨R, hR, haR, l, hlog, hlength, hl⟩ :=
    hstart.exists_rounds (r := Sample.run) ha rfl (2 ^ 64)
  have hlate : R.log.drop a.since = l := by rw [hlog, hsince, List.drop_left]
  have hall : R.overtakings 1 a (.run "r") = 2 ^ 64 := by
    rw [overtakings, hlate, ← hlength, List.countP_eq_length]
    intro c hc
    obtain ⟨hauthor, hkeys⟩ := hl c hc
    simp [hauthor, hkeys, Sample.run]
  have hdone : (R.serve (.commit 1)).2 = .done := by
    refine (commit_done_iff (hR.sound.attempts 1 a haR).2 haR hactive).mpr fun k hk => ?_
    rw [hwritten, List.mem_singleton] at hk
    subst hk
    exact ⟨1, hall.trans (Nat.mul_one _).symm⟩
  obtain ⟨c, hc⟩ : ∃ c, c ∈ l :=
    List.exists_mem_of_length_pos (by rw [hlength]; exact Nat.two_pow_pos 64)
  obtain ⟨hauthor, hkeys⟩ := hl c hc
  refine ⟨R, a, hR, haR, hactive, hdone, c, hlate ▸ hc, hauthor, .run "r", ?_, ?_⟩
  · rw [hwritten]
    exact List.mem_singleton_self _
  · rw [hkeys]
    exact List.mem_singleton_self _

/-- Counts are words and run over. The version of a flow goes down then, and a transaction that
others overtook often enough is committed like one that nobody overtook. -/
theorem counts_run_over :
    (¬ ∀ (R : Repository Unit) (q : Request Unit), R.Reached → ∀ id r r',
      R.committed.stored? (.flow id) = some (.flow r) →
      (R.serve q).1.committed.stored? (.flow id) = some (.flow r') → r.version ≤ r'.version) ∧
    ¬ ∀ (R : Repository Unit) (i : Nat) (a : Attempt Unit), R.Reached →
      R.attempts i = some a →
      a.tx.isActive = true → (R.serve (.commit i)).2 = .done →
      ∀ c ∈ R.log.drop a.since, c.author ≠ i → ∀ k ∈ a.tx.written, k ∉ c.keys := by
  constructor
  · intro h
    have hle := h (Sample.updated (-1)) (.commit 1) (Sample.reached_updated _) "f" _ _ rfl rfl
    exact absurd hle (by decide)
  · intro h
    obtain ⟨R, a, hR, ha, hactive, hdone, c, hc, hauthor, k, hk, hin⟩ := exists_unnoticed
    exact h R 1 a hR ha hactive hdone c hc hauthor k hk hin

end Repository

end Workflow.Store
