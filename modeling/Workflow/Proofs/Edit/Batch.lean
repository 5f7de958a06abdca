import Workflow.Proofs.Edit.Ids

namespace Workflow

/-- The result of an edit that `n` others come before. -/
def EditResult.shift (n : Nat) (r : EditResult) : EditResult :=
  { r with index := r.index + n }

@[simp] theorem EditResult.shift_zero : shift 0 = id :=
  rfl

@[simp] theorem EditResult.shift_comp_shift (m n : Nat) : shift n ∘ shift m = shift (m + n) := by
  funext r
  simp [shift, Nat.add_assoc]

@[simp] theorem EditResult.succeeded_shift (n : Nat) (r : EditResult) :
    (r.shift n).succeeded = r.succeeded :=
  rfl

def Edit.report (f : Flow) (index : Nat) (e : Edit) : EditResult :=
  ⟨index, e.name, match e.apply f with
    | .ok _ => none
    | .error error => some error⟩

theorem Edit.succeeded_report {f : Flow} {index : Nat} {e : Edit} :
    (e.report f index).succeeded = true ↔ ∃ g, e.apply f = .ok g := by
  unfold report EditResult.succeeded
  cases e.apply f <;> simp

/-- Where a batch starts shows in the numbers of its results, and nowhere else. -/
theorem Edit.applyFrom_eq (index : Nat) (f : Flow) (edits : List Edit) :
    applyFrom index f edits =
      ⟨(f.applyAll edits).results.map (.shift index), (f.applyAll edits).flow⟩ := by
  induction edits generalizing index f with
  | nil => rfl
  | cons e rest ih =>
    unfold Flow.applyAll applyFrom
    cases e.apply f with
    | error error => simp [EditResult.shift]
    | ok g =>
      simp only [ih, List.map_cons, List.map_map, EditResult.shift_comp_shift]
      simp [EditResult.shift, Nat.add_comm]

namespace Flow

theorem applyAll_nil (f : Flow) : f.applyAll [] = ⟨[], some f⟩ :=
  rfl

theorem applyAll_error {f : Flow} {e : Edit} {error : EditError} (h : e.apply f = .error error)
    (rest : List Edit) : f.applyAll (e :: rest) = ⟨[e.report f 0], none⟩ := by
  rw [applyAll, Edit.applyFrom, Edit.report, h]

theorem applyAll_ok {f g : Flow} {e : Edit} (h : e.apply f = .ok g) (rest : List Edit) :
    f.applyAll (e :: rest) =
      ⟨e.report f 0 :: (g.applyAll rest).results.map (.shift 1), (g.applyAll rest).flow⟩ := by
  rw [applyAll, Edit.applyFrom, Edit.report, h]
  simp only [Edit.applyFrom_eq]

/-- What follows a batch that failed is not looked at. -/
theorem applyAll_append_of_none {f : Flow} {a : List Edit} (h : (f.applyAll a).flow = none)
    (b : List Edit) : f.applyAll (a ++ b) = f.applyAll a := by
  induction a generalizing f with
  | nil => cases h
  | cons e rest ih =>
    rw [List.cons_append]
    cases he : e.apply f with
    | error error => rw [applyAll_error he, applyAll_error he]
    | ok g =>
      rw [applyAll_ok he] at h
      rw [applyAll_ok he, applyAll_ok he, ih h]

/-- What follows a batch that went through starts from the flow that the batch made. -/
theorem applyAll_append_of_some {f g : Flow} {a : List Edit} (h : (f.applyAll a).flow = some g)
    (b : List Edit) :
    f.applyAll (a ++ b) =
      ⟨(f.applyAll a).results ++ (g.applyAll b).results.map (.shift a.length),
        (g.applyAll b).flow⟩ := by
  induction a generalizing f with
  | nil =>
    cases h
    simp [applyAll_nil]
  | cons e rest ih =>
    rw [List.cons_append]
    cases he : e.apply f with
    | error error =>
      rw [applyAll_error he] at h
      cases h
    | ok f' =>
      rw [applyAll_ok he] at h
      rw [applyAll_ok he, applyAll_ok he, ih h]
      simp

end Flow

/-- A report on a batch for a flow: one result for each edit, in order, up to the first that fails
on what those before it made of the flow. There is a flow in the end if none does. -/
structure BatchResult.Covers (r : BatchResult) (f : Flow) (edits : List Edit) : Prop where
  judged : ∀ i x, r.results[i]? = some x → ∃ e g, edits[i]? = some e ∧
    (f.applyAll (edits.take i)).flow = some g ∧ x = e.report g i
  failed_last : ∀ i x, r.results[i]? = some x → x.succeeded = false → i + 1 = r.results.length
  short : r.results.length < edits.length →
    ∃ x, r.results.getLast? = some x ∧ x.succeeded = false
  whole : r.flow.isSome = true ↔
    r.results.length = edits.length ∧ ∀ x ∈ r.results, x.succeeded = true

namespace BatchResult.Covers

theorem nil (f : Flow) : (f.applyAll []).Covers f [] where
  judged i x h := by simp [Flow.applyAll_nil] at h
  failed_last i x h := by simp [Flow.applyAll_nil] at h
  short h := by simp [Flow.applyAll_nil] at h
  whole := by simp [Flow.applyAll_nil]

/-- A batch stops at the first edit that fails. -/
theorem error {f : Flow} {e : Edit} {error : EditError} (h : e.apply f = .error error)
    (rest : List Edit) : (f.applyAll (e :: rest)).Covers f (e :: rest) := by
  have hfailed : (e.report f 0).succeeded = false := by simp [Edit.report, EditResult.succeeded, h]
  rw [Flow.applyAll_error h]
  refine ⟨?_, ?_, ?_, ?_⟩
  · intro i x hx
    obtain ⟨rfl, rfl⟩ : i = 0 ∧ e.report f 0 = x := by
      simpa [List.getElem?_singleton] using hx
    exact ⟨e, f, rfl, rfl, rfl⟩
  · intro i x hx _
    obtain ⟨rfl, -⟩ : i = 0 ∧ e.report f 0 = x := by
      simpa [List.getElem?_singleton] using hx
    rfl
  · intro _
    exact ⟨_, rfl, hfailed⟩
  · simp [hfailed]

/-- Behind an edit that goes through, a batch does what the rest of it does to the edited flow. -/
theorem ok {f g : Flow} {e : Edit} (h : e.apply f = .ok g) {rest : List Edit}
    (covers : (g.applyAll rest).Covers g rest) :
    (f.applyAll (e :: rest)).Covers f (e :: rest) := by
  have hdone : (e.report f 0).succeeded = true := Edit.succeeded_report.mpr ⟨g, h⟩
  rw [Flow.applyAll_ok h]
  refine ⟨?_, ?_, ?_, ?_⟩
  · intro i x hx
    cases i with
    | zero =>
      obtain rfl : e.report f 0 = x := by simpa using hx
      exact ⟨e, f, rfl, rfl, rfl⟩
    | succ i =>
      obtain ⟨y, hy, rfl⟩ :
          ∃ y, (g.applyAll rest).results[i]? = some y ∧ y.shift 1 = x := by
        simpa using hx
      obtain ⟨e', g', he', hg', rfl⟩ := covers.judged i y hy
      exact ⟨e', g', he', by rw [List.take_succ_cons, Flow.applyAll_ok h]; exact hg', rfl⟩
  · intro i x hx hfailed
    cases i with
    | zero =>
      obtain rfl : e.report f 0 = x := by simpa using hx
      rw [hdone] at hfailed
      cases hfailed
    | succ i =>
      obtain ⟨y, hy, rfl⟩ :
          ∃ y, (g.applyAll rest).results[i]? = some y ∧ y.shift 1 = x := by
        simpa using hx
      have hlast := covers.failed_last i y hy hfailed
      simp [hlast]
  · intro hshort
    obtain ⟨x, hx, hfailed⟩ := covers.short (by simpa using hshort)
    refine ⟨x.shift 1, ?_, hfailed⟩
    simp [List.getLast?_cons, hx]
  · rw [covers.whole]
    simp [hdone]

end BatchResult.Covers

namespace Flow

theorem covers_applyAll (f : Flow) (edits : List Edit) : (f.applyAll edits).Covers f edits := by
  induction edits generalizing f with
  | nil => exact .nil f
  | cons e rest ih =>
    cases he : e.apply f with
    | error error => exact .error he rest
    | ok g => exact .ok he (ih g)

/-- A batch is the composition of its parts. If the first part fails, its report is all there is.
Otherwise the second part is applied to the flow that the first one made, and its results follow
under higher numbers. Every report covers its batch. -/
theorem applyAll_composes (f : Flow) (a b : List Edit) :
    ((f.applyAll a).succeeded = false → f.applyAll (a ++ b) = f.applyAll a) ∧
      (∀ g, (f.applyAll a).flow = some g →
        (f.applyAll (a ++ b)).results =
            (f.applyAll a).results ++ (g.applyAll b).results.map (.shift a.length) ∧
          (f.applyAll (a ++ b)).succeeded = (g.applyAll b).succeeded ∧
          (f.applyAll (a ++ b)).flow = (g.applyAll b).flow) ∧
      (f.applyAll a).Covers f a := by
  refine ⟨fun hfailed => ?_, fun g hg => ?_, f.covers_applyAll a⟩
  · have hnone : (f.applyAll a).flow = none := by
      simpa [BatchResult.succeeded] using hfailed
    exact applyAll_append_of_none hnone b
  · rw [applyAll_append_of_some hg b]
    exact ⟨rfl, rfl, rfl⟩

/-- The step that the first part brings is what the last edit of the second part fails on. -/
theorem applyAll_composes_forked :
    ((Sample.forked ["a", "b"]).applyAll [Sample.grow]).flow =
        some (Sample.forked ["a", "new", "b"]) ∧
      ((Sample.forked ["a", "b"]).applyAll ([Sample.grow] ++ [Sample.turn, Sample.grow])).results =
        [⟨0, "ADD_PATH_STEP_AFTER", none⟩, ⟨1, "MOVE_PATH_STEP", none⟩,
          ⟨2, "ADD_PATH_STEP_AFTER", some (.duplicateStepId "new")⟩] ∧
      ((Sample.forked ["a", "b"]).applyAll
        ([Sample.grow, Sample.grow] ++ [Sample.turn])).results.length = 2 := by
  have hgrown : ((Sample.forked ["a", "b"]).applyAll [Sample.grow]).flow =
      some (Sample.forked ["a", "new", "b"]) := rfl
  obtain ⟨-, hfollows, -⟩ :=
    applyAll_composes (Sample.forked ["a", "b"]) [Sample.grow] [Sample.turn, Sample.grow]
  obtain ⟨hfails, -, -⟩ :=
    applyAll_composes (Sample.forked ["a", "b"]) [Sample.grow, Sample.grow] [Sample.turn]
  refine ⟨hgrown, (hfollows _ hgrown).1.trans rfl, ?_⟩
  rw [hfails rfl]
  rfl

end Flow

end Workflow
