import Workflow.Proofs.Numbers

namespace Workflow

/-- Where one element at most is meant, changing the first changes all that are meant. -/
theorem Sequence.modifyFirst_eq_map {α : Type} {p : α → Bool} {f : α → α} {as : List α}
    (h : as.Pairwise fun a b => p a = true → p b = false) :
    modifyFirst p f as = as.map fun a => if p a then f a else a := by
  induction as with
  | nil => rfl
  | cons a rest ih =>
    obtain ⟨ha, hrest⟩ := List.pairwise_cons.mp h
    rw [modifyFirst, List.map_cons]
    split
    · rename_i hp
      have hsame : ∀ b ∈ rest, (if p b then f b else b) = b := fun b hb => by
        rw [ha b hb hp, if_neg Bool.false_ne_true]
      rw [List.map_congr_left hsame, List.map_id']
    · rw [ih hrest]

/-- How many of several have to be done at least before the whole counts as done. -/
def Quorum.threshold : Quorum → Nat → Nat
  | .anyOne, _ => 1
  | .all, total => total
  | .majority, total => total / 2 + 1

theorem Quorum.isSatisfied_iff (q : Quorum) {completed total : Nat} (h : 0 < total) :
    q.isSatisfied completed total = true ↔ q.threshold total ≤ completed := by
  have hne : (total == 0) = false := by simpa using Nat.ne_of_gt h
  cases q with
  | anyOne | all => simp [isSatisfied, threshold, hne]
  | majority =>
    simp only [isSatisfied, threshold, hne, Bool.or_false, decide_eq_true_eq]
    omega

theorem Quorum.threshold_pos (q : Quorum) {total : Nat} (h : 0 < total) :
    0 < q.threshold total := by
  cases q with
  | anyOne => exact Nat.one_pos
  | all => exact h
  | majority => exact Nat.succ_pos _

structure Filing where
  assignment : String
  result : Record
  flags : Flags := {}
  now : Instant

namespace Assignment

/-- The first of several filings that is for an assignment. -/
def filing? (a : Assignment) (fs : List Filing) : Option Filing :=
  fs.find? fun f => f.assignment == a.id

/-- An assignment after filings. Only the first for it counts. -/
def filed (a : Assignment) (fs : List Filing) : Assignment :=
  match a.filing? fs with
  | some f => { a with status := .completed, result := f.result, completedAt := some f.now }
  | none => a

variable {a : Assignment} {fs : List Filing} {f : Filing}

theorem id_filed (a : Assignment) (fs : List Filing) : (a.filed fs).id = a.id := by
  unfold filed
  split <;> rfl

theorem filing?_append (a : Assignment) (fs : List Filing) (f : Filing) :
    a.filing? (fs ++ [f]) = (a.filing? fs).or (if f.assignment = a.id then some f else none) := by
  unfold filing?
  rw [List.find?_append, List.find?_singleton]
  simp only [beq_iff_eq]

/-- A filing for another assignment, or for one that was filed before, changes nothing. -/
theorem filed_append_of (h : f.assignment = a.id → (a.filing? fs).isSome = true) :
    a.filed (fs ++ [f]) = a.filed fs := by
  have hsame : a.filing? (fs ++ [f]) = a.filing? fs := by
    rw [filing?_append]
    cases hfs : a.filing? fs with
    | some g => rfl
    | none =>
      rw [hfs] at h
      rw [if_neg fun he => Bool.false_ne_true (h he)]
      rfl
  unfold filed
  rw [hsame]

theorem filed_append_self (hnone : a.filing? fs = none) (h : f.assignment = a.id) :
    a.filed (fs ++ [f]) =
      { a with status := .completed, result := f.result, completedAt := some f.now } := by
  unfold filed
  rw [filing?_append, hnone, if_pos h]
  rfl

theorem filed_of_none (hnone : a.filing? fs = none) : a.filed fs = a := by
  unfold filed
  rw [hnone]

end Assignment

namespace Execution

def filed (x : Execution) (fs : List Filing) : Execution :=
  { x with assignments := x.assignments.map fun a => a.filed fs }

def turnout (x : Execution) (fs : List Filing) : Nat :=
  x.assignments.countP fun a => (a.filing? fs).isSome

def threshold (x : Execution) : Nat :=
  x.quorum.threshold x.assignments.length

/-- What was filed, in the order of the assignments. -/
def roll (x : Execution) (fs : List Filing) : List Value :=
  x.assignments.filterMap fun a => (a.filing? fs).map fun f => .record
    [("assigneeId", .text a.assignee.id),
     ("assignmentId", .text a.id),
     ("resultData", .record f.result)]

/-- A shared step after filings that do not suffice. -/
def waiting (x : Execution) (fs : List Filing) : Execution :=
  { x.filed fs with
    status := if x.turnout fs = 0 then .inProgress else .waitingForAssignee }

/-- A shared step after filings the last of which completed it. -/
def closed (x : Execution) (fs : List Filing) (last : Filing) : Execution :=
  { (x.filed fs).cancelPending with
    status := .completed
    result := Table.put "_groupCompletion"
      (.record
        [("completedAssignees", .number (Float.ofNat (x.turnout fs))),
         ("mode", .text x.quorum.name),
         ("submissions", .list (x.roll fs)),
         ("totalAssignees", .number (Float.ofNat x.assignments.length))])
      last.result
    completedAt := some last.now }

/-- A shared step that has started, and to which nobody has submitted anything. -/
structure Offered (x : Execution) : Prop where
  shared : x.isShared = true
  started : x.status = .inProgress
  pending : ∀ a ∈ x.assignments, a.status = .pending
  differ : x.assignmentIds.Nodup
  staffed : 0 < x.assignments.length

variable {x : Execution} {fs : List Filing} {f : Filing}

theorem findAssignment?_filed (x : Execution) (fs : List Filing) (id : String) :
    (x.filed fs).findAssignment? id = (x.findAssignment? id).map fun a => a.filed fs := by
  unfold findAssignment? filed
  dsimp only
  rw [List.find?_map]
  simp only [Function.comp_def, Assignment.id_filed]

theorem filed_append_of
    (h : ∀ a ∈ x.assignments, f.assignment = a.id → (a.filing? fs).isSome = true) :
    x.filed (fs ++ [f]) = x.filed fs := by
  unfold filed
  rw [List.map_congr_left fun a ha => Assignment.filed_append_of (h a ha)]

theorem turnout_nil (x : Execution) : x.turnout [] = 0 :=
  List.countP_eq_zero.mpr fun _ _ => Bool.false_ne_true

theorem id_of_findAssignment? {id : String} {a : Assignment} (h : x.findAssignment? id = some a) :
    a.id = id := by
  have hid : (a.id == id) = true := List.find?_some (p := fun b : Assignment => b.id == id) h
  exact eq_of_beq hid

namespace Offered

variable (h : x.Offered)

include h

theorem threshold_pos : 0 < x.threshold :=
  x.quorum.threshold_pos h.staffed

theorem waiting_nil : x.waiting [] = x := by
  have hfiled : x.assignments.map (fun a => a.filed []) = x.assignments :=
    List.map_id'' (fun _ => rfl) _
  unfold waiting filed
  rw [if_pos x.turnout_nil, hfiled, ← h.started]

/-- Only filings complete assignments, so the summary lists what was filed. -/
theorem entries (fs : List Filing) :
    ((x.filed fs).assignments.filter fun a => a.status == .completed).map (fun a => .record
      [("assigneeId", .text a.assignee.id),
       ("assignmentId", .text a.id),
       ("resultData", .record a.result)]) = x.roll fs := by
  have hpending := h.pending
  clear h
  unfold filed roll
  dsimp only
  generalize x.assignments = as at hpending ⊢
  induction as with
  | nil => rfl
  | cons a rest ih =>
    rw [List.map_cons, List.filterMap_cons,
      ← ih fun b hb => hpending b (List.mem_cons_of_mem _ hb)]
    cases hf : a.filing? fs with
    | none =>
      rw [Assignment.filed_of_none hf, List.filter_cons_of_neg]
      · rfl
      · simp [hpending a List.mem_cons_self]
    | some f => simp [Assignment.filed, hf]

theorem submissions_filed (fs : List Filing) : (x.filed fs).submissions = x.turnout fs := by
  have hlength := congrArg List.length (h.entries fs)
  rw [List.length_map, roll, List.length_filterMap_eq_countP] at hlength
  simp only [Option.isSome_map] at hlength
  exact hlength

/-- The quorum is met once as many assignments are filed as it asks for. -/
theorem isQuorate_filed (fs : List Filing) :
    (x.filed fs).isQuorate = true ↔ x.threshold ≤ x.turnout fs := by
  have hlength : (x.filed fs).assignments.length = x.assignments.length :=
    List.length_map _
  unfold isQuorate
  rw [hlength, h.submissions_filed]
  exact x.quorum.isSatisfied_iff h.staffed

/-- The summary tells of the assignments filed. -/
theorem summary_filed (fs : List Filing) :
    (x.filed fs).summary = .record
      [("completedAssignees", .number (Float.ofNat (x.turnout fs))),
       ("mode", .text x.quorum.name),
       ("submissions", .list (x.roll fs)),
       ("totalAssignees", .number (Float.ofNat x.assignments.length))] := by
  have hlength : (x.filed fs).assignments.length = x.assignments.length :=
    List.length_map _
  have hmade : ((x.filed fs).assignments.filter fun a => a.status == .completed).length =
      x.turnout fs := h.submissions_filed fs
  unfold summary
  dsimp only
  rw [hlength, hmade, h.entries]
  rfl

/-- A filing for an assignment that was not filed before submits it. -/
theorem submit_filed {a : Assignment} (ha : x.findAssignment? f.assignment = some a)
    (hnone : a.filing? fs = none) :
    (x.filed fs).submit f.assignment f.result f.now = x.filed (fs ++ [f]) := by
  have hone : (x.filed fs).assignments.Pairwise fun a b =>
      (a.id == f.assignment) = true → (b.id == f.assignment) = false := by
    have hdiffer := h.differ
    unfold assignmentIds at hdiffer
    rw [filed, List.pairwise_map]
    refine (List.pairwise_map.mp hdiffer).imp fun {b c} hne hb => ?_
    rw [Assignment.id_filed] at hb ⊢
    simpa using fun hc => hne ((eq_of_beq hb).trans hc.symm)
  unfold submit modifyAssignment
  rw [Sequence.modifyFirst_eq_map hone]
  unfold filed
  dsimp only
  rw [List.map_map]
  refine congrArg (fun as => { x with assignments := as }) (List.map_congr_left fun b hb => ?_)
  rw [Function.comp_apply, Assignment.id_filed]
  split
  · rename_i hid
    obtain rfl : b = a := by
      exact List.inj_on_of_nodup_map h.differ hb (List.mem_of_find?_eq_some ha)
        ((eq_of_beq hid).trans (id_of_findAssignment? ha).symm)
    rw [Assignment.filed_append_self hnone (eq_of_beq hid).symm, Assignment.filed_of_none hnone]
  · rename_i hid
    exact (Assignment.filed_append_of fun he => absurd (beq_iff_eq.mpr he.symm) hid).symm

/-- A filing is for an assignment that is open, and submits it, or it makes no difference. -/
theorem filing_cases (fs : List Filing) (f : Filing) :
    (∀ a, (x.filed fs).findAssignment? f.assignment = some a → a.status ≠ .pending) ∧
        x.filed (fs ++ [f]) = x.filed fs ∧ x.turnout (fs ++ [f]) = x.turnout fs ∨
      (∃ a, (x.filed fs).findAssignment? f.assignment = some a ∧ a.status = .pending) ∧
        (x.filed fs).submit f.assignment f.result f.now = x.filed (fs ++ [f]) ∧
        x.turnout (fs ++ [f]) = x.turnout fs + 1 := by
  have hrefused : x.filed (fs ++ [f]) = x.filed fs → x.turnout (fs ++ [f]) = x.turnout fs := by
    intro hsame
    rw [← h.submissions_filed, hsame, h.submissions_filed]
  rw [findAssignment?_filed]
  cases ha : x.findAssignment? f.assignment with
  | none =>
    have hsame : x.filed (fs ++ [f]) = x.filed fs := filed_append_of fun a hmem he =>
      absurd (beq_iff_eq.mpr he.symm) (List.find?_eq_none.mp ha a hmem)
    exact .inl ⟨by simp, hsame, hrefused hsame⟩
  | some a =>
    have hid : a.id = f.assignment := id_of_findAssignment? ha
    cases hf : a.filing? fs with
    | some g =>
      have hsame : x.filed (fs ++ [f]) = x.filed fs := filed_append_of fun b hmem he => by
        rw [Assignment.filing?, ← he, ← hid]
        exact Option.isSome_of_mem hf
      refine .inl ⟨?_, hsame, hrefused hsame⟩
      simp [Assignment.filed, hf]
    | none =>
      have hsubmit := h.submit_filed ha hf
      have hopen : (x.filed fs).findAssignment? f.assignment = some a := by
        rw [findAssignment?_filed, ha, Option.map_some, Assignment.filed_of_none hf]
      have hpending := h.pending a (List.mem_of_find?_eq_some ha)
      refine .inr ⟨⟨a, ?_, hpending⟩, hsubmit, ?_⟩
      · rw [Option.map_some, Assignment.filed_of_none hf]
      · rw [← h.submissions_filed, ← hsubmit, submissions_submit hopen hpending,
          h.submissions_filed]

end Offered

theorem isCompletable_waiting (x : Execution) (fs : List Filing) :
    (x.waiting fs).status.isCompletable = true := by
  unfold waiting
  dsimp only
  split <;> rfl

theorem waiting_of (h : x.turnout fs ≠ 0) :
    x.waiting fs = { x.filed fs with status := .waitingForAssignee } := by
  rw [waiting, if_neg h]

/-- An execution that waits takes a submission as one that was only filed to does. -/
theorem submit_waiting
    (hsubmit : (x.filed fs).submit f.assignment f.result f.now = x.filed (fs ++ [f])) :
    (x.waiting fs).submit f.assignment f.result f.now =
      { x.filed (fs ++ [f]) with status := (x.waiting fs).status } := by
  rw [← hsubmit]
  rfl

theorem await_submit
    (hsubmit : (x.filed fs).submit f.assignment f.result f.now = x.filed (fs ++ [f]))
    (hturnout : x.turnout (fs ++ [f]) = x.turnout fs + 1) :
    ((x.waiting fs).submit f.assignment f.result f.now).await = x.waiting (fs ++ [f]) := by
  have hopen : ((x.waiting fs).submit f.assignment f.result f.now).status.isCompletable = true :=
    x.isCompletable_waiting fs
  have hsome : x.turnout (fs ++ [f]) ≠ 0 := by omega
  rw [await_of hopen, submit_waiting hsubmit, waiting_of hsome]

theorem Offered.closed_of_submit (h : x.Offered)
    (hsubmit : (x.filed fs).submit f.assignment f.result f.now = x.filed (fs ++ [f])) :
    (((x.waiting fs).submit f.assignment f.result f.now).finish
      (((x.waiting fs).submit f.assignment f.result f.now).sharedResult f.result)
        f.now).cancelPending = x.closed (fs ++ [f]) f := by
  have hopen : ((x.waiting fs).submit f.assignment f.result f.now).status.isCompletable = true :=
    x.isCompletable_waiting fs
  rw [finish_of hopen, submit_waiting hsubmit]
  unfold closed
  rw [← h.summary_filed]
  rfl

inductive Stands (x : Execution) (fs : List Filing) (s : Session) : Prop
  | waiting (hbelow : x.turnout fs < x.threshold) (ha : s.run.isActive = true)
      (hx : s.run.find? x.id = some (x.waiting fs))
  | settled {y : Execution} (hmet : x.threshold ≤ x.turnout fs) (hy : s.run.find? x.id = some y)
      (hdone : y.status = .completed)

end Execution

namespace Engine

variable {e : Engine} {flow : Flow} {now : Instant} {flags : Flags} {s : Session} {id : String}
  {result : Record} {x : Execution} {fs : List Filing} {f : Filing}

/-- Whatever is submitted, the reviewer approves it. -/
def Approves (e : Engine) : Prop :=
  ∀ reviews step result, e.verdict reviews step result = .approved

theorem Approves.judge (h : e.Approves) (flow : Flow) (s : Session) (flags : Flags)
    (x : Execution) (result : Record) : (e.judge flow s flags x result).2 = .approved := by
  cases hf : flow.find? x.stepId with
  | none =>
    unfold Engine.judge
    simp only [hf]
  | some place => rw [judge_snd hf, h, ite_self]

def file (e : Engine) (flow : Flow) (id : String) (s : Session) (f : Filing) :
    Session × Submission :=
  e.submit flow f.now f.flags s id f.assignment f.result

def fileAll (e : Engine) (flow : Flow) (id : String) (s : Session) (fs : List Filing) : Session :=
  fs.foldl (fun s f => (e.file flow id s f).1) s

theorem fileAll_append : e.fileAll flow id s (fs ++ [f]) =
    (e.file flow id (e.fileAll flow id s fs) f).1 :=
  List.foldl_concat _ _ _ _

theorem file_refused (h : s.run.takes? id f.assignment = none) :
    (e.file flow id s f).1 = s ∧ (e.file flow id s f).2.advanced = false :=
  (submit_refused h).2

/-- A step that waits does not take what is for no open assignment. -/
theorem takes?_waiting_none (hx : s.run.find? x.id = some (x.waiting fs))
    (hclosed : ∀ a, (x.filed fs).findAssignment? f.assignment = some a →
      a.status ≠ .pending) :
    s.run.takes? x.id f.assignment = none := by
  rw [Option.eq_none_iff_forall_ne_some]
  intro z hz
  obtain ⟨hz, _, _, a, ha, hp⟩ := Run.takes?_eq_some_iff.mp hz
  obtain rfl := Option.some.inj (hx.symm.trans hz)
  exact hclosed a ha hp

section Taken

variable (h : x.Offered) (htakes : s.run.takes? x.id f.assignment = some (x.waiting fs))
  (hsubmit : (x.filed fs).submit f.assignment f.result f.now = x.filed (fs ++ [f]))

include h htakes hsubmit

/-- A submission that does not suffice is kept. -/
theorem file_waits (hturnout : x.turnout (fs ++ [f]) = x.turnout fs + 1)
    (hbelow : x.turnout (fs ++ [f]) < x.threshold) :
    (e.file flow x.id s f).2.advanced = false ∧
      (e.file flow x.id s f).1.run.isActive = s.run.isActive ∧
      (e.file flow x.id s f).1.run.find? x.id = some (x.waiting (fs ++ [f])) := by
  have hwaits : ¬ ((x.waiting fs).submit f.assignment f.result f.now).isQuorate = true := by
    rw [Execution.submit_waiting hsubmit]
    exact mt (h.isQuorate_filed (fs ++ [f])).mp (Nat.not_le.mpr hbelow)
  obtain ⟨hsame, hadvanced⟩ : (e.file flow x.id s f).1 =
        s.update x.id ((x.waiting fs).submit f.assignment f.result f.now).await f.now ∧
      (e.file flow x.id s f).2.advanced = false := submit_waits htakes hwaits
  refine ⟨hadvanced, ?_, ?_⟩
  · rw [hsame]
    rfl
  · rw [hsame, Execution.await_submit hsubmit hturnout]
    exact Session.find?_update (y := x.waiting (fs ++ [f])) (Run.takes?_eq_some_iff.mp htakes).1 rfl
      f.now

/-- The submission that suffices completes the step. -/
theorem file_closes (ha : s.run.isActive = true) (happroves : e.Approves)
    (hmet : x.threshold ≤ x.turnout (fs ++ [f])) :
    (e.file flow x.id s f).2.advanced = true ∧
      ((e.file flow x.id s f).1.run.executionIds.Nodup →
        (e.file flow x.id s f).1.run.find? x.id = some (x.closed (fs ++ [f]) f)) := by
  have hquorate : ((x.waiting fs).submit f.assignment f.result f.now).isQuorate = true := by
    rw [Execution.submit_waiting hsubmit]
    exact (h.isQuorate_filed (fs ++ [f])).mpr hmet
  rw [← h.closed_of_submit hsubmit]
  exact submit_closes htakes ha hquorate (happroves.judge flow _ _ _ _)

end Taken

theorem strokes_file (e : Engine) (flow : Flow) (id : String) (s : Session) (f : Filing) :
    e.Strokes s (e.file flow id s f).1 :=
  strokes_play (.submit id f.assignment f.result f.flags)

theorem strokes_fileAll (e : Engine) (flow : Flow) (id : String) (s : Session) (fs : List Filing) :
    e.Strokes s (e.fileAll flow id s fs) := by
  induction fs generalizing s with
  | nil => exact .refl
  | cons f rest ih => exact (e.strokes_file flow id s f).trans (ih _)

/-- What a filing does depends on how far filings have come. -/
structure Files (x : Execution) (fs : List Filing) (f : Filing) (s : Session)
    (r : Session × Submission) : Prop where
  stands : x.Stands (fs ++ [f]) r.1
  advanced : r.2.advanced = true ↔
    x.turnout fs < x.threshold ∧ x.turnout (fs ++ [f]) = x.threshold
  closed : r.2.advanced = true → r.1.run.find? x.id = some (x.closed (fs ++ [f]) f)
  settled : x.threshold ≤ x.turnout fs → r.1 = s

section Run

variable (h : x.Offered) (happroves : e.Approves)

include h happroves

/-- Below the threshold a filing is kept with its assignment, and nothing else happens. -/
theorem file_waiting (hbelow : x.turnout fs < x.threshold) (ha : s.run.isActive = true)
    (hx : s.run.find? x.id = some (x.waiting fs))
    (differ : (e.file flow x.id s f).1.run.executionIds.Nodup) :
    Files x fs f s (e.file flow x.id s f) := by
  rcases h.filing_cases fs f with
    ⟨hclosed, hfiled, hsame⟩ | ⟨⟨a, hfind, hp⟩, hsubmit, hturnout⟩
  · obtain ⟨hs, hadvanced⟩ : (e.file flow x.id s f).1 = s ∧
        (e.file flow x.id s f).2.advanced = false := file_refused (takes?_waiting_none hx hclosed)
    have hwaiting : x.waiting (fs ++ [f]) = x.waiting fs := by
      unfold Execution.waiting
      rw [hfiled, hsame]
    refine ⟨?_, ?_, ?_, ?_⟩
    · rw [hs]
      exact .waiting (hsame ▸ hbelow) ha (hwaiting ▸ hx)
    · simp only [hadvanced, Bool.false_eq_true, false_iff]
      omega
    · exact fun hadv => absurd (hadvanced.symm.trans hadv) Bool.false_ne_true
    · omega
  · have htakes : s.run.takes? x.id f.assignment = some (x.waiting fs) :=
      Run.takes?_eq_some_iff.mpr ⟨hx, h.shared, x.isCompletable_waiting fs, a, hfind, hp⟩
    by_cases hlast : x.turnout (fs ++ [f]) < x.threshold
    · obtain ⟨hadvanced, hactive, hfound⟩ :=
        file_waits (e := e) h htakes hsubmit hturnout hlast
      refine ⟨.waiting hlast (hactive.trans ha) hfound, ?_, ?_, ?_⟩
      · simp only [hadvanced, Bool.false_eq_true, false_iff]
        omega
      · exact fun hadv => absurd (hadvanced.symm.trans hadv) Bool.false_ne_true
      · omega
    · obtain ⟨hadvanced, hfound⟩ :=
        file_closes h htakes hsubmit ha happroves (Nat.not_lt.mp hlast)
      refine ⟨.settled (Nat.not_lt.mp hlast) (hfound differ) rfl, ?_,
        fun _ => hfound differ, ?_⟩
      · simp only [hadvanced, true_iff]
        omega
      · omega

omit happroves in
/-- Once the step is over, nothing that is filed changes the run. -/
theorem file_settled {y : Execution} (hmet : x.threshold ≤ x.turnout fs)
    (hy : s.run.find? x.id = some y) (hdone : y.status = .completed) :
    Files x fs f s (e.file flow x.id s f) := by
  have hnone : s.run.takes? x.id f.assignment = none := by
    rw [Option.eq_none_iff_forall_ne_some]
    intro z hz
    obtain ⟨hz, _, hopen, _⟩ := Run.takes?_eq_some_iff.mp hz
    obtain rfl := Option.some.inj (hy.symm.trans hz)
    exact Execution.status_ne_completed hopen hdone
  obtain ⟨hs, hadvanced⟩ : (e.file flow x.id s f).1 = s ∧
      (e.file flow x.id s f).2.advanced = false := file_refused hnone
  have hmore : x.turnout fs ≤ x.turnout (fs ++ [f]) := by
    rcases h.filing_cases fs f with ⟨_, _, hsame⟩ | ⟨_, _, hturnout⟩ <;> omega
  refine ⟨?_, ?_, ?_, fun _ => hs⟩
  · rw [hs]
    exact .settled (Nat.le_trans hmet hmore) hy hdone
  · simp only [hadvanced, Bool.false_eq_true, false_iff]
    omega
  · exact fun hadv => absurd (hadvanced.symm.trans hadv) Bool.false_ne_true

theorem stands_file (hs : x.Stands fs s)
    (differ : (e.file flow x.id s f).1.run.executionIds.Nodup) :
    Files x fs f s (e.file flow x.id s f) := by
  cases hs with
  | waiting hbelow ha hx => exact file_waiting h happroves hbelow ha hx differ
  | settled hmet hy hdone => exact file_settled h hmet hy hdone

theorem stands_fileAll (ha : s.run.isActive = true) (hx : s.run.find? x.id = some x)
    (differ : (e.fileAll flow x.id s fs).run.executionIds.Nodup) :
    x.Stands fs (e.fileAll flow x.id s fs) := by
  induction fs using List.reverseRecOn with
  | nil => exact .waiting (x.turnout_nil ▸ h.threshold_pos) ha (h.waiting_nil.symm ▸ hx)
  | append_singleton fs f ih =>
    rw [fileAll_append] at differ ⊢
    have hbefore := (e.strokes_file flow x.id (e.fileAll flow x.id s fs) f).ids.sublist.nodup differ
    exact (stands_file h happroves (ih hbefore) differ).stands

end Run

/-- Whatever step is shared in a run, it is on offer as long as it is only in progress. -/
theorem Reaches.offered {allowed : Move → Prop} (h : e.Reaches flow allowed s)
    (ha : s.run.isActive = true) (ids : e.DistinctIds s.log.drawn) (hx : x ∈ s.run.executions)
    (hshared : x.isShared = true) (hstarted : x.status = .inProgress) : x.Offered := by
  have hrostered : x.Rostered e s.log.drawn := h.kept (e.upholds_rostered _) ha x hx
  have huntouched : x.Untouched := h.kept (e.upholds_untouched _) ha x hx
  refine ⟨hshared, hstarted, huntouched (.inr hstarted), hrostered.differ ids, ?_⟩
  have hne := hrostered.staffed hshared
  rw [Execution.assignmentIds, Ne, List.map_eq_nil_iff] at hne
  exact List.length_pos_iff.mpr hne

/-- Whoever files for a shared step, one after another: the filing that makes as many assignments
filed as the quorum asks for advances the run, and no other does. Before, the step waits. Then it is
completed with a summary of what was filed, and filings after that change nothing. -/
theorem Reaches.closed_at_threshold {allowed : Move → Prop} (h : e.Reaches flow allowed s)
    (ha : s.run.status = .active) (hx : x ∈ s.run.executions) (hshared : x.isShared = true)
    (hstarted : x.status = .inProgress) (happroves : e.Approves) (fs : List Filing) (f : Filing)
    (ids : e.DistinctIds (e.fileAll flow x.id s (fs ++ [f])).log.drawn) :
    ((e.file flow x.id (e.fileAll flow x.id s fs) f).2.advanced = true ↔
        x.turnout fs < x.threshold ∧ x.turnout (fs ++ [f]) = x.threshold) ∧
      (x.turnout fs < x.threshold →
        (e.fileAll flow x.id s fs).run.find? x.id = some (x.waiting fs)) ∧
      ((e.file flow x.id (e.fileAll flow x.id s fs) f).2.advanced = true →
        (e.fileAll flow x.id s (fs ++ [f])).run.find? x.id = some (x.closed (fs ++ [f]) f)) ∧
      (x.threshold ≤ x.turnout fs →
        e.fileAll flow x.id s (fs ++ [f]) = e.fileAll flow x.id s fs) := by
  have hactive : s.run.isActive = true := s.run.isActive_iff.mpr ha
  have hall := e.strokes_fileAll flow x.id s (fs ++ [f])
  have hlast := e.strokes_file flow x.id (e.fileAll flow x.id s fs) f
  have differ := (hall.numbered h.numbered).differ ids
  have hfound := Run.find?_of_nodup (hall.ids.sublist.nodup differ) hx
  have hoffered := h.offered hactive (ids.mono hall.drawn) hx hshared hstarted
  rw [fileAll_append] at differ ⊢
  have hstands : x.Stands fs (e.fileAll flow x.id s fs) :=
    stands_fileAll hoffered happroves hactive hfound (hlast.ids.sublist.nodup differ)
  obtain ⟨_, hadvanced, hclosed, hsettled⟩ := stands_file hoffered happroves hstands differ
  refine ⟨hadvanced, fun hbelow => ?_, hclosed, hsettled⟩
  cases hstands with
  | waiting _ _ hwaiting => exact hwaiting
  | settled hmet => exact absurd hbelow (Nat.not_lt.mpr hmet)

end Engine

namespace Sample

def panel (quorum : Quorum) (reviewed : Bool) : Flow :=
  { Flow.empty "panel" "" with
    steps := [⟨"a", "", "", "", none, [], .action ⟨.approval, rfl⟩ quorum reviewed⟩] }

def convened : Session :=
  (crew.play (panel .majority false) ⟨0⟩ { run := {} } (.start {})).1

def vote : Execution :=
  { id := "exec_"
    stepId := "a"
    status := .inProgress
    startedAt := some ⟨0⟩
    isShared := true
    quorum := .majority
    assignments :=
      [{ id := "asg_1", assignee := { id := "u" } },
        { id := "asg_11", assignee := { id := "v" } }] }

theorem executions_convened : convened.run.executions = [vote] := by
  cbv

theorem status_convened : convened.run.status = .active := by
  cbv

end Sample

namespace Engine

/-- The second of two people makes the majority. -/
theorem Reaches.closed_at_threshold_convened :
    Sample.convened.run.status = .active ∧ Sample.vote ∈ Sample.convened.run.executions ∧
      (Sample.crew.file (Sample.panel .majority false) Sample.vote.id
        (Sample.crew.fileAll (Sample.panel .majority false) Sample.vote.id Sample.convened
          [⟨"asg_11", [], {}, ⟨1⟩⟩]) ⟨"asg_1", [], {}, ⟨2⟩⟩).2.advanced = true ∧
      (Sample.crew.fileAll (Sample.panel .majority false) Sample.vote.id Sample.convened
        [⟨"asg_11", [], {}, ⟨1⟩⟩]).run.find? Sample.vote.id =
          some (Sample.vote.waiting [⟨"asg_11", [], {}, ⟨1⟩⟩]) := by
  have hreaches : Sample.crew.Reaches (Sample.panel .majority false) (fun _ => True)
      Sample.convened := .start ⟨rfl, rfl, rfl⟩
  have hmem : Sample.vote ∈ Sample.convened.run.executions :=
    Sample.executions_convened ▸ List.mem_singleton_self _
  obtain ⟨hadvanced, hwaiting, _⟩ :=
    hreaches.closed_at_threshold Sample.status_convened hmem rfl rfl
    (fun _ _ _ => rfl) [⟨"asg_11", [], {}, ⟨1⟩⟩] ⟨"asg_1", [], {}, ⟨2⟩⟩
      (Sample.distinctIds _)
  exact ⟨Sample.status_convened, hmem, hadvanced.mpr (by decide), hwaiting (by decide)⟩

end Engine

end Workflow
