import Workflow.Proofs.QuorumReached

namespace Workflow

namespace Session

variable {s : Session} {x : Execution}

/-- An execution that is replaced by itself leaves the run as it is. -/
theorem update_self (hx : s.run.find? x.id = some x) (now : Instant) :
    (s.update x.id x now).run = { s.run with lastActivityAt := some now } := by
  have hsame : Sequence.modifyFirst (fun y : Execution => y.id == x.id) (fun _ => x)
      s.run.executions = s.run.executions :=
    Sequence.modifyFirst_eq_self fun y hy => Option.some.inj (hx.symm.trans hy)
  unfold update Run.modify
  rw [hsame]

end Session

namespace Engine

variable {e : Engine} {flow : Flow} {s : Session} {now : Instant} {flags : Flags}
  {execution assignment feedback : String} {issues : List String} {result : Record}
  {x : Execution} {place : Place}

/-- A submission that meets the quorum and is approved advances the step. -/
theorem advanced_of_approved (htakes : s.run.takes? execution assignment = some x)
    (ha : s.run.isActive = true) (hquorate : (x.submit assignment result now).isQuorate = true)
    (hplace : flow.find? x.stepId = some place)
    (happroved : e.verdict s.log.reviews place.step
      ((x.submit assignment result now).sharedResult result) = .approved) :
    (e.submit flow now flags s execution assignment result).2.advanced = true := by
  obtain ⟨rfl, _⟩ := Run.marks_of_find? (Run.takes?_eq_some_iff.mp htakes).1
  have hverdict := judge_snd (e := e) (x := x.submit assignment result now) hplace
    (s.update x.id (x.submit assignment result now) now) flags
    ((x.submit assignment result now).sharedResult result)
  have hlog : (s.update x.id (x.submit assignment result now) now).log = s.log := rfl
  rw [hlog, happroved, ite_self] at hverdict
  rw [submit_approved htakes ha rfl hquorate (Prod.ext rfl hverdict)]

/-- A submission that meets the quorum, but is to be revised, is taken back. -/
theorem submit_undone (htakes : s.run.takes? execution assignment = some x) (hx : x.Blank)
    (ha : s.run.isActive = true) (hquorate : (x.submit assignment result now).isQuorate = true)
    (hplace : flow.find? x.stepId = some place) (hskip : flags.skipReview = false)
    (hrevise : e.verdict s.log.reviews place.step
      ((x.submit assignment result now).sharedResult result) = .revise feedback issues) :
    (e.submit flow now flags s execution assignment result).1.run =
        { s.run with lastActivityAt := some now } ∧
      (e.submit flow now flags s execution assignment result).2 =
        { completed := x.submissions
          total := x.assignments.length
          advance := some { revisionNeeded := true, feedback := feedback, issues := issues } } := by
  obtain ⟨hfind, _, _, a, ha', hp⟩ := Run.takes?_eq_some_iff.mp htakes
  obtain ⟨rfl, _⟩ := Run.marks_of_find? hfind
  have hverdict := judge_snd (e := e) (x := x.submit assignment result now) hplace
    (s.update x.id (x.submit assignment result now) now) flags
    ((x.submit assignment result now).sharedResult result)
  have hlog : (s.update x.id (x.submit assignment result now) now).log = s.log := rfl
  rw [hlog, hrevise, hskip, if_neg Bool.false_ne_true] at hverdict
  have hreopened : (x.submit assignment result now).reopen assignment = x := by
    rw [Execution.reopen_submit, Execution.reopen_eq_self hx ha' hp]
  have hlength : (x.submit assignment result now).assignments.length = x.assignments.length :=
    Sequence.length_modifyFirst _ _ _
  have hmerge : (s.update x.id (x.submit assignment result now) now).run.modify x.id
      (fun x => x.reopen assignment) =
        (s.update x.id ((x.submit assignment result now).reopen assignment) now).run :=
    congrArg Session.run (Session.update_modify (x := x.submit assignment result now) rfl)
  rw [submit_revise htakes ha rfl hquorate (Prod.ext rfl hverdict), hreopened, hlength]
  refine ⟨?_, rfl⟩
  dsimp only
  rw [run_judge]
  refine hmerge.trans ?_
  rw [hreopened]
  exact Session.update_self hfind now

/-- A request for a revision undoes the submission that met the quorum: the answer gives the
feedback, and the run is as before, but for the time of its last activity. So the assignment is open
and without data, and the same assignee can submit again, which advances the step if it is approved
then. -/
theorem Reaches.revision_undone {allowed : Move → Prop} (h : e.Reaches flow allowed s)
    (ha : s.run.status = .active) (htakes : s.run.takes? execution assignment = some x)
    (hquorate : (x.submit assignment result now).isQuorate = true)
    (hplace : flow.find? x.stepId = some place) (hskip : flags.skipReview = false)
    (hrevise : e.verdict s.log.reviews place.step
      ((x.submit assignment result now).sharedResult result) = .revise feedback issues) :
    (e.submit flow now flags s execution assignment result).2 =
        { advanced := false
          completed := x.submissions
          total := x.assignments.length
          advance := some { revisionNeeded := true, feedback := feedback, issues := issues } } ∧
      (e.submit flow now flags s execution assignment result).1.run =
        { s.run with lastActivityAt := some now } ∧
      (∃ a, x.findAssignment? assignment = some a ∧ a.status = .pending ∧ a.result = [] ∧
        a.completedAt = none) ∧
      ∀ (e' : Engine) (now' : Instant) (flags' : Flags) (result' : Record),
        e'.verdict (e.submit flow now flags s execution assignment result).1.log.reviews place.step
          ((x.submit assignment result' now').sharedResult result') = .approved →
        (e'.submit flow now' flags' (e.submit flow now flags s execution assignment result).1
          execution assignment result').2.advanced = true := by
  have hactive : s.run.isActive = true := s.run.isActive_iff.mpr ha
  obtain ⟨hfind, _, _, a, hassignment, hp⟩ := Run.takes?_eq_some_iff.mp htakes
  have hblank : x.Blank :=
    h.kept (e.upholds_blank _) hactive x (List.mem_of_find?_eq_some hfind)
  obtain ⟨hrun, hanswer⟩ := submit_undone htakes hblank hactive hquorate hplace hskip hrevise
  refine ⟨hanswer, hrun, ⟨a, hassignment, hp,
    hblank a (List.mem_of_find?_eq_some hassignment) hp⟩, fun e' now' flags' result' happroved =>
      ?_⟩
  refine advanced_of_approved (x := x) ?_ ?_ ?_ hplace happroved
  · rw [hrun]
    exact htakes
  · rw [hrun]
    exact hactive
  · rw [Execution.isQuorate_submit hassignment hp] at hquorate ⊢
    exact hquorate

end Engine

namespace Sample

/-- The first submission that is reviewed has to be revised. -/
def critic : Engine :=
  { crew with
    advisers.reviewer := some fun reviews _ _ =>
      .ok (if reviews = 0 then .revise "more" ["short"] else .approved) }

def drafted : Session :=
  (critic.play (panel .anyOne true) ⟨0⟩ { run := {} } (.start {})).1

def draft : Execution :=
  { vote with quorum := .anyOne }

theorem executions_drafted : drafted.run.executions = [draft] := by
  cbv

theorem drafted_fields : drafted.run.status = .active ∧ drafted.log.reviews = 0 := by
  constructor <;> cbv

end Sample

namespace Engine

/-- A draft is returned, and is accepted when it is submitted again. -/
theorem Reaches.revision_undone_drafted :
    Sample.drafted.run.takes? "exec_" "asg_1" = some Sample.draft ∧
      (Sample.critic.submit (Sample.panel .anyOne true) ⟨1⟩ {} Sample.drafted "exec_" "asg_1"
        []).1.run = { Sample.drafted.run with lastActivityAt := some ⟨1⟩ } ∧
      (Sample.crew.submit (Sample.panel .anyOne true) ⟨2⟩ {}
        (Sample.critic.submit (Sample.panel .anyOne true) ⟨1⟩ {} Sample.drafted "exec_" "asg_1"
          []).1 "exec_" "asg_1" []).2.advanced = true := by
  have hreaches : Sample.critic.Reaches (Sample.panel .anyOne true) (fun _ => True)
      Sample.drafted := .start ⟨rfl, rfl, rfl⟩
  obtain ⟨hstatus, hreviews⟩ := Sample.drafted_fields
  have htakes : Sample.drafted.run.takes? "exec_" "asg_1" = some Sample.draft := by
    rw [Run.takes?, Run.find?, Sample.executions_drafted]
    rfl
  have hquorate : (Sample.draft.submit "asg_1" [] ⟨1⟩).isQuorate = true := by decide
  have hskip : Flags.skipReview {} = false := rfl
  obtain ⟨_, hrun, _, hagain⟩ := hreaches.revision_undone hstatus htakes hquorate rfl hskip
    (by rw [hreviews]; rfl)
  exact ⟨htakes, hrun, hagain Sample.crew ⟨2⟩ {} [] rfl⟩

end Engine

end Workflow
