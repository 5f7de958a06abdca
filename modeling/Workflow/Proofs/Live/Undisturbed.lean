import Workflow.Proofs.Alike
import Workflow.Proofs.Live.Play

namespace Workflow

namespace Engine

theorem verdict_of_none {e : Engine} (h : e.advisers.reviewer = none) (reviews : Nat) (step : Step)
    (result : Record) : e.verdict reviews step result = .approved := by
  rw [verdict, h]

/-- The engine with advisers who never refuse: they approve and name no assignees instead. -/
def heeded (e : Engine) : Engine :=
  { e with
    advisers.reviewer := e.advisers.reviewer.map fun answer reviews step result =>
      .ok ((answer reviews step result).toOption.getD .approved)
    advisers.assignees := e.advisers.assignees.map fun answer step r =>
      .ok ((answer step r).toOption.getD []) }

/-- The answers to some moves and the run after each of them. -/
def course (e : Engine) (flow : Flow) : Session → List (Instant × Move) → List (Answer × Run)
  | _, [] => []
  | s, (now, move) :: rest =>
    ((e.play flow now s move).2, (e.play flow now s move).1.run) ::
      e.course flow (e.play flow now s move).1 rest

end Engine

namespace LiveEngine

/-- The answers to some moves and the run after each of them. A move that is broken off has none. -/
def course (e : LiveEngine) (flow : Flow) :
    Stage → List (Instant × Move) → List (Except String Answer × Run)
  | _, [] => []
  | t, (now, move) :: rest =>
    match (e.play flow now move).run t with
    | .ok answer t => (.ok answer, t.run) :: e.course flow t rest
    | .error failure t => (.error failure, t.run) :: e.course flow t rest

/-- Two live engines of the same kind with the same advice, as far as it counts. Their listeners
have nothing to do with each other. -/
structure SameAdvice (e e' : LiveEngine) : Prop where
  policy : e.engine.policy = e'.engine.policy
  catalogue : e.engine.catalogue = e'.engine.catalogue
  newId : e.engine.newId = e'.engine.newId
  verdict : ∀ reviews step result,
    e.engine.verdict reviews step result = e'.engine.verdict reviews step result
  assignees : ∀ step r, e.engine.assigneesOf step r = e'.engine.assigneesOf step r

variable {e e' : LiveEngine} {flow : Flow} {s s' : Session}

theorem course_stage (moves : List (Instant × Move)) (calls : List Call) :
    e.course flow (s.stage e calls) moves =
      (e.engine.course flow s moves).map fun (answer, r) => (.ok answer, r) := by
  induction moves generalizing s with
  | nil => rfl
  | cons head rest ih =>
    obtain ⟨now, move⟩ := head
    have hplay : (e.play flow now move).run (s.stage e calls) =
      .ok (e.engine.play flow now s move).2
        ((e.engine.play flow now s move).1.stage e calls) := does_play move calls
    rw [course, hplay]
    dsimp only
    rw [ih]
    rfl

theorem sameAdvice_heeded (e : LiveEngine) : e.SameAdvice { e with engine := e.engine.heeded } where
  policy := rfl
  catalogue := rfl
  newId := rfl
  verdict reviews step result := by
    unfold Engine.verdict Engine.heeded
    cases e.engine.advisers.reviewer <;> rfl
  assignees step r := by
    unfold Engine.assigneesOf Engine.heeded
    cases e.engine.advisers.assignees <;> rfl

/-- Both draw the same identifiers, and if both have reviewers, then they have asked them equally
often. -/
def stride (e e' : LiveEngine) (last : Nat) : Pace where
  shift := 0
  first := 0
  last := last
  reviews n n' :=
    e.engine.advisers.reviewer.isSome → e'.engine.advisers.reviewer.isSome → n = n'

theorem SameAdvice.agrees (h : e.SameAdvice e') (last : Nat) :
    e.engine.Agrees e'.engine (stride e e' last) where
  policy := h.policy
  catalogue := h.catalogue
  newId kind n _ _ := by rw [h.newId, stride, Nat.add_zero]
  assignees := h.assignees
  counted n n' hn hsome hsome' := by
    rw [Engine.counted, Engine.counted, if_pos hsome, if_pos hsome', hn hsome hsome']

/-- Engines with the same advice judge alike. -/
theorem SameAdvice.judgeAlike (h : e.SameAdvice e') {last : Nat}
    (halike : s.Alike (stride e e' last) s') (last' : Nat) :
    Engine.JudgeAlike e.engine e'.engine s s' last' := by
  refine .inl fun step result => ?_
  -- The counters may differ only if one of the two has no reviewer. It approves at any count, and
  -- so does the other, whose verdicts are the same.
  cases hreviewer : e.engine.advisers.reviewer with
  | none =>
    rw [← h.verdict, Engine.verdict_of_none hreviewer, Engine.verdict_of_none hreviewer]
  | some answer =>
    cases hreviewer' : e'.engine.advisers.reviewer with
    | none =>
      rw [h.verdict, Engine.verdict_of_none hreviewer', Engine.verdict_of_none hreviewer']
    | some answer' =>
      have hequal : s.log.reviews = s'.log.reviews :=
        halike.reviews (by rw [hreviewer]; rfl) (by rw [hreviewer']; rfl)
      rw [h.verdict, hequal]

theorem SameAdvice.course_eq (h : e.SameAdvice e') (moves : List (Instant × Move)) {last : Nat}
    (halike : s.Alike (stride e e' last) s') :
    e.engine.course flow s moves = e'.engine.course flow s' moves := by
  induction moves generalizing s s' last with
  | nil => rfl
  | cons head rest ih =>
    obtain ⟨now, move⟩ := head
    have hwithin : s.Alike (stride e e' (e'.engine.play flow now s' move).1.log.drawn) s' :=
      ⟨halike.run, halike.drawn, halike.first, halike.reviews⟩
    obtain ⟨hsession, hanswer⟩ := Engine.play_alike (h.agrees _) hwithin move
      (h.judgeAlike halike _) (Nat.le_refl _)
    rw [Engine.course, Engine.course, hanswer, hsession.run, ih hsession]

/-- What was called before leaves no trace either. -/
theorem course_of (e : LiveEngine) (flow : Flow) (t : Stage) (calls : List Call)
    (moves : List (Instant × Move)) :
    e.course flow { t with calls := calls } moves =
      (e.engine.course flow ⟨t.run, ⟨t.drawn, t.reviews, []⟩⟩ moves).map
        fun (answer, r) => (.ok answer, r) :=
  course_stage (s := ⟨t.run, ⟨t.drawn, t.reviews, []⟩⟩) moves calls

theorem SameAdvice.live_course_eq (h : e.SameAdvice e') (t : Stage) (calls : List Call)
    (moves : List (Instant × Move)) :
    e.course flow t moves = e'.course flow { t with calls := calls } moves := by
  have halike : Session.Alike (stride e e' 0) ⟨t.run, ⟨t.drawn, t.reviews, []⟩⟩
      ⟨t.run, ⟨t.drawn, t.reviews, []⟩⟩ :=
    ⟨rfl, rfl, Nat.zero_le _, fun _ _ => rfl⟩
  rw [e'.course_of, ← h.course_eq moves halike]
  exact e.course_of flow t t.calls moves

/-- With the same advice, all runs and all answers are the same, whatever becomes of the calls to
listeners. No move is ever broken off. Advisers who refuse count as if they approved and named no
assignees. -/
theorem undisturbed (flow : Flow) (e e' : LiveEngine) (h : e.SameAdvice e') (t : Stage)
    (calls : List Call) (moves : List (Instant × Move)) :
    e.course flow t moves = e'.course flow { t with calls := calls } moves ∧
      (∀ x ∈ e.course flow t moves, ∃ answer, x.1 = .ok answer) ∧
      e.course flow t moves =
        ({ e with engine := e.engine.heeded } : LiveEngine).course flow t moves := by
  refine ⟨h.live_course_eq t calls moves, ?_,
    e.sameAdvice_heeded.live_course_eq t t.calls moves⟩
  intro x hx
  have hcourse : e.course flow t moves = _ := e.course_of flow t t.calls moves
  rw [hcourse, List.mem_map] at hx
  obtain ⟨y, _, rfl⟩ := hx
  exact ⟨y.1, rfl⟩

namespace Sample

def quiet : LiveEngine :=
  { engine := { newId := fun kind n => kind ++ toString n }
    listeners := {} }

def down : LiveEngine :=
  { engine := { quiet.engine with
      advisers.reviewer := some fun _ _ _ => .error "down"
      advisers.assignees := some fun _ _ => .error "down" }
    listeners :=
      { notifier := some fun _ _ => .error "down"
        timers := some fun _ _ => .error "down"
        subFlows := some fun _ _ => .error "down"
        links := some fun _ _ => .error "down"
        email := some fun _ _ => .error "down"
        automation := some fun _ _ => .error "down" } }

def desk : Flow :=
  { Flow.empty "desk" "" with
    steps := [⟨"a", "", "", "", none, [], .action ⟨.questionnaire, rfl⟩ .anyOne true⟩] }

def moves : List (Instant × Move) :=
  [(⟨0⟩, .start {}), (⟨1⟩, .complete "exec0" [] {})]

theorem sameAdvice_down : down.SameAdvice quiet where
  policy := rfl
  catalogue := rfl
  newId := rfl
  verdict reviews step result := by
    cases h : step.body.isReviewed <;> simp [Engine.verdict, down, quiet, h, Except.toOption]
  assignees step r := by
    by_cases h : step.category = .humanAction <;>
      simp [Engine.assigneesOf, down, quiet, h, Except.toOption]

end Sample

theorem undisturbed_down : Sample.down.SameAdvice Sample.quiet ∧
    Sample.down.course Sample.desk { run := {} } Sample.moves =
      Sample.quiet.course Sample.desk { run := {} } Sample.moves :=
  ⟨Sample.sameAdvice_down,
    (undisturbed Sample.desk Sample.down Sample.quiet Sample.sameAdvice_down { run := {} } []
      Sample.moves).1⟩

example : (Sample.down.course Sample.desk { run := {} } Sample.moves).map (fun x => x.2.status) =
    [.active, .completed] := by
  cbv

end LiveEngine

end Workflow
