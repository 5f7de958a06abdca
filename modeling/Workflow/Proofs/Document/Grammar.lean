import Mathlib.Data.List.Forall2
import Workflow.Proofs.Document.RoundTrip
import Workflow.Proofs.Edit.Ids

namespace Workflow

theorem StepType.isBranch_iff {type : StepType} :
    (∃ kind : BranchKind, type = kind.type) ↔
      type = .singleChoiceBranch ∨ type = .multiChoiceBranch ∨ type = .parallelBranch := by
  constructor
  · rintro ⟨kind, rfl⟩
    cases kind <;> simp [BranchKind.type]
  · rintro (rfl | rfl | rfl)
    · exact ⟨.singleChoice, rfl⟩
    · exact ⟨.multiChoice, rfl⟩
    · exact ⟨.parallel, rfl⟩

theorem Choice.isGiven_iff {α : Type} {c : Choice α} : c.isGiven = true ↔ c ≠ .unset := by
  cases c <;> simp [isGiven]

theorem ite_some_eq_none_iff {α : Type} {c : Prop} [Decidable c] {a : α} {rest : Option α} :
    (if c then some a else rest) = none ↔ ¬c ∧ rest = none := by
  split <;> simp_all

namespace Document

/-- Nothing is given that steps of the type have no use for. -/
structure Step.Fits (d : Step) (type : StepType) : Prop where
  paths : d.paths ≠ [] → ∃ kind : BranchKind, type = kind.type
  join : d.join ≠ .unset → ∃ kind : BranchKind, type = kind.type
  outcomes : d.outcomes ≠ [] → type = .decision
  target : d.target ≠ "" → type = .goto
  label : d.label ≠ "" → type = .gotoDestination
  status : d.status ≠ .unset → type = .terminate
  template : d.template ≠ "" → type = .subFlow
  quorum : d.quorum ≠ .unset → type.isAction = true ∨ type = .subFlow
  review : d.review = true → type.isAction = true

/-- A fixed deadline has a date. -/
def Due.IsDated (due : Due) : Prop :=
  due.kind = .known .fixed → due.date ≠ none

def Condition.IsTyped (c : Condition) : Prop :=
  ∃ comparison, c.comparison = .known comparison

/-- The lists of steps nested in a step, those of its paths before those of its outcomes. -/
def Step.inner (d : Step) : List (List Step) :=
  d.paths.map Path.steps ++ d.outcomes.map Outcome.steps

/-- The documents of steps: of a known type that they fit, and the same of the steps nested in
them. -/
inductive Step.Grammatical : Step → Prop where
  | intro {d : Step} {type : StepType} (named : d.type = type.name) (fits : d.Fits type)
      (dated : ∀ due ∈ d.due, due.IsDated)
      (typed : ∀ p ∈ d.paths, ∀ c ∈ p.condition.toList ++ p.conditions, c.IsTyped)
      (nested : ∀ steps ∈ d.inner, ∀ s ∈ steps, Grammatical s) : Grammatical d

mutual

/-- The document of a step and those of all steps nested in it, in reading order. -/
def Step.preorder : Step → List Step
  | ⟨id, typeName, milestone, title, description, due, config, quorum, review, template, paths,
      join, outcomes, target, label, status⟩ =>
    ⟨id, typeName, milestone, title, description, due, config, quorum, review, template, paths,
      join, outcomes, target, label, status⟩ :: (Path.preorder paths ++ Outcome.preorder outcomes)

def Path.preorder : List (Path Step) → List Step
  | [] => []
  | ⟨_, _, _, _, _, steps⟩ :: rest => Step.preorderAll steps ++ Path.preorder rest

def Outcome.preorder : List (Outcome Step) → List Step
  | [] => []
  | ⟨_, _, steps⟩ :: rest => Step.preorderAll steps ++ Outcome.preorder rest

def Step.preorderAll : List Step → List Step
  | [] => []
  | d :: rest => d.preorder ++ Step.preorderAll rest

end

theorem Path.preorder_eq (paths : List (Path Step)) :
    Path.preorder paths = (paths.map Path.steps).flatMap Step.preorderAll := by
  induction paths with
  | nil => simp [Path.preorder]
  | cons p rest ih => simp [Path.preorder, ih]

theorem Outcome.preorder_eq (outcomes : List (Outcome Step)) :
    Outcome.preorder outcomes = (outcomes.map Outcome.steps).flatMap Step.preorderAll := by
  induction outcomes with
  | nil => simp [Outcome.preorder]
  | cons o rest ih => simp [Outcome.preorder, ih]

namespace Step

theorem preorder_eq (d : Step) : d.preorder = d :: d.inner.flatMap preorderAll := by
  obtain ⟨id, typeName, milestone, title, description, due, config, quorum, review, template,
    paths, join, outcomes, target, label, status⟩ := d
  rw [preorder, Path.preorder_eq, Outcome.preorder_eq, inner, List.flatMap_append]

theorem sizeOf_lt_of_inner {d s : Step} {steps : List Step} (hi : steps ∈ d.inner)
    (hs : s ∈ steps) : sizeOf s < sizeOf d := by
  obtain ⟨id, typeName, milestone, title, description, due, config, quorum, review, template,
    paths, join, outcomes, target, label, status⟩ := d
  have hstep := List.sizeOf_lt_of_mem hs
  rcases List.mem_append.mp hi with hi | hi
  · obtain ⟨p, hp, rfl⟩ := List.mem_map.mp hi
    have hpath := List.sizeOf_lt_of_mem hp
    obtain ⟨pid, plabel, condition, conditions, logic, steps⟩ := p
    simp only [Path.mk.sizeOf_spec, Step.mk.sizeOf_spec] at *
    omega
  · obtain ⟨o, ho, rfl⟩ := List.mem_map.mp hi
    have houtcome := List.sizeOf_lt_of_mem ho
    obtain ⟨oid, olabel, steps⟩ := o
    simp only [Outcome.mk.sizeOf_spec, Step.mk.sizeOf_spec] at *
    omega

/-- Induction from the steps nested in a document to the document. -/
theorem induction_inner {P : Step → Prop}
    (h : ∀ d : Step, (∀ steps ∈ d.inner, ∀ s ∈ steps, P s) → P d) (d : Step) : P d :=
  h d fun _ hi s hs =>
    have := sizeOf_lt_of_inner hi hs
    induction_inner h s
termination_by sizeOf d

/-- No field is found misplaced just when the document fits its type. -/
theorem misplaced?_eq_none_iff {d : Step} {type : StepType} :
    d.misplaced? type = none ↔ d.Fits type := by
  unfold misplaced?
  simp only [ite_some_eq_none_iff, Bool.and_eq_true, Bool.or_eq_true, Bool.not_eq_true',
    ← Bool.not_eq_true, decide_eq_true_eq, Choice.isGiven_iff, List.isEmpty_iff, not_and, not_or,
    not_not, and_true, or_assoc, ← StepType.isBranch_iff]
  constructor
  · intro ⟨hbranch, houtcomes, htarget, hlabel, hstatus, htemplate, hquorum, hreview⟩
    exact
      { paths := fun h => by_contra fun hn => h (hbranch hn).1
        join := fun h => by_contra fun hn => h (hbranch hn).2
        outcomes := fun h => by_contra fun hn => h (houtcomes hn)
        target := fun h => by_contra fun hn => h (htarget hn)
        label := fun h => by_contra fun hn => h (hlabel hn)
        status := fun h => by_contra fun hn => h (hstatus hn)
        template := fun h => by_contra fun hn => h (htemplate hn)
        quorum := fun h => by_contra fun hn => h (hquorum (not_or.mp hn))
        review := fun h => by_contra fun hn => hreview hn h }
  · intro h
    refine ⟨fun hn => ⟨?_, ?_⟩, fun hn => ?_, fun hn => ?_, fun hn => ?_, fun hn => ?_,
      fun hn => ?_, fun hn => ?_, fun hn hreview => hn (h.review hreview)⟩
    · exact by_contra fun hc => hn (h.paths hc)
    · exact by_contra fun hc => hn (h.join hc)
    · exact by_contra fun hc => hn (h.outcomes hc)
    · exact by_contra fun hc => hn (h.target hc)
    · exact by_contra fun hc => hn (h.label hc)
    · exact by_contra fun hc => hn (h.status hc)
    · exact by_contra fun hc => hn (h.template hc)
    · exact by_contra fun hc => (h.quorum hc).elim hn.1 hn.2

end Step

end Document

theorem StepType.ofName?_eq_some_iff {name : String} {type : StepType} :
    StepType.ofName? name = some type ↔ name = type.name := by
  constructor
  · intro h
    have hname := List.find?_some h
    exact (beq_iff_eq.mp hname).symm
  · intro h
    rw [h, StepType.ofName?_name]

/-- Reading a list succeeds with what reading its elements gives. -/
theorem mapM_ok_iff {ε α β : Type} {f : α → Except ε β} {as : List α} {bs : List β} :
    as.mapM f = .ok bs ↔ List.Forall₂ (fun a b => f a = .ok b) as bs := by
  induction as generalizing bs with
  | nil =>
    rw [List.mapM_nil, List.forall₂_nil_left_iff]
    exact ⟨fun h => (Except.ok.inj h).symm, fun h => congrArg Except.ok h.symm⟩
  | cons a rest ih =>
    rw [List.mapM_cons, List.forall₂_cons_left_iff, bind_eq_ok_iff]
    constructor
    · rintro ⟨b, hb, h⟩
      obtain ⟨bs, hbs, h⟩ := bind_eq_ok_iff.mp h
      cases h
      exact ⟨b, bs, hb, ih.mp hbs, rfl⟩
    · rintro ⟨b, bs, hb, hbs, rfl⟩
      exact ⟨b, hb, bind_eq_ok_iff.mpr ⟨bs, ih.mpr hbs, rfl⟩⟩

theorem exists_mapM_ok_iff {ε α β : Type} {f : α → Except ε β} {as : List α} :
    (∃ bs, as.mapM f = .ok bs) ↔ ∀ a ∈ as, ∃ b, f a = .ok b := by
  simp only [mapM_ok_iff]
  induction as with
  | nil => simp
  | cons a rest ih =>
    rw [List.forall_mem_cons, ← ih]
    constructor
    · rintro ⟨_, hbs⟩
      cases hbs with
      | cons hb hrest => exact ⟨⟨_, hb⟩, _, hrest⟩
    · rintro ⟨⟨b, hb⟩, bs, hbs⟩
      exact ⟨b :: bs, .cons hb hbs⟩

theorem Step.ofDocuments_eq (ds : List Document.Step) :
    Step.ofDocuments ds = ds.mapM Step.ofDocument := by
  induction ds with
  | nil => rfl
  | cons d rest ih => rw [Step.ofDocuments, List.mapM_cons, ih]

theorem Path.ofDocuments_eq (ds : List (Document.Path Document.Step)) :
    Path.ofDocuments ds = ds.mapM Path.ofDocument := by
  induction ds with
  | nil => rfl
  | cons d rest ih =>
    rw [Path.ofDocuments, List.mapM_cons, ih, Path.ofDocument]
    cases Guard.ofDocument d.condition d.conditions d.logic with
    | error e => rfl
    | ok guard =>
      cases Step.ofDocuments d.steps with
      | error e => rfl
      | ok steps => rfl

theorem Outcome.ofDocuments_eq (ds : List (Document.Outcome Document.Step)) :
    Outcome.ofDocuments ds = ds.mapM Outcome.ofDocument := by
  induction ds with
  | nil => rfl
  | cons d rest ih =>
    rw [Outcome.ofDocuments, List.mapM_cons, ih, Outcome.ofDocument]
    cases Step.ofDocuments d.steps with
    | error e => rfl
    | ok steps => rfl

/-- What a document has to be for its step. -/
theorem Step.ofDocument_ok_iff {d : Document.Step} {s : Step} :
    Step.ofDocument d = .ok s ↔
      ∃ type due paths outcomes, d.type = type.name ∧ d.Fits type ∧
        Deadline.ofDocument? d.due = .ok due ∧ d.paths.mapM Path.ofDocument = .ok paths ∧
        d.outcomes.mapM Outcome.ofDocument = .ok outcomes ∧
        s = ⟨d.id, d.milestone, d.title, d.description, due, d.config,
          Body.ofDocument d type paths outcomes⟩ := by
  simp only [← StepType.ofName?_eq_some_iff, ← Document.Step.misplaced?_eq_none_iff,
    ← Path.ofDocuments_eq, ← Outcome.ofDocuments_eq]
  obtain ⟨id, typeName, milestone, title, description, due, config, quorum, review, template,
    paths, join, outcomes, target, label, status⟩ := d
  rw [Step.ofDocument]
  cases StepType.ofName? typeName with
  | none => simp
  | some type =>
    dsimp only
    split
    · rename_i payload hpayload
      simp [hpayload]
    · rename_i hplaced
      simp only [bind_eq_ok_iff]
      constructor
      · rintro ⟨due', hdue, paths', hpaths, outcomes', houtcomes, h⟩
        exact ⟨type, due', paths', outcomes', rfl, hplaced, hdue, hpaths, houtcomes,
          (Except.ok.inj h).symm⟩
      · rintro ⟨_, due', paths', outcomes', ⟨⟩, -, hdue, hpaths, houtcomes, rfl⟩
        exact ⟨due', hdue, paths', hpaths, outcomes', houtcomes, rfl⟩

/-- A deadline is accepted just when it is dated or not fixed. -/
theorem Deadline.exists_ofDocument?_iff {due : Option Document.Due} :
    (∃ d, Deadline.ofDocument? due = .ok d) ↔ ∀ d ∈ due, d.IsDated := by
  cases due with
  | none => simp [Deadline.ofDocument?]
  | some due =>
    obtain ⟨kind, value, unit, date⟩ := due
    have hdated : Document.Due.IsDated ⟨kind, value, unit, date⟩ ↔
        Deadline.isDated ⟨kind.getD .relative, value, unit.getD .days,
          date.map Timestamp.toInstant⟩ = true := by
      unfold Document.Due.IsDated Deadline.isDated
      cases kind <;> cases date <;> simp [Choice.getD, Choice.toOption]
    simp only [Deadline.ofDocument?, map_eq_ok_iff, Deadline.ofDocument, Option.mem_some_iff,
      forall_eq', hdated]
    constructor
    · rintro ⟨_, _, h, -⟩
      split at h
      · assumption
      · cases h
    · intro h
      exact ⟨_, _, if_pos h, rfl⟩

/-- A deadline that was read has the date that it needs. -/
theorem Deadline.isDated_of_ofDocument? {due : Option Document.Due} {d : Option Deadline}
    (h : Deadline.ofDocument? due = .ok d) : d.all Deadline.isDated = true := by
  cases due with
  | none =>
    cases h
    rfl
  | some due =>
    simp only [Deadline.ofDocument?, map_eq_ok_iff, Deadline.ofDocument] at h
    obtain ⟨d, hd, rfl⟩ := h
    split at hd
    · rename_i hdated
      cases hd
      exact hdated
    · cases hd

theorem Clause.exists_ofDocument_iff {c : Document.Condition} :
    (∃ clause, Clause.ofDocument c = .ok clause) ↔ c.IsTyped := by
  unfold Clause.ofDocument Document.Condition.IsTyped
  cases c.comparison <;> simp [Choice.toOption]

theorem Path.exists_ofDocument_iff {p : Document.Path Document.Step} :
    (∃ q, Path.ofDocument p = .ok q) ↔
      (∀ c ∈ p.condition.toList ++ p.conditions, c.IsTyped) ∧
        ∀ s ∈ p.steps, ∃ t, Step.ofDocument s = .ok t := by
  simp only [← Clause.exists_ofDocument_iff, ← exists_mapM_ok_iff]
  simp only [Path.ofDocument, Guard.ofDocument, bind_eq_ok_iff, Step.ofDocuments_eq]
  constructor
  · rintro ⟨_, _, ⟨clauses, hclauses, -⟩, steps, hsteps, -⟩
    exact ⟨⟨clauses, hclauses⟩, steps, hsteps⟩
  · rintro ⟨⟨clauses, hclauses⟩, steps, hsteps⟩
    exact ⟨_, _, ⟨clauses, hclauses, rfl⟩, steps, hsteps, rfl⟩

theorem Outcome.exists_ofDocument_iff {o : Document.Outcome Document.Step} :
    (∃ q, Outcome.ofDocument o = .ok q) ↔
      ∀ s ∈ o.steps, ∃ t, Step.ofDocument s = .ok t := by
  simp only [← exists_mapM_ok_iff, Outcome.ofDocument, bind_eq_ok_iff, Step.ofDocuments_eq]
  constructor
  · rintro ⟨_, steps, hsteps, -⟩
    exact ⟨steps, hsteps⟩
  · rintro ⟨steps, hsteps⟩
    exact ⟨_, steps, hsteps, rfl⟩

/-- A document is accepted if its own level is well-formed and the nested ones are accepted. -/
theorem Step.exists_ofDocument_iff {d : Document.Step} :
    (∃ s, Step.ofDocument d = .ok s) ↔
      (∃ type : StepType, d.type = type.name ∧ d.Fits type) ∧
        (∀ due ∈ d.due, due.IsDated) ∧
        (∀ p ∈ d.paths, ∀ c ∈ p.condition.toList ++ p.conditions, c.IsTyped) ∧
        ∀ steps ∈ d.inner, ∀ s ∈ steps, ∃ t, Step.ofDocument s = .ok t := by
  have hinner : (∀ steps ∈ d.inner, ∀ s ∈ steps, ∃ t, Step.ofDocument s = .ok t) ↔
      (∀ p ∈ d.paths, ∀ s ∈ p.steps, ∃ t, Step.ofDocument s = .ok t) ∧
        ∀ o ∈ d.outcomes, ∀ s ∈ o.steps, ∃ t, Step.ofDocument s = .ok t := by
    simp only [Document.Step.inner, List.forall_mem_append, List.forall_mem_map]
  rw [hinner, ← Deadline.exists_ofDocument?_iff]
  constructor
  · rintro ⟨s, hs⟩
    obtain ⟨type, due, paths, outcomes, hname, hfits, hdue, hpaths, houtcomes, -⟩ :=
      Step.ofDocument_ok_iff.mp hs
    have hpath := exists_mapM_ok_iff.mp ⟨paths, hpaths⟩
    have houtcome := exists_mapM_ok_iff.mp ⟨outcomes, houtcomes⟩
    refine ⟨⟨type, hname, hfits⟩, ⟨due, hdue⟩, ?_, ?_, ?_⟩
    · intro p hp
      exact (Path.exists_ofDocument_iff.mp (hpath p hp)).1
    · intro p hp
      exact (Path.exists_ofDocument_iff.mp (hpath p hp)).2
    · intro o ho
      exact Outcome.exists_ofDocument_iff.mp (houtcome o ho)
  · rintro ⟨⟨type, hname, hfits⟩, ⟨due, hdue⟩, htyped, hpaths, houtcomes⟩
    obtain ⟨paths, hpaths⟩ := exists_mapM_ok_iff.mpr fun p hp =>
      Path.exists_ofDocument_iff.mpr ⟨htyped p hp, hpaths p hp⟩
    obtain ⟨outcomes, houtcomes⟩ := exists_mapM_ok_iff.mpr fun o ho =>
      Outcome.exists_ofDocument_iff.mpr (houtcomes o ho)
    exact ⟨_, Step.ofDocument_ok_iff.mpr
      ⟨type, due, paths, outcomes, hname, hfits, hdue, hpaths, houtcomes, rfl⟩⟩

/-- The accepted documents are those of the grammar. -/
theorem Document.Step.accepted_iff (d : Document.Step) :
    (∃ s, Workflow.Step.ofDocument d = .ok s) ↔ d.Grammatical := by
  induction d using Document.Step.induction_inner with
  | h d ih =>
    rw [Step.exists_ofDocument_iff]
    constructor
    · rintro ⟨⟨type, hname, hfits⟩, hdated, htyped, hnested⟩
      refine .intro hname hfits hdated htyped ?_
      intro steps hi s hs
      exact (ih steps hi s hs).mp (hnested steps hi s hs)
    · rintro ⟨hname, hfits, hdated, htyped, hnested⟩
      refine ⟨⟨_, hname, hfits⟩, hdated, htyped, ?_⟩
      intro steps hi s hs
      exact (ih steps hi s hs).mpr (hnested steps hi s hs)

section Outline

theorem forall₂_of_mem {α β : Type} {R S : α → β → Prop} {as : List α} {bs : List β}
    (h : List.Forall₂ R as bs) (hS : ∀ a ∈ as, ∀ b, R a b → S a b) :
    List.Forall₂ S as bs := by
  induction h with
  | nil => exact .nil
  | cons hab _ ih =>
    refine .cons (hS _ List.mem_cons_self _ hab) (ih ?_)
    intro a ha b hb
    exact hS a (List.mem_cons_of_mem _ ha) b hb

theorem forall_mem_of_forall₂ {α β : Type} {P : β → Prop} {as : List α} {bs : List β}
    (h : List.Forall₂ (fun _ b => P b) as bs) : ∀ b ∈ bs, P b := by
  induction h with
  | nil => nofun
  | cons hb _ ih => exact List.forall_mem_cons.mpr ⟨hb, ih⟩

theorem flatMap_eq_of_forall₂ {α β γ : Type} {f : α → List γ} {g : β → List γ}
    {as : List α}
    {bs : List β} (h : List.Forall₂ (fun a b => g b = f a) as bs) :
    bs.flatMap g = as.flatMap f := by
  induction h with
  | nil => rfl
  | cons hab _ ih => rw [List.flatMap_cons, List.flatMap_cons, hab, ih]

theorem Body.type_ofDocument (d : Document.Step) (type : StepType) (paths : List (Path Step))
    (outcomes : List (Outcome Step)) : (Body.ofDocument d type paths outcomes).type = type := by
  cases type <;> rfl

variable {d : Document.Step} {s : Step}

/-- A body of a type owns the paths and the outcomes that the type has a use for. -/
theorem Step.map_inner_ofDocument {type : StepType} {paths : List (Path Step)}
    {outcomes : List (Outcome Step)} (hbody : s.body = Body.ofDocument d type paths outcomes)
    (hpaths : paths ≠ [] → ∃ kind : BranchKind, type = kind.type)
    (houtcomes : outcomes ≠ [] → type = .decision) :
    s.inner.map Prod.snd = paths.map Path.steps ++ outcomes.map Outcome.steps := by
  unfold Step.inner
  rw [hbody]
  by_cases hp : paths = []
  · subst hp
    by_cases ho : outcomes = []
    · subst ho
      cases type <;> rfl
    · obtain rfl := houtcomes ho
      exact List.map_map
  · obtain ⟨kind, rfl⟩ := hpaths hp
    have ho : outcomes = [] := by
      by_contra ho
      have hkind := houtcomes ho
      cases kind <;> cases hkind
    subst ho
    rw [List.map_nil, List.append_nil]
    cases kind <;> exact List.map_map

/-- The steps of the scopes that a step owns are those nested in its document. -/
theorem Step.inner_ofDocument (h : Step.ofDocument d = .ok s) :
    List.Forall₂ (List.Forall₂ fun d s => Step.ofDocument d = .ok s) d.inner
      (s.inner.map Prod.snd) := by
  obtain ⟨type, due, paths, outcomes, -, hfits, -, hpaths, houtcomes, rfl⟩ :=
    Step.ofDocument_ok_iff.mp h
  rw [mapM_ok_iff] at hpaths houtcomes
  have hnopaths : paths ≠ [] → ∃ kind : BranchKind, type = kind.type := by
    intro hne
    refine hfits.paths fun he => hne ?_
    rw [he, List.forall₂_nil_left_iff] at hpaths
    exact hpaths
  have hnooutcomes : outcomes ≠ [] → type = .decision := by
    intro hne
    refine hfits.outcomes fun he => hne ?_
    rw [he, List.forall₂_nil_left_iff] at houtcomes
    exact houtcomes
  rw [Step.map_inner_ofDocument rfl hnopaths hnooutcomes, Document.Step.inner]
  refine List.rel_append ?_ ?_
  · rw [List.forall₂_map_left_iff, List.forall₂_map_right_iff]
    refine hpaths.imp ?_
    intro e p hp
    simp only [Path.ofDocument, bind_eq_ok_iff, Step.ofDocuments_eq] at hp
    obtain ⟨guard, -, steps, hsteps, hp⟩ := hp
    cases hp
    exact mapM_ok_iff.mp hsteps
  · rw [List.forall₂_map_left_iff, List.forall₂_map_right_iff]
    refine houtcomes.imp ?_
    intro e o ho
    simp only [Outcome.ofDocument, bind_eq_ok_iff, Step.ofDocuments_eq] at ho
    obtain ⟨steps, hsteps, ho⟩ := ho
    cases ho
    exact mapM_ok_iff.mp hsteps

theorem Step.areDated_iff (steps : List Step) :
    Step.areDated steps = true ↔ ∀ s ∈ steps, s.isDated = true := by
  induction steps with
  | nil => simp [Step.areDated]
  | cons s rest ih => simp [Step.areDated, ih]

/-- All deadlines in a step are dated if its own is and those of the steps in it are. -/
theorem Step.isDated_iff (s : Step) :
    s.isDated = true ↔ s.due.all Deadline.isDated = true ∧
      ∀ steps ∈ s.inner.map Prod.snd, ∀ t ∈ steps, t.isDated = true := by
  have hpaths : ∀ paths, Path.areDated paths = true ↔
      ∀ p ∈ paths, ∀ t ∈ p.steps, t.isDated = true := by
    intro paths
    induction paths with
    | nil => simp [Path.areDated]
    | cons p rest ih => simp [Path.areDated, ih, Step.areDated_iff]
  have houtcomes : ∀ outcomes, Outcome.areDated outcomes = true ↔
      ∀ o ∈ outcomes, ∀ t ∈ o.steps, t.isDated = true := by
    intro outcomes
    induction outcomes with
    | nil => simp [Outcome.areDated]
    | cons o rest ih => simp [Outcome.areDated, ih, Step.areDated_iff]
  obtain ⟨id, milestone, title, description, due, config, body⟩ := s
  rw [Step.isDated, Bool.and_eq_true]
  cases body <;> simp [Body.isDated, Step.inner, hpaths, houtcomes]

/-- A step that was read is written so that it can be read again. -/
theorem Step.isDated_of_ofDocument (d : Document.Step) :
    ∀ {s : Step}, Step.ofDocument d = .ok s → s.isDated = true := by
  induction d using Document.Step.induction_inner with
  | h d ih =>
    intro s h
    rw [Step.isDated_iff]
    constructor
    · obtain ⟨type, due, paths, outcomes, -, -, hdue, -, -, rfl⟩ := Step.ofDocument_ok_iff.mp h
      exact Deadline.isDated_of_ofDocument? hdue
    · refine forall_mem_of_forall₂ (forall₂_of_mem (Step.inner_ofDocument h) ?_)
      intro ds hd ss hss
      refine forall_mem_of_forall₂ (forall₂_of_mem hss ?_)
      intro e he t ht
      exact ih ds hd e he ht

/-- What the outline says of a step, and what its document says of it. -/
def Place.label (p : Place) : String × String :=
  (p.id, p.step.type.name)

def Document.Step.heading (d : Document.Step) : String × String :=
  (d.id, d.type)

theorem Step.heading_ofDocument (h : Step.ofDocument d = .ok s) :
    (s.id, s.type.name) = d.heading := by
  obtain ⟨type, due, paths, outcomes, hname, -, -, -, -, rfl⟩ := Step.ofDocument_ok_iff.mp h
  rw [Step.type, Body.type_ofDocument, Document.Step.heading, hname]

theorem Step.walkAll_ofDocuments {ds : List Document.Step} {ss : List Step}
    (h : List.Forall₂ (fun d s => ∀ scopes siblings index,
      (s.walk scopes siblings index).map Place.label = d.preorder.map Document.Step.heading) ds ss)
    (scopes : List Scope) (siblings : List Step) (index : Nat) :
    (Step.walkAll scopes siblings index ss).map Place.label =
      (Document.Step.preorderAll ds).map Document.Step.heading := by
  induction h generalizing index with
  | nil => simp [Step.walkAll, Document.Step.preorderAll]
  | cons hd _ ih =>
    rw [Step.walkAll, Document.Step.preorderAll, List.map_append, List.map_append, hd, ih]

/-- A step has the outline of its document. -/
theorem Step.walk_ofDocument (d : Document.Step) :
    ∀ {s : Step}, Step.ofDocument d = .ok s → ∀ scopes siblings index,
      (s.walk scopes siblings index).map Place.label =
        d.preorder.map Document.Step.heading := by
  induction d using Document.Step.induction_inner with
  | h d ih =>
    intro s h scopes siblings index
    rw [Step.walk_eq, Document.Step.preorder_eq, List.map_cons, List.map_cons, List.map_flatMap,
      List.map_flatMap, ← Step.heading_ofDocument h]
    congr 1
    apply flatMap_eq_of_forall₂
    refine forall₂_of_mem (List.forall₂_map_right_iff.mp (Step.inner_ofDocument h)) ?_
    intro steps hi i hsteps
    refine Step.walkAll_ofDocuments (forall₂_of_mem hsteps ?_) _ _ _
    intro e he t ht
    exact ih steps hi e he ht

end Outline

/-- A document of a step is accepted just when it keeps the grammar. The step is written so that it
is read again, up to the logic of guards that join nothing, and it has the ids and the types of its
document in reading order. -/
theorem Document.Step.accepts_grammar (d : Document.Step) :
    ((∃ s, Workflow.Step.ofDocument d = .ok s) ↔ d.Grammatical) ∧
    ∀ s, Workflow.Step.ofDocument d = .ok s →
      Workflow.Step.ofDocument s.toDocument = .ok s.canon ∧
      s.ids = d.preorder.map Document.Step.id ∧
      (s.walk [] [s] 0).map (fun p => (p.id, p.step.type.name)) =
        d.preorder.map fun e => (e.id, e.type) := by
  refine ⟨d.accepted_iff, ?_⟩
  intro s h
  have houtline := Step.walk_ofDocument d h [] [s] 0
  refine ⟨by rw [s.ofDocument_toDocument, Step.isDated_of_ofDocument d h, if_pos rfl],
    ?_, houtline⟩
  have hids := congrArg (List.map Prod.fst) houtline
  rw [List.map_map, List.map_map] at hids
  rw [← s.map_id_walk [] [s] 0]
  exact hids

namespace Document

/-- A branch with a decision on its first path and nothing on its second. -/
def Sample.nested : Step :=
  let sign : Step :=
    { id := "sign", type := "ESIGN", quorum := .known .all, review := true,
      due := some { kind := .known .fixed, date := some ⟨0, 0⟩ } }
  let ask : Step :=
    { id := "ask", type := "DECISION", outcomes := [{ id := "yes", steps := [sign] }] }
  { id := "fork", type := "PARALLEL_BRANCH", join := .known .anyOne
    paths :=
      [{ id := "left", conditions := [{ comparison := .known .isEmpty, left := "x" }],
         logic := .known .any, steps := [ask] },
       { id := "right", condition := some { comparison := .known .otherwise } }] }

theorem Step.accepts_grammar_nested :
    ∃ s, Workflow.Step.ofDocument Sample.nested = .ok s ∧
      Workflow.Step.ofDocument s.toDocument = .ok s.canon ∧
      s.ids = ["fork", "ask", "sign"] ∧
      (s.walk [] [s] 0).map (fun p => (p.id, p.step.type.name)) =
        [("fork", "PARALLEL_BRANCH"), ("ask", "DECISION"), ("sign", "ESIGN")] := by
  obtain ⟨s, hs⟩ : ∃ s, Workflow.Step.ofDocument Sample.nested = .ok s := ⟨_, rfl⟩
  obtain ⟨hreads, hids, htypes⟩ := (accepts_grammar Sample.nested).2 s hs
  exact ⟨s, hs, hreads, hids, htypes⟩

end Document

end Workflow
