import Workflow.Proofs.Edit.Ids

namespace Workflow

/-- What a step does, with the steps of one of its scopes left out. -/
inductive Slot where
  | path (kind : BranchKind) (join : Quorum) (before : List (Path Step)) (id label : String)
    (guard : Guard) (after : List (Path Step))
  | outcome (before : List (Outcome Step)) (id label : String) (after : List (Outcome Step))

namespace Slot

def fill (steps : List Step) : Slot → Body Step
  | path kind join before id label guard after =>
    .branch kind join (before ++ ⟨id, label, guard, steps⟩ :: after)
  | outcome before id label after => .decision (before ++ ⟨id, label, steps⟩ :: after)

def scope (owner : String) : Slot → Scope
  | path _ _ _ id _ _ _ => ⟨.path, owner, id⟩
  | outcome _ id _ _ => ⟨.outcome, owner, id⟩

def earlier (owner : String) : Slot → List (Scope × List Step)
  | path _ _ before _ _ _ _ => before.map fun p => (⟨.path, owner, p.id⟩, p.steps)
  | outcome before _ _ _ => before.map fun o => (⟨.outcome, owner, o.id⟩, o.steps)

def later (owner : String) : Slot → List (Scope × List Step)
  | path _ _ _ _ _ _ after => after.map fun p => (⟨.path, owner, p.id⟩, p.steps)
  | outcome _ _ _ after => after.map fun o => (⟨.outcome, owner, o.id⟩, o.steps)

end Slot

/-- A list of steps, with the steps of one scope of one of them left out. What the owner of the
scope does is in the slot. -/
structure Frame where
  before : List Step
  owner : Step
  slot : Slot
  after : List Step

namespace Frame

def fill (steps : List Step) (fr : Frame) : List Step :=
  fr.before ++ { fr.owner with body := fr.slot.fill steps } :: fr.after

def scope (fr : Frame) : Scope :=
  fr.slot.scope fr.owner.id

def ahead (fr : Frame) : List String :=
  Step.idsOf fr.before ++ fr.owner.id ::
    (fr.slot.earlier fr.owner.id).flatMap fun i => Step.idsOf i.2

def behind (fr : Frame) : List String :=
  ((fr.slot.later fr.owner.id).flatMap fun i => Step.idsOf i.2) ++ Step.idsOf fr.after

end Frame

/-- The frames around a list of steps, from the main path inwards. -/
abbrev Context := List Frame

namespace Context

def fill (c : Context) (steps : List Step) : List Step :=
  c.foldr (fun fr inside => fr.fill inside) steps

/-- The scope whose steps are left out, unless it is the main path. -/
def scope? (c : Context) : Option Scope :=
  c.getLast?.map Frame.scope

def ahead (c : Context) : List String :=
  c.flatMap Frame.ahead

def behind (c : Context) : List String :=
  c.reverse.flatMap Frame.behind

variable (c : Context) (fr : Frame) (steps : List Step)

@[simp] theorem fill_nil : fill [] steps = steps := rfl

@[simp] theorem fill_cons : fill (fr :: c) steps = fr.fill (c.fill steps) := rfl

theorem fill_append (d : Context) : fill (c ++ d) steps = c.fill (d.fill steps) :=
  List.foldr_append

end Context

theorem Slot.inner_fill (slot : Slot) (s : Step) (steps : List Step) :
    Step.inner { s with body := slot.fill steps } =
      slot.earlier s.id ++ (slot.scope s.id, steps) :: slot.later s.id := by
  cases slot <;> simp [Step.inner, fill, earlier, later, scope]

/-- A scope of a step can be left out of the step. -/
theorem Step.exists_slot {s : Step} {earlier later : List (Scope × List Step)} {scope : Scope}
    {steps : List Step} (h : s.inner = earlier ++ (scope, steps) :: later) :
    ∃ slot : Slot, { s with body := slot.fill steps } = s ∧ slot.earlier s.id = earlier ∧
      slot.scope s.id = scope := by
  obtain ⟨id, milestone, title, description, due, config, body⟩ := s
  cases body with
  | branch kind join paths =>
    obtain ⟨before, rest, rfl, rfl, hrest⟩ := List.map_eq_append_iff.mp h
    obtain ⟨p, after, rfl, hp, rfl⟩ := List.map_eq_cons_iff.mp hrest
    cases hp
    exact ⟨.path kind join before p.id p.label p.guard after, rfl, rfl, rfl⟩
  | decision outcomes =>
    obtain ⟨before, rest, rfl, rfl, hrest⟩ := List.map_eq_append_iff.mp h
    obtain ⟨o, after, rfl, ho, rfl⟩ := List.map_eq_cons_iff.mp hrest
    cases ho
    exact ⟨.outcome before o.id o.label after, rfl, rfl, rfl⟩
  | _ => simp [Step.inner] at h

theorem Context.idsOf_fill (c : Context) (steps : List Step) :
    Step.idsOf (c.fill steps) = c.ahead ++ Step.idsOf steps ++ c.behind := by
  induction c with
  | nil => simp [ahead, behind]
  | cons fr rest ih =>
    have howner := Step.ids_eq { fr.owner with body := fr.slot.fill (fill rest steps) }
    rw [Slot.inner_fill] at howner
    rw [Step.idsOf_eq] at ih
    simp [Frame.fill, ahead, behind, Frame.ahead, Frame.behind, Step.idsOf_eq, howner, ih]

theorem Context.idsOf_sublist_fill (c : Context) (steps : List Step) :
    (Step.idsOf steps).Sublist (Step.idsOf (c.fill steps)) := by
  rw [idsOf_fill]
  exact (List.sublist_append_right _ _).trans (List.sublist_append_left _ _)

namespace Step

variable {id : String}

theorem walkAll_append (scopes : List Scope) (siblings : List Step) (index : Nat)
    (as bs : List Step) :
    walkAll scopes siblings index (as ++ bs) =
      walkAll scopes siblings index as ++ walkAll scopes siblings (index + as.length) bs := by
  induction as generalizing index with
  | nil => simp [walkAll]
  | cons a rest ih =>
    simp only [List.cons_append, walkAll, ih, List.append_assoc, List.length_cons]
    rw [Nat.add_right_comm, Nat.add_assoc]

/-- A step that is found in scopes is found in one of them, and not before it. -/
theorem find?_inner {scopes : List Scope} {is : List (Scope × List Step)} {p : Place}
    (h : (is.flatMap fun i => walkAll (scopes ++ [i.1]) i.2 0 i.2).find? (fun q => q.id == id) =
      some p) :
    ∃ earlier scope steps later, is = earlier ++ (scope, steps) :: later ∧
      id ∉ (earlier.flatMap fun i => idsOf i.2) ∧
      (walkAll (scopes ++ [scope]) steps 0 steps).find? (fun q => q.id == id) = some p := by
  induction is with
  | nil => cases h
  | cons i rest ih =>
    rw [List.flatMap_cons, List.find?_append] at h
    rcases Option.or_eq_some_iff.mp h with h | ⟨hnone, h⟩
    · exact ⟨[], i.1, i.2, rest, rfl, by simp, h⟩
    · obtain ⟨earlier, scope, steps, later, rfl, hearlier, h⟩ := ih h
      refine ⟨i :: earlier, scope, steps, later, rfl, ?_, h⟩
      rw [List.flatMap_cons, List.mem_append, not_or]
      exact ⟨find?_walkAll_eq_none.mp hnone, hearlier⟩

/-- The first step with an id, with what is around it and what comes before it. -/
def FoundIn (id : String) (s : Step) (steps : List Step) : Prop :=
  ∃ (c : Context) (pre post : List Step), c.fill (pre ++ s :: post) = steps ∧
    id ∉ c.ahead ∧ id ∉ idsOf pre

theorem FoundIn.cons {s t : Step} {steps : List Step} (h : FoundIn id s steps) (ht : id ∉ t.ids) :
    FoundIn id s (t :: steps) := by
  obtain ⟨c, pre, post, rfl, hahead, hpre⟩ := h
  cases c with
  | nil => exact ⟨[], t :: pre, post, rfl, hahead, by simpa [idsOf] using ⟨ht, hpre⟩⟩
  | cons fr rest =>
    refine ⟨⟨t :: fr.before, fr.owner, fr.slot, fr.after⟩ :: rest, pre, post, rfl, ?_, hpre⟩
    simpa [Context.ahead, Frame.ahead, idsOf, ht] using hahead

theorem foundIn_walkAll {scopes : List Scope} {siblings : List Step} {index : Nat}
    {steps : List Step} {p : Place}
    (hwalk : ∀ s ∈ steps, ∀ {scopes siblings index},
      (s.walk scopes siblings index).find? (fun q => q.id == id) = some p → FoundIn id p.step [s])
    (h : (walkAll scopes siblings index steps).find? (fun q => q.id == id) = some p) :
    FoundIn id p.step steps := by
  induction steps generalizing index with
  | nil => cases h
  | cons s rest ih =>
    rw [walkAll, List.find?_append] at h
    rcases Option.or_eq_some_iff.mp h with h | ⟨hnone, h⟩
    · obtain ⟨c, pre, post, hfill, hahead, hpre⟩ := hwalk s List.mem_cons_self h
      cases c with
      | nil =>
        exact ⟨[], pre, post ++ rest, by simpa using congrArg (· ++ rest) hfill, hahead, hpre⟩
      | cons fr outer =>
        refine ⟨⟨fr.before, fr.owner, fr.slot, fr.after ++ rest⟩ :: outer, pre, post, ?_,
          hahead, hpre⟩
        simpa [Frame.fill] using congrArg (· ++ rest) hfill
    · exact (ih (fun t ht => hwalk t (List.mem_cons_of_mem _ ht)) h).cons
        (find?_walk_eq_none.mp hnone)

/-- The step that a search comes to lies in the list that was searched. -/
theorem foundIn_walk (s : Step) {p : Place} :
    ∀ {scopes siblings index}, (s.walk scopes siblings index).find? (fun q => q.id == id) =
      some p →
      FoundIn id p.step [s] := by
  induction s using Step.induction_inner with
  | h s ih =>
    intro scopes siblings index h
    rw [walk_eq] at h
    by_cases hid : s.id = id
    · rw [List.find?_cons_of_pos (by simpa [Place.id] using hid), Option.some.injEq] at h
      subst h
      exact ⟨[], [], [], rfl, by simp [Context.ahead], by simp [idsOf]⟩
    · rw [List.find?_cons_of_neg (by simpa [Place.id] using hid)] at h
      obtain ⟨earlier, scope, steps, later, hinner, hearlier, h⟩ := find?_inner h
      obtain ⟨slot, hs, rfl, -⟩ := exists_slot hinner
      obtain ⟨c, pre, post, rfl, hahead, hpre⟩ :=
        foundIn_walkAll (ih (scope, steps) (by rw [hinner]; simp)) h
      refine ⟨⟨[], s, slot, []⟩ :: c, pre, post, ?_, ?_, hpre⟩
      · simp [Frame.fill, hs]
      · simp only [Context.ahead, List.flatMap_cons, List.mem_append, not_or] at hahead ⊢
        exact ⟨by simpa [Frame.ahead, idsOf, Ne.symm hid] using hearlier, hahead⟩

end Step

/-- Where the first step with an id is found, a context can be cut out around its list. -/
theorem Flow.foundIn {f : Flow} {id : String} {p : Place} (h : f.find? id = some p) :
    Step.FoundIn id p.step f.steps :=
  Step.foundIn_walkAll (fun s _ => s.foundIn_walk) h

section Skip

variable {id : String} {pre post : List Step} {s : Step} (hpre : id ∉ Step.idsOf pre)
include hpre

theorem Step.find?_ids_append (hs : id ∈ s.ids) :
    (pre ++ s :: post).find? (fun t => decide (id ∈ t.ids)) = some s := by
  rw [idsOf_eq, List.mem_flatMap] at hpre
  refine List.find?_eq_some_iff_append.mpr ⟨by simpa using hs, pre, post, rfl, fun t ht => ?_⟩
  simpa using fun h => hpre ⟨t, ht, h⟩

theorem Step.standsIn_append (hs : id ∈ s.ids) :
    standsIn id (pre ++ s :: post) = (s.id == id) := by
  rw [standsIn, find?_ids_append hpre hs]

theorem Step.modifyBelow_append (edit : List Step → List Step) (hs : id ∈ s.ids) :
    modifyBelow id edit (pre ++ s :: post) =
      pre ++ { s with body := s.body.modify id edit } :: post := by
  induction pre with
  | nil =>
    obtain ⟨sid, milestone, title, description, due, config, body⟩ := s
    rw [Step.ids] at hs
    rw [List.nil_append, modifyBelow, if_pos hs, List.nil_append]
  | cons t rest ih =>
    obtain ⟨tid, milestone, title, description, due, config, body⟩ := t
    rw [idsOf, Step.ids, List.mem_append, not_or] at hpre
    rw [List.cons_append, modifyBelow, if_neg hpre.1, ih hpre.2, List.cons_append]

end Skip

theorem Path.modifyIn_append {id : String} {before after : List (Path Step)} {p : Path Step}
    (edit : List Step → List Step) (hbefore : id ∉ Path.idsOf before)
    (hp : id ∈ Step.idsOf p.steps) :
    Path.modifyIn id edit (before ++ p :: after) =
      before ++ { p with steps := Step.modifyAround id edit p.steps } :: after := by
  induction before with
  | nil =>
    obtain ⟨pid, label, guard, steps⟩ := p
    rw [List.nil_append, Path.modifyIn, if_pos hp]
    rfl
  | cons q rest ih =>
    obtain ⟨qid, label, guard, steps⟩ := q
    rw [Path.idsOf, List.mem_append, not_or] at hbefore
    rw [List.cons_append, Path.modifyIn, if_neg hbefore.1, ih hbefore.2, List.cons_append]

theorem Outcome.modifyIn_append {id : String} {before after : List (Outcome Step)}
    {o : Outcome Step} (edit : List Step → List Step) (hbefore : id ∉ Outcome.idsOf before)
    (ho : id ∈ Step.idsOf o.steps) :
    Outcome.modifyIn id edit (before ++ o :: after) =
      before ++ { o with steps := Step.modifyAround id edit o.steps } :: after := by
  induction before with
  | nil =>
    obtain ⟨oid, label, steps⟩ := o
    rw [List.nil_append, Outcome.modifyIn, if_pos ho]
    rfl
  | cons q rest ih =>
    obtain ⟨qid, label, steps⟩ := q
    rw [Outcome.idsOf, List.mem_append, not_or] at hbefore
    rw [List.cons_append, Outcome.modifyIn, if_neg hbefore.1, ih hbefore.2, List.cons_append]

theorem Slot.modify_fill {id owner : String} {slot : Slot} {steps : List Step}
    (edit : List Step → List Step)
    (hearlier : id ∉ (slot.earlier owner).flatMap fun i => Step.idsOf i.2)
    (hid : id ∈ Step.idsOf steps) :
    (slot.fill steps).modify id edit = slot.fill (Step.modifyAround id edit steps) := by
  cases slot with
  | path kind join before pid label guard after =>
    rw [earlier, List.flatMap_map, ← Path.idsOf_eq] at hearlier
    rw [fill, Body.modify, Path.modifyIn_append edit hearlier hid, fill]
  | outcome before oid label after =>
    rw [earlier, List.flatMap_map, ← Outcome.idsOf_eq] at hearlier
    rw [fill, Body.modify, Outcome.modifyIn_append edit hearlier hid, fill]

namespace Context

variable {id : String} {c : Context} {pre post : List Step} {s : Step}

theorem mem_ids_slot {slot : Slot} {owner : Step} {steps : List Step}
    (h : id ∈ Step.idsOf steps) : id ∈ Step.ids { owner with body := slot.fill steps } := by
  rw [Step.ids_eq, Slot.inner_fill]
  simp [h]

variable (hs : s.id = id) (hahead : id ∉ c.ahead) (hpre : id ∉ Step.idsOf pre)
include hs hahead hpre

/-- In a filled context a step is found if nothing before it has its id. -/
theorem find?_fill (scopes : List Scope) (siblings : List Step) (index : Nat) :
    ((Step.walkAll scopes siblings index (c.fill (pre ++ s :: post))).find?
      fun q => q.id == id).map Place.step = some s := by
  induction c generalizing scopes siblings index with
  | nil =>
    rw [fill_nil, Step.walkAll_append, List.find?_append, Step.find?_walkAll_eq_none.mpr hpre,
      Option.none_or, Step.walkAll, Step.walk_eq, List.cons_append,
      List.find?_cons_of_pos (by simpa [Place.id] using hs)]
    rfl
  | cons fr rest ih =>
    simp only [ahead, List.flatMap_cons, Frame.ahead, List.mem_append, List.mem_cons,
      not_or] at hahead
    obtain ⟨⟨hbefore, howner, hearlier⟩, hrest⟩ := hahead
    rw [fill_cons, Frame.fill, Step.walkAll_append, List.find?_append,
      Step.find?_walkAll_eq_none.mpr hbefore, Option.none_or, Step.walkAll, Step.walk_eq,
      List.cons_append, List.find?_cons_of_neg (by simpa [Place.id] using Ne.symm howner),
      Slot.inner_fill, List.flatMap_append, List.append_assoc, List.find?_append]
    have hnone : ((fr.slot.earlier fr.owner.id).flatMap fun i =>
        Step.walkAll (scopes ++ [i.1]) i.2 0 i.2).find? (fun q => q.id == id) = none := by
      rw [List.find?_flatMap, List.findSome?_eq_none_iff]
      intro i hi
      refine Step.find?_walkAll_eq_none.mpr fun hid => hearlier ?_
      exact List.mem_flatMap.mpr ⟨i, hi, hid⟩
    rw [hnone, Option.none_or, List.flatMap_cons, List.append_assoc, List.find?_append]
    obtain ⟨q, hq, hstep⟩ := Option.map_eq_some_iff.mp
      (ih hrest (scopes ++ [fr.slot.scope fr.owner.id]) (fill rest (pre ++ s :: post)) 0)
    rw [hq, Option.some_or, Option.map_some, hstep]

/-- In a filled context an edit changes the list of the step it is looked up by. -/
theorem modifyAround_fill (edit : List Step → List Step) :
    Step.modifyAround id edit (c.fill (pre ++ s :: post)) = c.fill (edit (pre ++ s :: post)) := by
  have hmem : id ∈ Step.idsOf (pre ++ s :: post) := by
    simp [Step.idsOf_eq, Step.ids_eq s, hs]
  induction c with
  | nil =>
    rw [Step.modifyAround, fill_nil,
      Step.standsIn_append hpre (by simp [Step.ids_eq, hs]), if_pos (by simpa using hs), fill_nil]
  | cons fr rest ih =>
    simp only [ahead, List.flatMap_cons, Frame.ahead, List.mem_append, List.mem_cons,
      not_or] at hahead
    obtain ⟨⟨hbefore, howner, hearlier⟩, hrest⟩ := hahead
    have hin : id ∈ Step.idsOf (fill rest (pre ++ s :: post)) :=
      (idsOf_sublist_fill rest _).subset hmem
    rw [fill_cons, Frame.fill, Step.modifyAround,
      Step.standsIn_append hbefore (mem_ids_slot hin), if_neg (by simpa using Ne.symm howner),
      Step.modifyBelow_append hbefore edit (mem_ids_slot hin), Slot.modify_fill edit hearlier hin,
      ih hrest]
    rfl

end Context

/-- Of a list split at the first element that is meant, that element changes. -/
theorem Sequence.modifyFirst_append {α : Type} {p : α → Bool} {before after : List α} {a : α}
    (hbefore : ∀ b ∈ before, p b = false) (ha : p a = true) (f : α → α) :
    modifyFirst p f (before ++ a :: after) = before ++ f a :: after := by
  induction before with
  | nil => simp [modifyFirst, ha]
  | cons b rest ih =>
    rw [List.cons_append, modifyFirst, if_neg (by simp [hbefore b List.mem_cons_self]),
      ih fun c hc => hbefore c (List.mem_cons_of_mem _ hc), List.cons_append]

theorem bind_pure_eq_map {ε α β : Type} (x : Except ε α) (g : α → β) :
    (x >>= fun a => pure (g a)) = x.map g := by
  cases x <;> rfl

theorem orError_some_bind {α β : Type} (e : EditError) (a : α) (g : α → Except EditError β) :
    (orError e (some a) >>= g) = g a :=
  rfl

section Update

variable {id : String}

theorem Path.update_append {before after : List (Path Step)} {p : Path Step} (hp : p.id = id)
    (hbefore : ∀ q ∈ before, q.id ≠ id)
    (change : Path Step → Except EditError (Path Step)) :
    Path.update id change (before ++ p :: after) =
      (change p).map fun p' => before ++ p' :: after := by
  have hfind : (before ++ p :: after).find? (fun q => q.id == id) = some p :=
    List.find?_eq_some_iff_append.mpr
      ⟨by simpa using hp, before, after, rfl, by simpa using hbefore⟩
  unfold Path.update
  simp only [hfind, orError_some_bind, bind_pure_eq_map]
  congr 1
  funext p'
  exact Sequence.modifyFirst_append (by simpa using hbefore) (by simpa using hp) _

theorem Outcome.update_append {before after : List (Outcome Step)} {o : Outcome Step}
    (ho : o.id = id) (hbefore : ∀ q ∈ before, q.id ≠ id)
    (change : Outcome Step → Except EditError (Outcome Step)) :
    Outcome.update id change (before ++ o :: after) =
      (change o).map fun o' => before ++ o' :: after := by
  have hfind : (before ++ o :: after).find? (fun q => q.id == id) = some o :=
    List.find?_eq_some_iff_append.mpr
      ⟨by simpa using ho, before, after, rfl, by simpa using hbefore⟩
  unfold Outcome.update
  simp only [hfind, orError_some_bind, bind_pure_eq_map]
  congr 1
  funext o'
  exact Sequence.modifyFirst_append (by simpa using hbefore) (by simpa using ho) _

end Update

namespace Flow

/-- The flow with some steps in a context, instead of its own. -/
def plug (f : Flow) (c : Context) (steps : List Step) : Flow :=
  { f with steps := c.fill steps }

theorem plug_eq_self {f : Flow} {c : Context} {steps : List Step} (h : c.fill steps = f.steps) :
    f.plug c steps = f := by
  rw [plug, h]

theorem ids_plug (f : Flow) (c : Context) (steps : List Step) :
    (f.plug c steps).ids = c.ahead ++ Step.idsOf steps ++ c.behind :=
  c.idsOf_fill steps

theorem plug_plug (f : Flow) (c : Context) (steps steps' : List Step) :
    (f.plug c steps).plug c steps' = f.plug c steps' :=
  rfl

theorem plug_append_singleton (f : Flow) (c : Context) (fr : Frame) (steps : List Step) :
    f.plug (c ++ [fr]) steps =
      f.plug c (fr.before ++ { fr.owner with body := fr.slot.fill steps } :: fr.after) := by
  rw [plug, Context.fill_append]
  rfl

section Plug

variable {id : String} {c : Context} {pre : List Step} {s : Step} (hs : s.id = id)
variable (hahead : id ∉ c.ahead) (hpre : id ∉ Step.idsOf pre) (f : Flow) (post : List Step)
include hs hahead hpre

theorem find?_plug : ∃ p, (f.plug c (pre ++ s :: post)).find? id = some p ∧ p.step = s :=
  Option.map_eq_some_iff.mp (Context.find?_fill hs hahead hpre [] _ 0)

theorem replaceStep_plug (t : Step) :
    (f.plug c (pre ++ s :: post)).replaceStep id t = f.plug c (pre ++ t :: post) := by
  have hne : ∀ b ∈ pre, (b.id == id) = false := fun b hb =>
    beq_eq_false_iff_ne.mpr fun heq =>
      hpre ((Step.map_id_sublist pre).subset (heq ▸ List.mem_map_of_mem hb))
  unfold replaceStep modifyAround
  simp only [plug, Context.modifyAround_fill hs hahead hpre,
    Sequence.modifyFirst_append hne (beq_iff_eq.mpr hs)]

theorem updateStep_plug (change : Step → Except EditError Step) :
    (f.plug c (pre ++ s :: post)).updateStep id change =
      (change s).map fun t => f.plug c (pre ++ t :: post) := by
  obtain ⟨p, hp, hstep⟩ := find?_plug hs hahead hpre f post
  unfold updateStep
  simp only [hp, orError_some_bind, bind_pure_eq_map, hstep, replaceStep_plug hs hahead hpre]

theorem updateBranch_plug {kind : BranchKind} {join : Quorum} {paths : List (Path Step)}
    (hb : s.body = .branch kind join paths)
    (change : List (Path Step) → Except EditError (List (Path Step))) :
    (f.plug c (pre ++ s :: post)).updateBranch id change = (change paths).map fun paths =>
      f.plug c (pre ++ { s with body := .branch kind join paths } :: post) := by
  obtain ⟨p, hp, hstep⟩ := find?_plug hs hahead hpre f post
  unfold updateBranch
  simp only [hp, hb, bind_pure_eq_map, hstep, replaceStep_plug hs hahead hpre]

theorem updateDecision_plug {outcomes : List (Outcome Step)} (hb : s.body = .decision outcomes)
    (change : List (Outcome Step) → Except EditError (List (Outcome Step))) :
    (f.plug c (pre ++ s :: post)).updateDecision id change = (change outcomes).map fun outcomes =>
      f.plug c (pre ++ { s with body := .decision outcomes } :: post) := by
  obtain ⟨p, hp, hstep⟩ := find?_plug hs hahead hpre f post
  unfold updateDecision
  simp only [hp, hb, bind_pure_eq_map, hstep, replaceStep_plug hs hahead hpre]

end Plug

end Flow

/-- The scope that a target names, unless it is the main path. -/
def Target.scope? : Target → Option Scope
  | .mainPath => none
  | .path branch id => some ⟨.path, branch, id⟩
  | .outcome decision id => some ⟨.outcome, decision, id⟩

/-- What names the scope that is left out of the body of a step. -/
def Slot.target (owner : String) : Slot → Target
  | path _ _ _ id _ _ _ => .path owner id
  | outcome _ id _ _ => .outcome owner id

theorem Slot.scope?_target (slot : Slot) (owner : String) :
    (slot.target owner).scope? = some (slot.scope owner) := by
  cases slot <;> rfl

def Flow.stepsAt? (f : Flow) (target : Target) : Option (List Step) :=
  match target.scope? with
  | none => some f.steps
  | some scope => f.stepsIn? scope

/-- A target names the steps that a context leaves out: reading what the target names gives these
steps, and editing it edits them. -/
structure Target.Names (target : Target) (f : Flow) (c : Context) : Prop where
  scope : c.scope? = target.scope?
  reads : ∀ steps, (f.plug c steps).stepsAt? target = some steps
  edits : ∀ steps change,
    (f.plug c steps).updateTarget target change = (change steps).map (f.plug c)

/-- What else stands in the list that is left out does not change what is named. -/
theorem Target.Names.plug {target : Target} {f : Flow} {c : Context} (names : target.Names f c)
    (steps : List Step) : target.Names (f.plug c steps) c :=
  ⟨names.scope, names.reads, names.edits⟩

namespace Flow

variable {f : Flow} {target : Target}

theorem names_main (f : Flow) : Target.mainPath.Names f [] where
  scope := rfl
  reads _ := rfl
  edits steps change := by
    simp only [updateTarget, plug, Context.fill_nil]
    cases change steps <;> rfl

/-- What names a scope of a step names what is left out of the step, if no scope before it has its
name. -/
theorem names_slot {c : Context} {pre : List Step} {s : Step} {slot : Slot}
    (hahead : s.id ∉ c.ahead) (hpre : s.id ∉ Step.idsOf pre)
    (hfirst : ∀ i ∈ slot.earlier s.id, i.1 ≠ slot.scope s.id) (f : Flow) (post : List Step) :
    (slot.target s.id).Names f (c ++ [⟨pre, s, slot, post⟩]) where
  scope := by
    rw [Context.scope?, List.getLast?_concat, slot.scope?_target]
    rfl
  reads steps := by
    obtain ⟨p, hp, hstep⟩ :=
      find?_plug (s := { s with body := slot.fill steps }) rfl hahead hpre
      f post
    have howner : (slot.scope s.id).owner = s.id := by cases slot <;> rfl
    rw [plug_append_singleton, stepsAt?, slot.scope?_target]
    simp only [stepsIn?, howner, hp, Option.bind_some, hstep]
    rw [slot.inner_fill s steps]
    exact List.lookup_eq_some_iff.mpr ⟨_, _, rfl, fun i hi => by simpa using (hfirst i hi).symm⟩
  edits steps change := by
    rw [plug_append_singleton]
    cases slot with
    | path kind join before id label guard after =>
      have hbefore : ∀ q ∈ before, q.id ≠ id := fun q hq he =>
        hfirst _ (List.mem_map_of_mem hq) (by simp [Slot.scope, he])
      simp only [Slot.target, Slot.fill, updateTarget]
      rw [updateBranch_plug (s := { s with body := .branch kind join _ }) rfl hahead
        hpre f post rfl,
        Path.update_append (p := ⟨id, label, guard, steps⟩) rfl hbefore]
      simp only [bind_pure_eq_map]
      cases change steps with
      | error e => rfl
      | ok steps' =>
        let fr : Frame := ⟨pre, s, .path kind join before id label guard after, post⟩
        exact congrArg Except.ok (plug_append_singleton f c fr steps').symm
    | outcome before id label after =>
      have hbefore : ∀ q ∈ before, q.id ≠ id := fun q hq he =>
        hfirst _ (List.mem_map_of_mem hq) (by simp [Slot.scope, he])
      simp only [Slot.target, Slot.fill, updateTarget]
      rw [updateDecision_plug (s := { s with body := .decision _ }) rfl hahead hpre f post rfl,
        Outcome.update_append (o := ⟨id, label, steps⟩) rfl hbefore]
      simp only [bind_pure_eq_map]
      cases change steps with
      | error e => rfl
      | ok steps' =>
        let fr : Frame := ⟨pre, s, .outcome before id label after, post⟩
        exact congrArg Except.ok (plug_append_singleton f c fr steps').symm

/-- The steps that a target names can be left out of the flow. -/
theorem exists_names {steps : List Step} (h : f.stepsAt? target = some steps) :
    ∃ c, target.Names f c ∧ f.plug c steps = f := by
  cases hscope : target.scope? with
  | none =>
    rw [stepsAt?, hscope] at h
    cases target with
    | mainPath => exact ⟨[], f.names_main, plug_eq_self (Option.some.inj h).symm⟩
    | path | outcome => cases hscope
  | some scope =>
    rw [stepsAt?, hscope] at h
    obtain ⟨p, hp, hlookup⟩ := Option.bind_eq_some_iff.mp h
    obtain ⟨earlier, later, hinner, hfirst⟩ := List.lookup_eq_some_iff.mp hlookup
    obtain ⟨slot, hs, rfl, rfl⟩ := Step.exists_slot hinner
    obtain ⟨c, pre, post, hfill, hahead, hpre⟩ := foundIn hp
    have hid : p.step.id = (slot.scope p.step.id).owner := (has_of_find? hp).2
    obtain rfl : slot.target p.step.id = target := by
      cases slot <;> cases target <;> cases hscope <;> rfl
    rw [← hid] at hahead hpre
    refine ⟨c ++ [⟨pre, p.step, slot, post⟩],
      names_slot hahead hpre (fun i hi => Ne.symm (by simpa using hfirst i hi)) f post, ?_⟩
    rw [plug_append_singleton, hs]
    exact plug_eq_self hfill

/-- Where a target names no steps, there is nothing to edit. -/
theorem updateTarget_none (h : f.stepsAt? target = none)
    (change : List Step → Except EditError (List Step)) :
    ∃ error, f.updateTarget target change = .error error := by
  cases target with
  | mainPath => cases h
  | path branch id =>
    rw [updateTarget, updateBranch]
    cases hp : f.find? branch with
    | none => exact ⟨_, rfl⟩
    | some p =>
      obtain ⟨-, rfl⟩ := has_of_find? hp
      simp only [stepsAt?, Target.scope?, stepsIn?, hp, Option.bind_some] at h
      cases hb : p.step.body with
      | branch kind join paths =>
        rw [Place.id, Step.lookup_inner_path hb, Option.map_eq_none_iff] at h
        simp only [hb, Path.update, h]
        exact ⟨_, rfl⟩
      | _ => simp only [hb]; exact ⟨_, rfl⟩
  | outcome decision id =>
    rw [updateTarget, updateDecision]
    cases hp : f.find? decision with
    | none => exact ⟨_, rfl⟩
    | some p =>
      obtain ⟨-, rfl⟩ := has_of_find? hp
      simp only [stepsAt?, Target.scope?, stepsIn?, hp, Option.bind_some] at h
      cases hb : p.step.body with
      | decision outcomes =>
        rw [Place.id, Step.lookup_inner_outcome hb, Option.map_eq_none_iff] at h
        simp only [hb, Outcome.update, h]
        exact ⟨_, rfl⟩
      | _ => simp only [hb]; exact ⟨_, rfl⟩

end Flow

end Workflow
