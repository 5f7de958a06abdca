import Workflow.Proofs.Edit.Context
import Workflow.Proofs.Edit.Siblings

namespace Workflow

/-- Ids are taken in if they are given, differ from each other and are new. -/
theorem checkFresh_eq_ok_iff {taken ids : List String} :
    checkFresh taken ids = .ok () ↔ ids.Nodup ∧ ∀ id ∈ ids, id ≠ "" ∧ id ∉ taken := by
  refine ⟨checkFresh_ok, ?_⟩
  rintro ⟨hnodup, hfresh⟩
  induction ids generalizing taken with
  | nil => rfl
  | cons id rest ih =>
    obtain ⟨hnotin, hrest⟩ := List.nodup_cons.mp hnodup
    obtain ⟨hne, hid⟩ := hfresh id List.mem_cons_self
    rw [checkFresh, if_neg hne, if_neg hid]
    refine ih hrest fun other hother => ?_
    obtain ⟨hgiven, htaken⟩ := hfresh other (List.mem_cons_of_mem _ hother)
    refine ⟨hgiven, fun hin => ?_⟩
    rcases List.mem_cons.mp hin with rfl | hin
    · exact hnotin hother
    · exact htaken hin

/-- Where ids do not repeat, no step before another has the other's id. -/
theorem Step.id_not_mem_before {pre post : List Step} {s : Step}
    (unique : (idsOf (pre ++ s :: post)).Nodup) : s.id ∉ idsOf pre := by
  intro hin
  rw [idsOf_eq, List.flatMap_append, ← idsOf_eq, List.flatMap_cons] at unique
  exact (List.nodup_append.mp unique).2.2 s.id hin s.id (List.mem_append_left _ s.id_mem_ids) rfl

namespace ListEdit

variable {target : Target} {taken : List String} {steps steps' : List Step} {edit : ListEdit}

/-- The ids of the steps that an edit of a list needs to find there. -/
def named : ListEdit → List String
  | .addAfter anchor _ => anchor.toList
  | .addBefore anchor _ => [anchor]
  | .remove id | .update id _ => [id]
  | .move id after => id :: after.toList

def isUpdate : ListEdit → Bool
  | .update _ _ => true
  | _ => false

/-- What an edit makes of a list depends on the list alone, but for the ids that may not come
twice. -/
theorem apply_eq_ok_iff :
    edit.apply target taken steps = .ok steps' ↔
      (∀ id ∈ edit.added, id ∉ taken) ∧ edit.apply .mainPath [] steps = .ok steps' := by
  have hfresh : ∀ {ids : List String}, checkFresh taken ids = .ok () ↔
      (∀ id ∈ ids, id ∉ taken) ∧ checkFresh [] ids = .ok () := by
    intro ids
    simp only [checkFresh_eq_ok_iff]
    grind
  have hunit : ∀ {p : Unit → Prop}, (∃ u, p u) ↔ p () :=
    ⟨fun ⟨_, h⟩ => h, fun h => ⟨_, h⟩⟩
  cases edit with
  | addAfter anchor s =>
    cases anchor <;>
      simp only [apply, bind_eq_ok_iff, hunit, hfresh, orError_eq_ok_iff, added, and_assoc]
  | addBefore anchor s =>
    simp only [apply, bind_eq_ok_iff, hunit, hfresh, orError_eq_ok_iff, added, and_assoc]
  | remove id => simp [apply, map_eq_ok_iff, orError_eq_ok_iff, added]
  | update id patch => simp [apply, bind_eq_ok_iff, orError_eq_ok_iff, added]
  | move id after => simp [apply, bind_eq_ok_iff, orError_eq_ok_iff, added]

/-- An edit fails unless the steps that it names stand in the list. -/
theorem named_of_apply (h : edit.apply target taken steps = .ok steps') :
    ∀ id ∈ edit.named, id ∈ steps.map Step.id := by
  cases edit with
  | addAfter anchor s =>
    obtain ⟨_, _, h⟩ := bind_eq_ok_iff.mp h
    cases anchor with
    | none => simp [named]
    | some anchor =>
      obtain ⟨pre, a, post, rfl, -, rfl, -⟩ :=
        Siblings.addAfter?_eq_some_iff.mp (orError_eq_ok_iff.mp h)
      simp [named]
  | addBefore anchor s =>
    obtain ⟨_, _, h⟩ := bind_eq_ok_iff.mp h
    obtain ⟨pre, a, post, rfl, -, rfl⟩ := Siblings.addBefore?_split (orError_eq_ok_iff.mp h)
    simp [named]
  | remove id =>
    obtain ⟨⟨s, rest⟩, htake, -⟩ := map_eq_ok_iff.mp h
    obtain ⟨pre, post, rfl, -, rfl, -⟩ :=
      Siblings.take?_eq_some_iff.mp (orError_eq_ok_iff.mp htake)
    simp [named]
  | update id patch =>
    obtain ⟨s, hfind, -⟩ := bind_eq_ok_iff.mp h
    simpa [named] using Siblings.mem_of_find? (orError_eq_ok_iff.mp hfind)
  | move id after =>
    obtain ⟨_, _, h⟩ := bind_eq_ok_iff.mp h
    exact Siblings.mem_of_move? (orError_eq_ok_iff.mp h)

theorem apply_update {pre post : List Step} {s : Step} (hpre : s.id ∉ pre.map Step.id)
    (patch : StepPatch) : (update s.id patch).apply target taken (pre ++ s :: post) =
      (patch.apply s).map fun t => pre ++ t :: post := by
  have hne : ∀ b ∈ pre, (b.id == s.id) = false := fun b hb =>
    beq_eq_false_iff_ne.mpr fun heq => hpre (heq ▸ List.mem_map_of_mem hb)
  have hfind : Siblings.find? s.id (pre ++ s :: post) = some s :=
    List.find?_eq_some_iff_append.mpr ⟨by simp, pre, post, rfl, by simpa using hne⟩
  simp only [apply, hfind, orError_some_bind, bind_pure_eq_map,
    Sequence.modifyFirst_append hne (beq_self_eq_true _)]

end ListEdit

namespace Edit

variable {f g : Flow} {target : Target} {edit : ListEdit}

/-- Only an update on the main path is not an edit of the list that its target names. -/
theorem apply_list (hlist : target = .mainPath → edit.isUpdate = false) (f : Flow) :
    (steps target edit).apply f =
      f.updateTarget target fun steps => edit.apply target f.ids steps := by
  cases target with
  | mainPath =>
    cases edit with
    | update id patch => cases hlist rfl
    | _ => rfl
  | path | outcome => cases edit <;> rfl

/-- What an edit makes of a flow is what it makes of the list that is named, with the same around
it. -/
theorem apply_names {c : Context} {old : List Step} (names : target.Names f c)
    (hf : f.plug c old = f) (hlist : target = .mainPath → edit.isUpdate = false) :
    (steps target edit).apply f = (edit.apply target f.ids old).map (f.plug c) := by
  have hedits := names.edits old fun steps => edit.apply target f.ids steps
  rwa [hf, ← apply_list hlist] at hedits

/-- On the main path too an edit is one of the list, if the step that it updates stands there. -/
theorem apply_main (unique : f.ids.Nodup)
    (hnamed : ∀ id ∈ edit.named, id ∈ f.steps.map Step.id) :
    (steps .mainPath edit).apply f =
      f.updateTarget .mainPath fun steps => edit.apply .mainPath f.ids steps := by
  cases edit with
  | update id patch =>
    obtain ⟨s, hs, rfl⟩ := List.mem_map.mp (hnamed id (by simp [ListEdit.named]))
    obtain ⟨pre, post, hsteps⟩ := List.append_of_mem hs
    rw [Flow.ids, hsteps] at unique
    have hpre := Step.id_not_mem_before unique
    have hplug : f.plug [] (pre ++ s :: post) = f := Flow.plug_eq_self (c := []) hsteps.symm
    have hupdate := Flow.updateStep_plug (c := []) rfl List.not_mem_nil hpre f post patch.apply
    rw [hplug] at hupdate
    simp only [apply, hupdate, Flow.updateTarget, hsteps, bind_pure_eq_map,
      ListEdit.apply_update fun hin => hpre ((Step.map_id_sublist pre).subset hin)]
    cases patch.apply s <;> rfl
  | _ => rfl

/-- What an edit of the main path makes of a list, it makes of every main path that is this list. -/
theorem apply_main_eq_ok_iff {old new : List Step} (unique : f.ids.Nodup) (hf : f.steps = old)
    (hnamed : ∀ id ∈ edit.named, id ∈ old.map Step.id) :
    (steps .mainPath edit).apply f = .ok { f with steps := new } ↔
      edit.apply .mainPath f.ids old = .ok new := by
  subst hf
  rw [apply_main unique hnamed, Flow.updateTarget, bind_eq_ok_iff]
  constructor
  · rintro ⟨steps, hsteps, heq⟩
    obtain rfl : steps = new := congrArg Flow.steps (Except.ok.inj heq)
    exact hsteps
  · intro h
    exact ⟨new, h, rfl⟩

end Edit

namespace Sample

/-- A decision on a path of a branch, with steps behind its only outcome. -/
def nested (inner : List String) : Flow :=
  { forked [] with
    steps := [⟨"fork", "", "", "", none, [], .branch .parallel .all [⟨"left", "", {},
      [Step.ofType "a" .form, ⟨"ask", "", "", "", none, [], .decision
        [⟨"yes", "", inner.map fun id => Step.ofType id .form⟩]⟩]⟩]⟩,
          Step.ofType "z" .form] }

end Sample

namespace Flow

/-- An edit of a path or of an outcome, at whatever depth, leaves all alone that is around the list
of steps that it names. It goes through if the edit of this list as a main path does, with ids that
are new to the whole flow and with the steps that it names in the list itself, and makes the same of
the list. -/
theorem edited_in_scope (f : Flow) (target : Target) (inside : target ≠ .mainPath)
    (edit : ListEdit) :
    (f.ids.Nodup → ∀ old, f.stepsAt? target = some old →
      ∃ c : Context, c.scope? = target.scope? ∧ f.plug c old = f ∧
        (∀ steps, (f.plug c steps).stepsAt? target = some steps) ∧
        ∀ g, (Edit.steps target edit).apply f = .ok g ↔ ∃ new, g = f.plug c new ∧
          (∀ id ∈ edit.added, id ∉ f.ids) ∧
            (∀ id ∈ edit.named, id ∈ old.map Step.id) ∧
          ∀ h : Flow, h.steps = old →
            (Edit.steps .mainPath edit).apply h = .ok { h with steps := new }) ∧
      (∀ id ∈ edit.named, (∀ old, f.stepsAt? target = some old → id ∉ old.map Step.id) →
        ∃ error, (Edit.steps target edit).apply f = .error error) ∧
      (f.stepsAt? target = none →
        ∃ error, (Edit.steps target edit).apply f = .error error) := by
  have hlist : target = .mainPath → edit.isUpdate = false := fun h => absurd h inside
  have hgone : f.stepsAt? target = none →
      ∃ error, (Edit.steps target edit).apply f = .error error := by
    rw [Edit.apply_list hlist]
    exact fun hnone => updateTarget_none hnone _
  refine ⟨fun unique old hold => ?_, fun id hid hnot => ?_, hgone⟩
  · obtain ⟨c, names, hf⟩ := exists_names hold
    refine ⟨c, names.scope, hf, names.reads, fun g => ?_⟩
    have hids : (Step.idsOf old).Sublist f.ids := by
      rw [← hf]
      exact Context.idsOf_sublist_fill c old
    rw [Edit.apply_names names hf hlist, map_eq_ok_iff]
    constructor
    · rintro ⟨new, hnew, rfl⟩
      obtain ⟨hfresh, hmade⟩ := ListEdit.apply_eq_ok_iff.mp hnew
      have hnamed := ListEdit.named_of_apply hnew
      refine ⟨new, rfl, hfresh, hnamed, fun h hh => ?_⟩
      have hsub : h.ids.Sublist f.ids := by rwa [Flow.ids, hh]
      rw [Edit.apply_main_eq_ok_iff (unique.sublist hsub) hh hnamed, ListEdit.apply_eq_ok_iff]
      exact ⟨fun id hid hin => hfresh id hid (hsub.subset hin), hmade⟩
    · rintro ⟨new, rfl, hfresh, hnamed, hmain⟩
      refine ⟨new, ?_, rfl⟩
      have hmade := hmain { f with steps := old } rfl
      rw [Edit.apply_main_eq_ok_iff (f := { f with steps := old }) (unique.sublist hids) rfl hnamed,
        ListEdit.apply_eq_ok_iff] at hmade
      exact ListEdit.apply_eq_ok_iff.mpr ⟨hfresh, hmade.2⟩
  · cases hold : f.stepsAt? target with
    | none => exact hgone hold
    | some old =>
      obtain ⟨c, names, hf⟩ := exists_names hold
      rw [Edit.apply_names names hf hlist]
      cases hnew : edit.apply target f.ids old with
      | error error => exact ⟨error, rfl⟩
      | ok new => exact absurd (ListEdit.named_of_apply hnew id hid) (hnot old hold)

/-- The decision is not a step of its own outcome, and neither is what stands on the main path. -/
theorem edited_in_scope_nested :
    (∃ (c : Context) (new : List Step), c.scope? = some ⟨.outcome, "ask", "yes"⟩ ∧
      Sample.nested ["c", "b"] = (Sample.nested ["b", "c"]).plug c new ∧
      ∀ h : Flow, h.steps = [Step.ofType "b" .form, Step.ofType "c" .form] →
        (Edit.steps .mainPath (.move "b" (some "c"))).apply h = .ok { h with steps := new }) ∧
      ∀ id ∈ ["a", "ask", "z"], ∃ error,
        (Edit.steps (.outcome "ask" "yes") (.remove id)).apply
        (Sample.nested ["b", "c"]) = .error error := by
  constructor
  · obtain ⟨hlocal, -⟩ := edited_in_scope (Sample.nested ["b", "c"])
      (.outcome "ask" "yes") nofun (.move "b" (some "c"))
    obtain ⟨c, hscope, -, -, hedit⟩ := hlocal (by decide) _ rfl
    obtain ⟨new, hg, -, -, hmain⟩ := (hedit (Sample.nested ["c", "b"])).mp (by cbv)
    exact ⟨c, new, hscope, hg, hmain⟩
  · have hnot : ∀ id ∈ ["a", "ask", "z"], id ∉ ["b", "c"] := by decide
    intro id hid
    obtain ⟨-, hfails, -⟩ := edited_in_scope (Sample.nested ["b", "c"])
      (.outcome "ask" "yes") nofun (.remove id)
    refine hfails id List.mem_cons_self fun old hold => ?_
    obtain rfl := Option.some.inj (hold.symm.trans rfl)
    exact hnot id hid

end Flow

end Workflow
