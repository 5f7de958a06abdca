import Workflow.Proofs.Edit.Local

namespace Workflow

namespace Step

variable {pre post : List Step} {s : Step}

/-- Where ids do not repeat, a step differs in id from the others of its list. -/
theorem nodup_split (unique : (idsOf (pre ++ s :: post)).Nodup) :
    (pre.map Step.id).Nodup ∧ s.id ∉ (pre ++ post).map Step.id := by
  have hids := unique.sublist (map_id_sublist _)
  rw [List.map_append, List.map_cons] at hids
  rw [List.map_append]
  exact ⟨(List.nodup_append.mp hids).1, (List.nodup_cons.mp (List.nodup_middle.mp hids)).1⟩

theorem not_mem_of_fresh {taken : List String} (hids : (idsOf (pre ++ post)).Sublist taken)
    (hfresh : checkFresh taken s.ids = .ok ()) : s.id ∉ pre.map Step.id := by
  intro hin
  refine ((checkFresh_ok hfresh).2 s.id s.id_mem_ids).2 (hids.subset ?_)
  exact (map_id_sublist _).subset (List.map_subset _ (List.subset_append_left _ _) hin)

end Step

namespace ListEdit

open Siblings (insert? move?)

variable {target : Target} {taken : List String} {steps new pre : List Step} {s : Step}

theorem addAfter_eq_ok_iff {anchor : Option String} :
    (addAfter anchor s).apply target taken steps = .ok new ↔
      checkFresh taken s.ids = .ok () ∧ insert? anchor s steps = some new := by
  unfold apply
  rw [bind_eq_ok_iff]
  constructor
  · rintro ⟨_, hfresh, h⟩
    refine ⟨hfresh, ?_⟩
    cases anchor with
    | none => exact congrArg some (Except.ok.inj h)
    | some anchor => exact orError_eq_ok_iff.mp h
  · rintro ⟨hfresh, h⟩
    refine ⟨(), hfresh, ?_⟩
    cases anchor with
    | none => exact congrArg Except.ok (Option.some.inj h)
    | some anchor => exact orError_eq_ok_iff.mpr h

theorem remove_append (hs : s.id ∉ pre.map Step.id) (post : List Step) :
    (remove s.id).apply target taken (pre ++ s :: post) = .ok (pre ++ post) := by
  rw [apply, Siblings.take?_append hs]
  rfl

theorem move_eq_ok_iff {id : String} {after : Option String} :
    (move id after).apply target taken steps = .ok new ↔ move? id after steps = some new := by
  simp only [apply, bind_eq_ok_iff, orError_eq_ok_iff]
  constructor
  · intro hmoved
    obtain ⟨-, -, h⟩ := hmoved
    exact h
  · intro h
    obtain ⟨s, hfind, -⟩ := Siblings.swaps_move? h
    exact ⟨s, hfind, h⟩

end ListEdit

namespace Edit

variable {f g : Flow} {target : Target} {edit back : ListEdit}

/-- An edit is undone where what it made of the list is undone. -/
theorem undo (hedit : edit.isUpdate = false) (hback : back.isUpdate = false)
    (h : (steps target edit).apply f = .ok g)
    (hundo : ∀ old new, f.stepsAt? target = some old → (Step.idsOf old).Sublist f.ids →
      edit.apply target f.ids old = .ok new → back.apply target g.ids new = .ok old) :
    (steps target back).apply g = .ok f := by
  cases hold : f.stepsAt? target with
  | none =>
    obtain ⟨error, herror⟩ :=
      Flow.updateTarget_none hold fun steps => edit.apply target f.ids steps
    rw [apply_list fun _ => hedit, herror] at h
    cases h
  | some old =>
    obtain ⟨c, names, hf⟩ := Flow.exists_names hold
    rw [apply_names names hf fun _ => hedit] at h
    obtain ⟨new, hnew, rfl⟩ := map_eq_ok_iff.mp h
    have hids : (Step.idsOf old).Sublist f.ids := by
      rw [← hf]
      exact Context.idsOf_sublist_fill c old
    rw [apply_names (names.plug new) rfl fun _ => hback, hundo old new hold hids hnew]
    exact congrArg Except.ok hf

theorem remove_added {s : Step} {anchor : Option String}
    (h : (steps target (.addAfter anchor s)).apply f = .ok g) :
    (steps target (.remove s.id)).apply g = .ok f := by
  refine undo rfl rfl h fun old new _ hids hnew => ?_
  obtain ⟨hfresh, hinsert⟩ := ListEdit.addAfter_eq_ok_iff.mp hnew
  obtain ⟨pre, post, rfl, rfl⟩ := Siblings.insert?_split hinsert
  exact ListEdit.remove_append (Step.not_mem_of_fresh hids hfresh) post

theorem remove_added_before {s : Step} {anchor : String}
    (h : (steps target (.addBefore anchor s)).apply f = .ok g) :
    (steps target (.remove s.id)).apply g = .ok f := by
  refine undo rfl rfl h fun old new _ hids hnew => ?_
  obtain ⟨_, hfresh, hadd⟩ := bind_eq_ok_iff.mp hnew
  obtain ⟨pre, a, post, rfl, rfl, -⟩ := Siblings.addBefore?_split (orError_eq_ok_iff.mp hadd)
  exact ListEdit.remove_append (Step.not_mem_of_fresh hids hfresh) (a :: post)

section Unique

variable {pre post : List Step} {s : Step} (unique : f.ids.Nodup)
variable (hold : f.stepsAt? target = some (pre ++ s :: post))
include unique hold

/-- A step that is removed and added behind its predecessor again leaves the flow as it was. -/
theorem add_removed (hgiven : "" ∉ f.ids) :
    ∃ g, (steps target (.remove s.id)).apply f = .ok g ∧
      (steps target (.addAfter (Siblings.lastId? pre) s)).apply g = .ok f := by
  obtain ⟨c, names, hf⟩ := Flow.exists_names hold
  have hids : (Step.idsOf (pre ++ s :: post)).Sublist f.ids := by
    rw [← hf]
    exact Context.idsOf_sublist_fill c _
  obtain ⟨hpre, hs⟩ := Step.nodup_split (unique.sublist hids)
  rw [List.map_append, List.mem_append, not_or] at hs
  have hperm : f.ids.Perm (s.ids ++ (f.plug c (pre ++ post)).ids) := by
    rw [← hf, List.perm_iff_count]
    intro id
    rw [Flow.ids_plug, Flow.plug_plug, Flow.ids_plug]
    simp only [Step.idsOf_eq, List.flatMap_append, List.flatMap_cons, List.count_append]
    omega
  obtain ⟨hnodup, -, hapart⟩ := List.nodup_append.mp (hperm.nodup_iff.mp unique)
  have hfresh : checkFresh (f.plug c (pre ++ post)).ids s.ids = .ok () := by
    refine checkFresh_eq_ok_iff.mpr ⟨hnodup, fun id hid => ⟨?_, ?_⟩⟩
    · rintro rfl
      exact hgiven (hperm.mem_iff.mpr (List.mem_append_left _ hid))
    · intro hin
      exact hapart id hid id hin rfl
  refine ⟨f.plug c (pre ++ post), ?_, ?_⟩
  · rw [apply_names names hf fun _ => rfl, ListEdit.remove_append hs.1]
    rfl
  · rw [apply_names (names.plug _) rfl fun _ => rfl, ListEdit.addAfter_eq_ok_iff.mpr
      ⟨hfresh, Siblings.insert?_lastId? hpre s post⟩]
    exact congrArg Except.ok hf

/-- So does a step that is moved there and back. -/
theorem move_moved {after : Option String} (h : (steps target (.move s.id after)).apply f = .ok g) :
    (steps target (.move s.id (Siblings.lastId? pre))).apply g = .ok f := by
  refine undo rfl rfl h fun old new hold' hids hnew => ?_
  obtain rfl := Option.some.inj (hold.symm.trans hold')
  obtain ⟨hpre, hs⟩ := Step.nodup_split (unique.sublist hids)
  have hmove := ListEdit.move_eq_ok_iff.mp hnew
  have hafter : after ≠ some s.id := by
    rintro rfl
    simp [Siblings.move?] at hmove
  have hback : Siblings.lastId? pre ≠ some s.id := fun hlast =>
    hs (List.map_subset _ (List.subset_append_left _ _) (Siblings.mem_of_lastId? hlast))
  rw [Siblings.move?_append (fun hin => hs (List.map_subset _ (List.subset_append_left _ _) hin))
    hafter] at hmove
  obtain ⟨before, behind, hsplit, rfl⟩ := Siblings.insert?_split hmove
  rw [hsplit, List.map_append, List.mem_append, not_or] at hs
  rw [ListEdit.move_eq_ok_iff, Siblings.move?_append hs.1 hback, ← hsplit]
  exact Siblings.insert?_lastId? hpre s post

end Unique

end Edit

namespace Flow

/-- Edits of a list have inverses, on the main path, on a path and in an outcome alike. Adding a
step is undone by removing it. Removing it is undone by adding it behind the step it stood behind,
or in front if it was the first, and moving it by moving it back. -/
theorem edits_undone (f : Flow) (target : Target) :
    (∀ anchor s g, (Edit.steps target (.addAfter anchor s)).apply f = .ok g →
      (Edit.steps target (.remove s.id)).apply g = .ok f) ∧
    (∀ anchor s g, (Edit.steps target (.addBefore anchor s)).apply f = .ok g →
      (Edit.steps target (.remove s.id)).apply g = .ok f) ∧
    (f.ids.Nodup → ∀ pre s post, f.stepsAt? target = some (pre ++ s :: post) →
      ("" ∉ f.ids → ∃ g, (Edit.steps target (.remove s.id)).apply f = .ok g ∧
        (Edit.steps target (.addAfter (Siblings.lastId? pre) s)).apply g = .ok f) ∧
      ∀ after g, (Edit.steps target (.move s.id after)).apply f = .ok g →
        (Edit.steps target (.move s.id (Siblings.lastId? pre))).apply g = .ok f) := by
  refine ⟨fun _ _ _ h => Edit.remove_added h, fun _ _ _ h => Edit.remove_added_before h, ?_⟩
  intro unique pre s post hold
  exact ⟨Edit.add_removed unique hold, fun _ _ h => Edit.move_moved unique hold h⟩

/-- A decision is taken off its path with all that is nested in it, and put back. -/
theorem edits_undone_nested :
    (∃ s g, s.id = "ask" ∧
      (Edit.steps (.path "fork" "left") (.remove "ask")).apply (Sample.nested ["b"]) = .ok g ∧
      (Edit.steps (.path "fork" "left") (.addAfter (some "a") s)).apply g =
        .ok (Sample.nested ["b"])) ∧
      (Edit.steps (.outcome "ask" "yes") (.move "b" none)).apply (Sample.nested ["c", "b"]) =
        .ok (Sample.nested ["b", "c"]) ∧
      (Edit.steps (.outcome "ask" "yes") (.remove "new")).apply (Sample.nested ["b", "new"]) =
        .ok (Sample.nested ["b"]) := by
  refine ⟨?_, ?_, ?_⟩
  · obtain ⟨-, -, hback⟩ := edits_undone (Sample.nested ["b"]) (.path "fork" "left")
    obtain ⟨hremove, -⟩ := hback (by decide) [Step.ofType "a" .form] _ [] rfl
    obtain ⟨g, hg, hadd⟩ := hremove (by decide)
    exact ⟨_, g, rfl, hg, hadd⟩
  · obtain ⟨-, -, hback⟩ := edits_undone (Sample.nested ["b", "c"]) (.outcome "ask" "yes")
    obtain ⟨-, hmove⟩ :=
      hback (by decide) [] (Step.ofType "b" .form) [Step.ofType "c" .form] rfl
    exact hmove (some "c") (Sample.nested ["c", "b"]) (by cbv)
  · obtain ⟨hadd, -, -⟩ := edits_undone (Sample.nested ["b"]) (.outcome "ask" "yes")
    exact hadd (some "b") (Step.ofType "new" .form) (Sample.nested ["b", "new"]) (by cbv)

end Flow

end Workflow
