import Workflow.Proofs.Edit.Undo

namespace Workflow

namespace Milestone

def Sorted (ms : List Milestone) : Prop :=
  ms.Pairwise fun a b => a.sequence ≤ b.sequence

theorem sorted_sortMilestones (ms : List Milestone) : Sorted (Flow.sortMilestones ms) := by
  have h : (Flow.sortMilestones ms).Pairwise fun a b => decide (a.sequence ≤ b.sequence) = true :=
    List.pairwise_mergeSort (by simp only [decide_eq_true_eq]; intros; omega)
      (by simp only [Bool.or_eq_true, decide_eq_true_eq]; intros; omega) ms
  exact h.imp fun hle => by simpa using hle

theorem perm_sortMilestones (ms : List Milestone) : (Flow.sortMilestones ms).Perm ms :=
  List.mergeSort_perm ms _

/-- Sorting is stable: milestones of one sequence keep their order. -/
theorem filter_sortMilestones {p : Milestone → Bool} {q : Int}
    (hp : ∀ m, p m = true → m.sequence = q) (ms : List Milestone) :
    (Flow.sortMilestones ms).filter p = ms.filter p := by
  have hpairwise : (ms.filter p).Pairwise fun a b => decide (a.sequence ≤ b.sequence) = true := by
    refine List.pairwise_of_forall_mem_list fun a ha b hb => ?_
    rw [hp a (List.mem_filter.mp ha).2, hp b (List.mem_filter.mp hb).2]
    simp
  have hsub : (ms.filter p).Sublist (Flow.sortMilestones ms) :=
    List.sublist_mergeSort (by simp only [decide_eq_true_eq]; intros; omega)
      (by simp only [Bool.or_eq_true, decide_eq_true_eq]; intros; omega) hpairwise
      List.filter_sublist
  have hfilter := hsub.filter p
  rw [List.filter_filter] at hfilter
  simp only [Bool.and_self] at hfilter
  exact (hfilter.eq_of_length ((perm_sortMilestones ms).filter p).length_eq.symm).symm

/-- What an edit keeps of the milestones that it may touch only some of. -/
structure Keeps (touched : List String) (before after : List Milestone) : Prop where
  unique : (before.map Milestone.id).Nodup → (after.map Milestone.id).Nodup
  sorted : Sorted before → Sorted after
  stable : ∀ (p : Milestone → Bool) q,
    (∀ m, p m = true → m.sequence = q ∧ m.id ∉ touched) → after.filter p = before.filter p

namespace Keeps

variable {touched more : List String} {before mid after ms : List Milestone}

theorem refl (touched : List String) (ms : List Milestone) : Keeps touched ms ms :=
  ⟨fun h => h, fun h => h, fun _ _ _ => rfl⟩

theorem trans (h : Keeps touched before mid) (h' : Keeps more mid after) :
    Keeps (touched ++ more) before after where
  unique hunique := h'.unique (h.unique hunique)
  sorted hsorted := h'.sorted (h.sorted hsorted)
  stable p q hp := by
    simp only [List.mem_append, not_or] at hp
    exact (h'.stable p q fun m hm => ⟨(hp m hm).1, (hp m hm).2.2⟩).trans
      (h.stable p q fun m hm => ⟨(hp m hm).1, (hp m hm).2.1⟩)

/-- Sorting afterwards keeps as much, and more. -/
theorem sort (hunique : (before.map Milestone.id).Nodup → (mid.map Milestone.id).Nodup)
    (hstable : ∀ p : Milestone → Bool, (∀ m, p m = true → m.id ∉ touched) →
      mid.filter p = before.filter p) : Keeps touched before (Flow.sortMilestones mid) where
  unique h := ((perm_sortMilestones mid).map _).nodup_iff.mpr (hunique h)
  sorted _ := sorted_sortMilestones mid
  stable p _ hp :=
    (filter_sortMilestones (fun m hm => (hp m hm).1) mid).trans (hstable p fun m hm => (hp m hm).2)

theorem add {m : Milestone} (hm : m.id ∉ ms.map Milestone.id) :
    Keeps [m.id] ms (Flow.sortMilestones (ms ++ [m])) := by
  refine sort (fun hunique => ?_) fun p hp => ?_
  · rw [List.map_append]
    exact List.Nodup.append hunique (List.nodup_singleton _) (by simpa using hm)
  · have hskip : p m = false := by
      rw [← Bool.not_eq_true]
      exact fun hpm => hp m hpm List.mem_cons_self
    simp [hskip]

theorem remove (id : String) (ms : List Milestone) :
    Keeps [id] ms (ms.filter fun m => m.id != id) where
  unique h := h.sublist (List.filter_sublist.map _)
  sorted h := h.sublist List.filter_sublist
  stable p _ hp := by
    rw [List.filter_filter]
    refine List.filter_congr fun m _ => ?_
    cases hpm : p m with
    | false => rfl
    | true => simpa using (hp m hpm).2

theorem update {pre post : List Milestone} {m m' : Milestone} (hm : m'.id = m.id) :
    Keeps [m.id] (pre ++ m :: post)
      (if m'.sequence = m.sequence then pre ++ m' :: post
        else Flow.sortMilestones (pre ++ m' :: post)) := by
  have hunique : (pre ++ m' :: post).map Milestone.id = (pre ++ m :: post).map Milestone.id := by
    simp [hm]
  have hstable : ∀ p : Milestone → Bool, (∀ m', p m' = true → m'.id ∉ [m.id]) →
      (pre ++ m' :: post).filter p = (pre ++ m :: post).filter p := by
    intro p hp
    have hskip : ∀ k : Milestone, k.id = m.id → p k = false := fun k hk => by
      rw [← Bool.not_eq_true]
      exact fun hpk => hp k hpk (by simp [hk])
    simp [List.filter_append, hskip m rfl, hskip m' hm]
  split
  · rename_i hsequence
    refine ⟨fun h => by rwa [hunique], fun h => ?_,
      fun p _ hp => hstable p fun k hk => (hp k hk).2⟩
    unfold Sorted at h ⊢
    simpa only [List.pairwise_append, List.pairwise_cons, List.mem_cons, forall_eq_or_imp,
      hsequence] using h
  · exact sort (fun h => by rwa [hunique]) hstable

end Keeps

end Milestone

def Step.reference (s : Step) : String × String :=
  (s.id, s.milestone)

namespace Flow

/-- The steps of the main path with their milestones. -/
def references (f : Flow) : List (String × String) :=
  f.steps.map Step.reference

/-- The steps of the main path whose milestone is not there. -/
def dangling (f : Flow) : List (String × String) :=
  f.references.filter fun r => decide (r.2 ∉ f.milestones.map Milestone.id)

end Flow

theorem Context.map_reference_fill {old new : List Step} (c : Context)
    (h : new.map Step.reference = old.map Step.reference) :
    (c.fill new).map Step.reference = (c.fill old).map Step.reference := by
  cases c with
  | nil => exact h
  | cons fr rest => simp [Frame.fill, Step.reference]

namespace Flow

variable {f g : Flow} {id : String}

theorem references_replaceStep {p : Place} {s : Step} (hp : f.find? id = some p)
    (hs : s.reference = p.step.reference) : (f.replaceStep id s).references = f.references := by
  obtain ⟨-, hid⟩ := has_of_find? hp
  obtain ⟨c, pre, post, hfill, hahead, hpre⟩ := foundIn hp
  have hf : f.plug c (pre ++ p.step :: post) = f := plug_eq_self hfill
  rw [← hf, replaceStep_plug hid hahead hpre]
  exact Context.map_reference_fill c (by simp [hs])

/-- All that changes with a step is the step. -/
theorem updateStep_keeps {change : Step → Except EditError Step}
    (h : f.updateStep id change = .ok g) :
    g.milestones = f.milestones ∧
      ((∀ s t, change s = .ok t → t.reference = s.reference) →
        g.references = f.references) := by
  obtain ⟨p, hp, h⟩ := bind_eq_ok_iff.mp h
  obtain ⟨s, hchange, h⟩ := bind_eq_ok_iff.mp h
  cases h
  exact ⟨rfl,
    fun hkeeps => references_replaceStep (orError_eq_ok_iff.mp hp) (hkeeps _ _ hchange)⟩

theorem updateBranch_keeps {change : List (Path Step) → Except EditError (List (Path Step))}
    (h : f.updateBranch id change = .ok g) :
    g.milestones = f.milestones ∧ g.references = f.references := by
  unfold updateBranch at h
  split at h
  · rename_i p hp
    split at h
    · obtain ⟨paths, -, h⟩ := bind_eq_ok_iff.mp h
      cases h
      exact ⟨rfl, references_replaceStep hp rfl⟩
    · cases h
  · cases h

theorem updateDecision_keeps
    {change : List (Outcome Step) → Except EditError (List (Outcome Step))}
    (h : f.updateDecision id change = .ok g) :
    g.milestones = f.milestones ∧ g.references = f.references := by
  unfold updateDecision at h
  split at h
  · rename_i p hp
    split at h
    · obtain ⟨outcomes, -, h⟩ := bind_eq_ok_iff.mp h
      cases h
      exact ⟨rfl, references_replaceStep hp rfl⟩
    · cases h
  · cases h

end Flow

theorem StepPatch.reference_apply {p : StepPatch} {s t : Step} (hp : p.milestone = none)
    (h : p.apply s = .ok t) : t.reference = s.reference := by
  obtain ⟨body, -, heq⟩ := bind_eq_ok_iff.mp h
  cases heq
  simp [Step.reference, hp]

namespace Flow

variable {f g : Flow} {id : String}

theorem isSome_findMilestone? : (f.findMilestone? id).isSome = true ↔
    id ∈ f.milestones.map Milestone.id := by
  simp [findMilestone?, List.mem_map]

theorem addMilestone_ok {m : Milestone} (h : f.addMilestone m = .ok g) :
    m.id ∉ f.milestones.map Milestone.id ∧
      g = { f with milestones := sortMilestones (f.milestones ++ [m]) } := by
  unfold addMilestone at h
  split at h
  · cases h
  · split at h
    · cases h
    · rename_i hm
      cases h
      exact ⟨mt isSome_findMilestone?.mpr hm, rfl⟩

theorem removeMilestone_eq_ok_iff :
    f.removeMilestone id = .ok g ↔ id ∈ f.milestones.map Milestone.id ∧
      (∀ s ∈ f.steps, s.milestone ≠ id) ∧
      g = { f with milestones := f.milestones.filter fun m => m.id != id } := by
  have husers : 0 < f.steps.countP (fun s => s.milestone == id) ↔
      ¬ ∀ s ∈ f.steps, s.milestone ≠ id := by
    simp [List.countP_pos_iff]
  rw [← isSome_findMilestone?]
  unfold removeMilestone
  cases hfind : f.findMilestone? id with
  | none => simp
  | some m =>
    by_cases hfree : ∀ s ∈ f.steps, s.milestone ≠ id
    · rw [if_neg (by simp), if_neg (by simpa [husers] using hfree)]
      constructor
      · rintro ⟨⟩
        exact ⟨rfl, hfree, rfl⟩
      · rintro ⟨-, -, rfl⟩
        rfl
    · rw [if_neg (by simp), if_pos (husers.mpr hfree)]
      simp [hfree]

/-- An updated milestone stays where it is unless its number in the sequence changes. -/
theorem updateMilestone_ok {patch : MilestonePatch} (h : f.updateMilestone id patch = .ok g) :
    ∃ m m' pre post, f.findMilestone? id = some m ∧ m'.id = m.id ∧ m.id = id ∧
      m'.sequence = patch.sequence.getD m.sequence ∧ f.milestones = pre ++ m :: post ∧
      g = { f with milestones := if m'.sequence = m.sequence then pre ++ m' :: post
        else sortMilestones (pre ++ m' :: post) } := by
  unfold updateMilestone at h
  split at h
  · cases h
  · rename_i m hm
    cases h
    have hid : m.id = id := by simpa using List.find?_some hm
    obtain ⟨pre, post, hms, hmodify⟩ := Sequence.modifyFirst_of_find? hm
      fun _ => ⟨m.id, patch.name.getD m.name, patch.sequence.getD m.sequence⟩
    refine ⟨m, ⟨m.id, patch.name.getD m.name, patch.sequence.getD m.sequence⟩, pre, post, hm,
      rfl, hid, rfl, hms, ?_⟩
    simp only [hmodify]

end Flow

namespace Edit

/-- The ids of the milestones that an edit is about. -/
def touched : Edit → List String
  | .addMilestone m => [m.id]
  | .removeMilestone id | .updateMilestone id _ => [id]
  | _ => []

/-- Whether an edit puts a step on the main path or gives a step a milestone. -/
def refers : Edit → Bool
  | .steps .mainPath (.addAfter _ _) | .steps .mainPath (.addBefore _ _) => true
  | .steps _ (.update _ patch) => patch.milestone.isSome
  | _ => false

end Edit

/-- A step of the main path refers to what it did if the edit gives no milestone. -/
theorem ListEdit.reference_subperm {edit : ListEdit} {target : Target} {taken : List String}
    {old new : List Step} (hedit : (Edit.steps .mainPath edit).refers = false)
    (h : edit.apply target taken old = .ok new) :
    (new.map Step.reference).Subperm (old.map Step.reference) := by
  cases edit with
  | addAfter | addBefore => cases hedit
  | remove id =>
    obtain ⟨⟨s, rest⟩, htake, rfl⟩ := map_eq_ok_iff.mp h
    obtain ⟨pre, post, rfl, rfl, -, -⟩ :=
      Siblings.take?_eq_some_iff.mp (orError_eq_ok_iff.mp htake)
    exact (((List.sublist_cons_self s post).append_left pre).map _).subperm
  | update id patch =>
    obtain ⟨s, hfind, h⟩ := bind_eq_ok_iff.mp h
    obtain ⟨t, hpatch, h⟩ := bind_eq_ok_iff.mp h
    cases h
    obtain ⟨pre, post, rfl, hmodify⟩ :=
      Sequence.modifyFirst_of_find? (orError_eq_ok_iff.mp hfind) fun _ => t
    rw [hmodify]
    have hst := StepPatch.reference_apply (by simpa [Edit.refers] using hedit) hpatch
    exact (List.Perm.of_eq (by simp [hst])).subperm
  | move id after =>
    exact ((Siblings.perm_of_move? (ListEdit.move_eq_ok_iff.mp h)).map _).subperm

namespace Edit

variable {f g : Flow} {e : Edit}

/-- An edit that touches no milestone leaves them all alone, and refers to nothing new unless it is
one that does refer. -/
theorem keeps_of_untouched (huntouched : e.touched = []) (h : e.apply f = .ok g) :
    g.milestones = f.milestones ∧ (e.refers = false → g.references.Subperm f.references) := by
  have all : g.milestones = f.milestones ∧ g.references = f.references →
      g.milestones = f.milestones ∧ (e.refers = false → g.references.Subperm f.references) :=
    fun ⟨hms, hrefs⟩ => ⟨hms, fun _ => (List.Perm.of_eq hrefs).subperm⟩
  cases e with
  | steps target edit =>
    rcases apply_steps h with ⟨id, patch, rfl, hupdate⟩ | h
    · obtain ⟨hms, hrefs⟩ := Flow.updateStep_keeps hupdate
      refine ⟨hms, fun hrefers => (List.Perm.of_eq (hrefs fun s t hpatch => ?_)).subperm⟩
      exact StepPatch.reference_apply (by cases target <;> simpa [refers] using hrefers) hpatch
    · cases target with
      | mainPath =>
        obtain ⟨new, hnew, h⟩ := bind_eq_ok_iff.mp h
        cases h
        exact ⟨rfl, fun hrefers => ListEdit.reference_subperm hrefers hnew⟩
      | path => exact all (Flow.updateBranch_keeps h)
      | outcome => exact all (Flow.updateDecision_keeps h)
  | addPath | removePath | setGuard => exact all (Flow.updateBranch_keeps h)
  | addOutcome | removeOutcome | setOutcomeLabel => exact all (Flow.updateDecision_keeps h)
  | setTerminateStatus id status =>
    rw [apply] at h
    obtain ⟨hms, hrefs⟩ := Flow.updateStep_keeps h
    refine all ⟨hms, hrefs fun s t hchange => ?_⟩
    split at hchange <;> cases hchange
    rfl
  | setGotoTarget id target =>
    rw [apply] at h
    obtain ⟨hms, hrefs⟩ := Flow.updateStep_keeps h
    refine all ⟨hms, hrefs fun s t hchange => ?_⟩
    split at hchange <;> cases hchange
    rfl
  | addMilestone | removeMilestone | updateMilestone => cases huntouched
  | rename name =>
    cases h
    exact all ⟨rfl, rfl⟩

/-- No edit touches milestones but the ones that it names. -/
theorem keeps_milestones (h : e.apply f = .ok g) :
    Milestone.Keeps e.touched f.milestones g.milestones := by
  cases e with
  | addMilestone m =>
    obtain ⟨hm, rfl⟩ := Flow.addMilestone_ok h
    exact .add hm
  | removeMilestone id =>
    obtain ⟨-, -, rfl⟩ := Flow.removeMilestone_eq_ok_iff.mp h
    exact .remove id f.milestones
  | updateMilestone id patch =>
    obtain ⟨m, m', pre, post, -, hm', rfl, -, hms, rfl⟩ := Flow.updateMilestone_ok h
    rw [hms]
    exact .update hm'
  | _ =>
    rw [(keeps_of_untouched rfl h).1]
    exact .refl _ _

/-- No edit leaves a step of the main path without its milestone, unless it refers to one. -/
theorem dangling_subperm (hrefers : e.refers = false) (h : e.apply f = .ok g) :
    g.dangling.Subperm f.dangling := by
  have still : g.references = f.references →
      (∀ r ∈ f.references, r.2 ∈ f.milestones.map Milestone.id →
        r.2 ∈ g.milestones.map Milestone.id) → g.dangling.Subperm f.dangling := by
    intro hrefs hms
    have hsub : g.dangling = f.dangling.filter fun r =>
        decide (r.2 ∉ g.milestones.map Milestone.id) := by
      rw [Flow.dangling, Flow.dangling, List.filter_filter, hrefs]
      refine List.filter_congr fun r hr => ?_
      by_cases hmem : r.2 ∈ f.milestones.map Milestone.id
      · simp only [hms r hr hmem, not_true_eq_false, decide_false, Bool.false_and]
      · simp only [hmem, not_false_eq_true, decide_true, Bool.and_true]
    rw [hsub]
    exact List.filter_sublist.subperm
  cases e with
  | addMilestone m =>
    obtain ⟨-, rfl⟩ := Flow.addMilestone_ok h
    refine still rfl fun r _ hr => ?_
    exact ((Milestone.perm_sortMilestones _).map _).mem_iff.mpr (by simp_all)
  | removeMilestone id =>
    obtain ⟨-, hfree, rfl⟩ := Flow.removeMilestone_eq_ok_iff.mp h
    refine still rfl fun r hr hmem => ?_
    obtain ⟨s, hs, rfl⟩ := List.mem_map.mp hr
    obtain ⟨m, hm, heq⟩ := List.mem_map.mp hmem
    refine List.mem_map.mpr ⟨m, List.mem_filter.mpr ⟨hm, ?_⟩, heq⟩
    simpa [heq, Step.reference] using hfree s hs
  | updateMilestone id patch =>
    obtain ⟨m, m', pre, post, -, hm', rfl, -, hms, rfl⟩ := Flow.updateMilestone_ok h
    refine still rfl fun r _ hr => ?_
    have hids : (pre ++ m' :: post).map Milestone.id = f.milestones.map Milestone.id := by
      simp [hms, hm']
    rw [← hids] at hr
    split
    · exact hr
    · exact ((Milestone.perm_sortMilestones _).map _).mem_iff.mpr hr
  | _ =>
    obtain ⟨hms, hrefs⟩ := keeps_of_untouched rfl h
    unfold Flow.dangling
    rw [hms]
    exact (hrefs hrefers).filter _

end Edit

/-- What a batch does to milestones, edit by edit. -/
theorem Edit.applyFrom_keeps_milestones {index : Nat} {edits : List Edit} {f g : Flow}
    (h : (applyFrom index f edits).flow = some g) :
    Milestone.Keeps (edits.flatMap touched) f.milestones g.milestones := by
  induction edits generalizing f index with
  | nil =>
    cases h
    exact .refl _ _
  | cons e rest ih =>
    unfold applyFrom at h
    split at h
    · cases h
    · rename_i f' hedit
      exact (keeps_milestones hedit).trans (ih h)

namespace Sample

def staged (milestones : List Milestone) : Flow :=
  { Flow.empty "sample" "" with
    milestones
    steps := [{ Step.ofType "a" .form with milestone := "n" }] }

/-- A milestone that comes in front of all others, and then goes behind them. -/
def stage : List Edit :=
  [.addMilestone ⟨"k", "", 1⟩, .updateMilestone "k" { sequence := some 3 }]

end Sample

namespace Flow

/-- Milestones stay unique, sorted and where they are referred to. A batch keeps ids unique and
milestones sorted, and milestones of one sequence that it does not touch in their order. Adding a
milestone or giving one another sequence sorts them in any case. A milestone can be removed if no
step of the main path is assigned to it, and nothing else goes with it. No step of the main path
comes to be assigned to a milestone that is not there, unless the edit assigns it. -/
theorem milestones_kept (f : Flow) :
    (∀ edits g, (f.applyAll edits).flow = some g →
      ((f.milestones.map Milestone.id).Nodup → (g.milestones.map Milestone.id).Nodup) ∧
      (Milestone.Sorted f.milestones → Milestone.Sorted g.milestones) ∧
      ∀ q,
        (g.milestones.filter fun m =>
            decide (m.sequence = q ∧ m.id ∉ edits.flatMap Edit.touched)) =
          f.milestones.filter fun m =>
            decide (m.sequence = q ∧ m.id ∉ edits.flatMap Edit.touched)) ∧
    (∀ m g, (Edit.addMilestone m).apply f = .ok g → Milestone.Sorted g.milestones) ∧
    (∀ id patch m q g, f.findMilestone? id = some m →
      patch.sequence = some q → q ≠ m.sequence →
      (Edit.updateMilestone id patch).apply f = .ok g → Milestone.Sorted g.milestones) ∧
    (∀ id ∈ f.milestones.map Milestone.id,
      ((∃ g, (Edit.removeMilestone id).apply f = .ok g) ↔
        ∀ s ∈ f.steps, s.milestone ≠ id) ∧
      ∀ g, (Edit.removeMilestone id).apply f = .ok g →
        g = { f with milestones := f.milestones.filter fun m => m.id != id }) ∧
    ∀ (e : Edit) g, e.refers = false → e.apply f = .ok g → g.dangling.Subperm f.dangling := by
  refine ⟨fun edits g h => ?_, fun m g h => ?_, fun id patch m q g hm hq hne h => ?_,
    fun id hid => ?_, fun e g hrefers h => Edit.dangling_subperm hrefers h⟩
  · have keeps := Edit.applyFrom_keeps_milestones h
    exact ⟨keeps.unique, keeps.sorted, fun q => keeps.stable _ q fun m hm => by simpa using hm⟩
  · obtain ⟨-, rfl⟩ := addMilestone_ok h
    exact Milestone.sorted_sortMilestones _
  · obtain ⟨n, m', pre, post, hn, -, -, hsequence, -, rfl⟩ := updateMilestone_ok h
    obtain rfl := Option.some.inj (hn.symm.trans hm)
    have hchanged : m'.sequence ≠ n.sequence := by simpa [hsequence, hq] using hne
    simp only [if_neg hchanged]
    exact Milestone.sorted_sortMilestones _
  · refine ⟨⟨fun ⟨g, h⟩ => (removeMilestone_eq_ok_iff.mp h).2.1, fun hfree => ?_⟩,
      fun g h => (removeMilestone_eq_ok_iff.mp h).2.2⟩
    exact ⟨_, removeMilestone_eq_ok_iff.mpr ⟨hid, hfree, rfl⟩⟩

/-- One milestone is moved to the front, and the one that is in use is not removed. -/
theorem milestones_kept_staged :
    (Milestone.Sorted
      (Sample.staged [⟨"m", "", 2⟩, ⟨"n", "", 2⟩, ⟨"k", "", 3⟩]).milestones ∧
        ((Sample.staged [⟨"m", "", 2⟩, ⟨"n", "", 2⟩, ⟨"k", "", 3⟩]).milestones.map
          Milestone.id).Nodup) ∧
      Milestone.Sorted
        (Sample.staged [⟨"k", "", 1⟩, ⟨"n", "", 2⟩, ⟨"m", "", 3⟩]).milestones ∧
      (¬∃ g, (Edit.removeMilestone "n").apply
        (Sample.staged [⟨"m", "", 2⟩, ⟨"n", "", 2⟩]) = .ok g) ∧
      (Sample.staged [⟨"n", "", 2⟩]).dangling.Subperm
        (Sample.staged [⟨"m", "", 2⟩, ⟨"n", "", 2⟩]).dangling := by
  obtain ⟨hbatch, -, -, hremove, hdangling⟩ :=
    milestones_kept (Sample.staged [⟨"m", "", 2⟩, ⟨"n", "", 2⟩])
  refine ⟨?_, ?_, ?_, ?_⟩
  · have hstage :
      ((Sample.staged [⟨"m", "", 2⟩, ⟨"n", "", 2⟩]).applyAll Sample.stage).flow =
        some (Sample.staged [⟨"m", "", 2⟩, ⟨"n", "", 2⟩, ⟨"k", "", 3⟩]) := by
      simp [applyAll, Edit.applyFrom, Sample.stage, Sample.staged, Edit.apply, addMilestone,
        updateMilestone, findMilestone?, sortMilestones, List.mergeSort, Sequence.modifyFirst]
    obtain ⟨hunique, hsorted, -⟩ := hbatch Sample.stage _ hstage
    exact ⟨hsorted (by unfold Milestone.Sorted; decide), hunique (by decide)⟩
  · have hadded : (Edit.addMilestone ⟨"k", "", 1⟩).apply
        (Sample.staged [⟨"m", "", 3⟩, ⟨"n", "", 2⟩]) =
        .ok (Sample.staged [⟨"k", "", 1⟩, ⟨"n", "", 2⟩, ⟨"m", "", 3⟩]) := by
      simp [Sample.staged, Edit.apply, addMilestone, findMilestone?, sortMilestones, List.mergeSort]
    obtain ⟨-, hadd, -⟩ := milestones_kept (Sample.staged [⟨"m", "", 3⟩, ⟨"n", "", 2⟩])
    exact hadd ⟨"k", "", 1⟩ _ hadded
  · rw [(hremove "n" (by decide)).1]
    decide
  · exact hdangling (.removeMilestone "m") _ rfl rfl

end Flow

end Workflow
