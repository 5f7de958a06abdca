import Mathlib.Data.List.Perm.Basic
import Workflow.Edit.Request
import Workflow.Proofs.Edit.Ids
import Workflow.Proofs.Table

namespace Workflow

namespace StepPatch

def overlay (p q : StepPatch) : StepPatch where
  title := q.title.or p.title
  description := q.description.or p.description
  milestone := q.milestone.or p.milestone
  due := q.due.or p.due
  quorum := q.quorum.or p.quorum
  review := q.review.or p.review
  config := Table.overlay p.config q.config

/-- What a patch says on one matter. A patch laid over has the last word if it says anything. -/
def IsPart {α : Type} (part : StepPatch → Option α) : Prop :=
  ∀ p q : StepPatch, q.config.Sorted → part (p.overlay q) = (part q).or (part p)

theorem isPart_setting (key : String) : IsPart fun p => p.config.find? key := by
  intro p q hq
  have hover := Table.find?_overlay p.config q.config key
  rwa [Table.find?_reverse hq.nodup] at hover

theorem eq_of_apart {p q : StepPatch} (h : { p with config := [] } = { q with config := [] })
    (hconfig : p.config = q.config) : p = q := by
  cases p
  cases q
  cases h
  cases hconfig
  rfl

theorem overlay_empty {q : StepPatch} (hq : q.config.Sorted) : overlay {} q = q := by
  have hconfig : Table.overlay [] q.config = q.config :=
    (Table.sorted_ofList _).ext hq (Table.find?_ofList hq.nodup)
  simp only [overlay, Option.or_none, hconfig]

variable {α : Type} {part : StepPatch → Option α} {ps qs : List StepPatch}

theorem IsPart.foldl_overlay (hpart : IsPart part) (hps : ∀ q ∈ ps, q.config.Sorted)
    (p : StepPatch) :
    part (ps.foldl overlay p) = ps.foldl (fun said q => (part q).or said) (part p) := by
  induction ps generalizing p with
  | nil => rfl
  | cons q rest ih =>
    obtain ⟨hq, hrest⟩ := List.forall_mem_cons.mp hps
    rw [List.foldl_cons, List.foldl_cons, ih hrest, hpart p q hq]

/-- Where patches agree, their order does not matter. -/
theorem IsPart.foldl_overlay_perm (hpart : IsPart part) (hps : ∀ q ∈ ps, q.config.Sorted)
    (hperm : ps.Perm qs)
    (hagree : ∀ q ∈ ps, ∀ q' ∈ ps, ∀ a b, part q = some a → part q' = some b → a = b)
    (p : StepPatch) : part (ps.foldl overlay p) = part (qs.foldl overlay p) := by
  rw [hpart.foldl_overlay hps, hpart.foldl_overlay fun q hq => hps q (hperm.mem_iff.mpr hq)]
  refine hperm.foldl_eq' ?_ _
  intro q hq q' hq' said
  cases h : part q with
  | none => rfl
  | some a =>
    cases h' : part q' with
    | none => rfl
    | some b => exact congrArg some (hagree q hq q' hq' a b h h').symm

end StepPatch

namespace Record

/-- A field of an update and one that differs from it at most in the order of `config`. -/
inductive SameField : String × Value → String × Value → Prop where
  | refl (field : String × Value) : SameField field field
  | config {fields fields' : Record} (h : fields.Perm fields') :
      SameField ("config", .record fields) ("config", .record fields')

/-- The same update with its fields, and the fields of its `config`, in another order. -/
def Reorders (u v : Record) : Prop :=
  ∃ w, u.Perm w ∧ List.Forall₂ SameField w v

theorem Reorders.of_perm {u v : Record} (h : u.Perm v) : u.Reorders v :=
  ⟨v, h, List.forall₂_same.mpr fun entry _ => .refl entry⟩

/-- No name comes twice in an update, nor in its `config`. -/
structure Distinct (u : Record) : Prop where
  names : (u.map Prod.fst).Nodup
  config : ∀ fields, ("config", .record fields) ∈ u → (fields.map Prod.fst).Nodup

/-- Only one field has the name `config`. -/
theorem Distinct.of_config {u fields : Record} (hnames : (u.map Prod.fst).Nodup)
    (hconfig : ("config", .record fields) ∈ u) (hfields : (fields.map Prod.fst).Nodup) :
    u.Distinct where
  names := hnames
  config := by
    intro fields' hconfig'
    cases List.inj_on_of_nodup_map hnames hconfig hconfig' rfl
    exact hfields

end Record

namespace Document.Request

def fieldNames : List String :=
  ["stepId", "type", "title", "description", "milestoneId", "due", "completionMode", "aiReview",
    "config"]

inductive Reads (r : Request) : String → Value → StepPatch → Prop where
  | title (s : String) : Reads r "title" (.text s) { title := some s }
  | description (s : String) : Reads r "description" (.text s) { description := some s }
  | milestone (s : String) : Reads r "milestoneId" (.text s) { milestone := some s }
  | due {value : Value} {d : Deadline} (h : r.needDeadline value = .ok d) :
      Reads r "due" value { due := some d }
  | quorum {value : Value} {q : Quorum} (h : r.needQuorum value = .ok q) :
      Reads r "completionMode" value { quorum := some q }
  | review (b : Bool) : Reads r "aiReview" (.bool b) { review := some b }
  | config (fields : Record) : Reads r "config" (.record fields) { config := Table.ofList fields }
  | setting {field : String} (value : Value) (h : field ∉ fieldNames) :
      Reads r field value { config := [(field, value)] }

/-- A setting is given twice by an update, on its own and in `config`, with different values. -/
def Contested (u : Record) (key : String) : Prop :=
  key ∉ fieldNames ∧ ∃ fields a b,
    ("config", .record fields) ∈ u ∧ (key, a) ∈ fields ∧ (key, b) ∈ u ∧ a ≠ b

section Fields

variable {r : Request} {p p' q q' : StepPatch} {field : String} {value : Value}

theorem needText_ok_iff {s : String} : r.needText field value = .ok s ↔ value = .text s := by
  cases value <;> simp [needText]

theorem needBool_ok_iff {b : Bool} : r.needBool value = .ok b ↔ value = .bool b := by
  cases value <;> simp [needBool]

theorem Reads.sorted (h : r.Reads field value q) : q.config.Sorted := by
  cases h with
  | config fields => exact Table.sorted_ofList fields
  | setting value _ => exact Table.sorted_ofList [(field, value)]
  | _ => exact Table.sorted_nil

/-- Taking a field into a patch lays over it what the field says on its own. -/
theorem Reads.patchField_eq (h : r.Reads field value q) (hp : p.config.Sorted) :
    r.patchField p field value = .ok (p.overlay q) := by
  cases h with
  | config fields => simp [patchField, StepPatch.overlay, hp.overlay_ofList]
  | setting value hfield =>
    simp only [fieldNames, List.mem_cons, List.not_mem_nil, or_false, not_or] at hfield
    simp [patchField, StepPatch.overlay, Table.overlay, hfield]
  | due h => simp [patchField, StepPatch.overlay, Table.overlay, Except.map, h]
  | quorum h => simp [patchField, StepPatch.overlay, Table.overlay, Except.map, h]
  | _ => simp [patchField, StepPatch.overlay, Table.overlay, Except.map, needText, needBool]

/-- A field that is taken into a patch is the patch that it makes by itself, laid over what was
there. -/
theorem exists_reads_of_patchField (h : r.patchField p field value = .ok p')
    (hp : p.config.Sorted) : ∃ q, r.Reads field value q ∧ p.overlay q = p' := by
  unfold patchField at h
  split at h
  · cases h
  rename_i hfixed
  split at h
  · rename_i hf
    subst hf
    obtain ⟨s, hs, rfl⟩ := map_eq_ok_iff.mp h
    obtain rfl := needText_ok_iff.mp hs
    exact ⟨_, .title s, rfl⟩
  rename_i htitle
  split at h
  · rename_i hf
    subst hf
    obtain ⟨s, hs, rfl⟩ := map_eq_ok_iff.mp h
    obtain rfl := needText_ok_iff.mp hs
    exact ⟨_, .description s, rfl⟩
  rename_i hdescription
  split at h
  · rename_i hf
    subst hf
    obtain ⟨s, hs, rfl⟩ := map_eq_ok_iff.mp h
    obtain rfl := needText_ok_iff.mp hs
    exact ⟨_, .milestone s, rfl⟩
  rename_i hmilestone
  split at h
  · rename_i hf
    subst hf
    obtain ⟨d, hd, rfl⟩ := map_eq_ok_iff.mp h
    exact ⟨_, .due hd, rfl⟩
  rename_i hdue
  split at h
  · rename_i hf
    subst hf
    obtain ⟨q, hq, rfl⟩ := map_eq_ok_iff.mp h
    exact ⟨_, .quorum hq, rfl⟩
  rename_i hquorum
  split at h
  · rename_i hf
    subst hf
    obtain ⟨b, hb, rfl⟩ := map_eq_ok_iff.mp h
    obtain rfl := needBool_ok_iff.mp hb
    exact ⟨_, .review b, rfl⟩
  rename_i hreview
  split at h
  · rename_i hf
    subst hf
    split at h
    · cases h
      exact ⟨_, .config _, by simp [StepPatch.overlay, hp.overlay_ofList]⟩
    · cases h
  rename_i hconfig
  cases h
  refine ⟨_, .setting value ?_, by simp [StepPatch.overlay, Table.overlay]⟩
  simp_all [fieldNames]

theorem patchField_ok_iff (hp : p.config.Sorted) :
    r.patchField p field value = .ok p' ↔ ∃ q, r.Reads field value q ∧ p.overlay q = p' := by
  constructor
  · intro h
    exact exists_reads_of_patchField h hp
  · rintro ⟨q, hq, rfl⟩
    exact hq.patchField_eq hp

theorem Reads.unique (h : r.Reads field value q) (h' : r.Reads field value q') : q = q' := by
  have hread := h.patchField_eq (p := {}) Table.sorted_nil
  have hread' := h'.patchField_eq (p := {}) Table.sorted_nil
  rw [StepPatch.overlay_empty h.sorted] at hread
  rw [StepPatch.overlay_empty h'.sorted] at hread'
  exact Except.ok.inj (hread.symm.trans hread')

theorem reads_config_iff {fields : Record} :
    r.Reads "config" (.record fields) q ↔ q = { config := Table.ofList fields } := by
  constructor
  · intro h
    exact h.unique (.config fields)
  · rintro rfl
    exact .config fields

/-- What gives a setting: `config`, or a field of its name. -/
theorem Reads.setting_cases {key : String} {a : Value} (h : r.Reads field value q)
    (ha : q.config.find? key = some a) :
    (∃ fields, field = "config" ∧ value = .record fields ∧
        (Table.ofList fields).find? key = some a) ∨
      field = key ∧ value = a ∧ key ∉ fieldNames := by
  cases h with
  | config fields => exact .inl ⟨fields, rfl, rfl, ha⟩
  | setting value hfield =>
    rw [Table.find?_cons] at ha
    split at ha
    · rename_i hkey
      exact .inr ⟨hkey.symm, Option.some.inj ha, hkey ▸ hfield⟩
    · cases ha
  | _ => cases ha

end Fields

variable {r : Request} {u v : Record} {p q : StepPatch} {ps qs : List StepPatch}

/-- The fields of an update say the patches of a list, one each. -/
def ReadsAll (r : Request) (u : Record) (ps : List StepPatch) : Prop :=
  List.Forall₂ (fun entry q => r.Reads entry.1 entry.2 q) u ps

theorem ReadsAll.exists_entry (h : r.ReadsAll u ps) (hq : q ∈ ps) :
    ∃ entry ∈ u, r.Reads entry.1 entry.2 q := by
  induction h with
  | nil => cases hq
  | cons hread _ ih =>
    rcases List.mem_cons.mp hq with rfl | hq
    · exact ⟨_, List.mem_cons_self, hread⟩
    · obtain ⟨entry, he, hread⟩ := ih hq
      exact ⟨entry, List.mem_cons_of_mem _ he, hread⟩

theorem ReadsAll.sorted (h : r.ReadsAll u ps) : ∀ q ∈ ps, q.config.Sorted := by
  intro q hq
  obtain ⟨entry, -, hread⟩ := h.exists_entry hq
  exact hread.sorted

/-- A request makes a patch just when each of its fields does by itself. -/
theorem foldlM_patchField_ok_iff (hp : p.config.Sorted) :
    u.foldlM (fun p entry => r.patchField p entry.1 entry.2) p = .ok q ↔
      ∃ ps, r.ReadsAll u ps ∧ ps.foldl StepPatch.overlay p = q := by
  induction u generalizing p with
  | nil => simp [ReadsAll, pure, Except.pure]
  | cons entry rest ih =>
    rw [List.foldlM_cons, bind_eq_ok_iff]
    constructor
    · rintro ⟨_, hentry, hrest⟩
      obtain ⟨q, hq, rfl⟩ := (patchField_ok_iff hp).mp hentry
      obtain ⟨ps, hps, hfold⟩ := (ih (hp.overlay _)).mp hrest
      exact ⟨q :: ps, .cons hq hps, hfold⟩
    · rintro ⟨_, hall, hfold⟩
      obtain ⟨q, ps, hq, hps, rfl⟩ := List.forall₂_cons_left_iff.mp hall
      exact ⟨_, (patchField_ok_iff hp).mpr ⟨q, hq, rfl⟩,
        (ih (hp.overlay _)).mpr ⟨ps, hps, hfold⟩⟩

/-- The patch of an update is what its fields say, each laid over those before it. -/
theorem patchOf_ok_iff :
    r.patchOf u = .ok p ↔ ∃ ps, r.ReadsAll u ps ∧ ps.foldl StepPatch.overlay {} = p :=
  foldlM_patchField_ok_iff Table.sorted_nil

theorem exists_patchOf_iff : (∃ p, r.patchOf u = .ok p) ↔ ∃ ps, r.ReadsAll u ps := by
  constructor
  · rintro ⟨p, hp⟩
    obtain ⟨ps, hps, -⟩ := patchOf_ok_iff.mp hp
    exact ⟨ps, hps⟩
  · rintro ⟨ps, hps⟩
    exact ⟨_, patchOf_ok_iff.mpr ⟨ps, hps, rfl⟩⟩

theorem patchOf_sorted (h : r.patchOf u = .ok p) : p.config.Sorted := by
  obtain ⟨ps, -, rfl⟩ := patchOf_ok_iff.mp h
  refine List.foldlRecOn (motive := fun p : StepPatch => p.config.Sorted) ps _ Table.sorted_nil ?_
  intro p hp q _
  exact hp.overlay q.config

/-- The order of `config` does not show in what its field says. -/
theorem readsAll_iff_of_sameField (h : List.Forall₂ Record.SameField u v)
    (hu : ∀ fields, ("config", .record fields) ∈ u → (fields.map Prod.fst).Nodup) :
    r.ReadsAll u ps ↔ r.ReadsAll v ps := by
  induction h generalizing ps with
  | nil => rfl
  | cons hsame _ ih =>
    have hrest : ∀ {ps}, r.ReadsAll _ ps ↔ r.ReadsAll _ ps :=
      ih fun fields hmem => hu fields (List.mem_cons_of_mem _ hmem)
    simp only [ReadsAll, List.forall₂_cons_left_iff] at hrest ⊢
    cases hsame with
    | refl => simp only [hrest]
    | config hperm =>
      simp only [hrest, reads_config_iff, Table.ofList_perm (hu _ List.mem_cons_self) hperm]

/-- An update in another order says the same, in another order. -/
theorem readsAll_of_reorders (hu : u.Distinct) (h : u.Reorders v) (hps : r.ReadsAll u ps) :
    ∃ qs, r.ReadsAll v qs ∧ ps.Perm qs := by
  obtain ⟨w, hperm, hsame⟩ := h
  obtain ⟨qs, hqs, hpq⟩ := List.perm_comp_forall₂ hperm.symm hps
  refine ⟨qs, (readsAll_iff_of_sameField hsame ?_).mp hqs, hpq.symm⟩
  intro fields hmem
  exact hu.config fields (hperm.mem_iff.mpr hmem)

theorem readsAll_of_reordered (hu : u.Distinct) (h : u.Reorders v) (hqs : r.ReadsAll v qs) :
    ∃ ps, r.ReadsAll u ps ∧ ps.Perm qs := by
  obtain ⟨w, hperm, hsame⟩ := h
  have hw : ∀ fields, ("config", .record fields) ∈ w → (fields.map Prod.fst).Nodup :=
    fun fields hmem => hu.config fields (hperm.mem_iff.mpr hmem)
  obtain ⟨ps, hps, hpq⟩ :=
    List.perm_comp_forall₂ hperm ((readsAll_iff_of_sameField hsame hw).mpr hqs)
  exact ⟨ps, hps, hpq⟩

/-- Only a field of one name says anything on the matter of a part. -/
def OnlyFrom {α : Type} (r : Request) (name : String) (part : StepPatch → Option α) : Prop :=
  ∀ field value q a, r.Reads field value q → part q = some a → field = name

/-- What only one field says does not depend on the order. -/
theorem part_eq_of_onlyFrom {α : Type} {name : String} {part : StepPatch → Option α}
    (hu : u.Distinct) (hps : r.ReadsAll u ps) (hperm : ps.Perm qs)
    (hpart : StepPatch.IsPart part) (honly : OnlyFrom r name part) :
    part (ps.foldl StepPatch.overlay {}) = part (qs.foldl StepPatch.overlay {}) := by
  refine hpart.foldl_overlay_perm hps.sorted hperm ?_ {}
  intro q hq q' hq' a b ha hb
  obtain ⟨entry, he, hread⟩ := hps.exists_entry hq
  obtain ⟨entry', he', hread'⟩ := hps.exists_entry hq'
  have hname : entry.1 = entry'.1 :=
    (honly _ _ _ _ hread ha).trans (honly _ _ _ _ hread' hb).symm
  obtain rfl := List.inj_on_of_nodup_map hu.names he he' hname
  obtain rfl := hread.unique hread'
  exact Option.some.inj (ha.symm.trans hb)

/-- A setting that is not contested does not depend on the order. -/
theorem setting_eq_of_not_contested {key : String} (hu : u.Distinct) (hps : r.ReadsAll u ps)
    (hperm : ps.Perm qs) (hkey : ¬Contested u key) :
    (ps.foldl StepPatch.overlay {}).config.find? key =
      (qs.foldl StepPatch.overlay {}).config.find? key := by
  refine (StepPatch.isPart_setting key).foldl_overlay_perm hps.sorted hperm ?_ {}
  intro q hq q' hq' a b ha hb
  obtain ⟨⟨field, value⟩, he, hread⟩ := hps.exists_entry hq
  obtain ⟨⟨field', value'⟩, he', hread'⟩ := hps.exists_entry hq'
  have agree_of_name : field = field' → a = b := by
    intro hname
    cases List.inj_on_of_nodup_map hu.names he he' hname
    obtain rfl := hread.unique hread'
    exact Option.some.inj (ha.symm.trans hb)
  -- the two say something on their own and in `config`, in either order
  have agree_of_config : ∀ {fields : Record} {a b : Value}, key ∉ fieldNames →
      ("config", .record fields) ∈ u → (key, b) ∈ u →
        (Table.ofList fields).find? key = some a →
      a = b := by
    intro fields a b hsetting hconfig hown ha
    have hnodup := hu.config fields hconfig
    rw [Table.find?_ofList hnodup, Table.find?_eq_some_iff hnodup] at ha
    by_contra hne
    exact hkey ⟨hsetting, fields, a, b, hconfig, ha, hown, hne⟩
  rcases hread.setting_cases ha with ⟨fields, rfl, rfl, hin⟩ | ⟨rfl, rfl, hsetting⟩
  · rcases hread'.setting_cases hb with ⟨_, rfl, -, -⟩ | ⟨rfl, rfl, hsetting⟩
    · exact agree_of_name rfl
    · exact agree_of_config hsetting he he' hin
  · rcases hread'.setting_cases hb with ⟨fields, rfl, rfl, hin⟩ | ⟨rfl, -, -⟩
    · exact (agree_of_config hsetting he' he hin).symm
    · exact agree_of_name rfl

/-- Two orders of an update say the same but for the settings that are contested. -/
theorem patchOf_eq_apart (hu : u.Distinct) (h : u.Reorders v) (hp : r.patchOf u = .ok p)
    (hq : r.patchOf v = .ok q) :
    { p with config := [] } = { q with config := [] } ∧
      ∀ key, ¬Contested u key → p.config.find? key = q.config.find? key := by
  obtain ⟨ps, hps, rfl⟩ := patchOf_ok_iff.mp hp
  obtain ⟨qs, hqs, rfl⟩ := patchOf_ok_iff.mp hq
  obtain ⟨qs', hqs', hperm⟩ := readsAll_of_reorders hu h hps
  obtain rfl : qs' = qs :=
    List.right_unique_forall₂' (fun _ _ _ hread hread' => hread.unique hread') hqs' hqs
  have only : ∀ {α : Type} (name : String) {part : StepPatch → Option α},
      StepPatch.IsPart part → OnlyFrom r name part →
        part (ps.foldl StepPatch.overlay {}) = part (qs'.foldl StepPatch.overlay {}) :=
    fun {_} _ {_} hpart honly => part_eq_of_onlyFrom hu hps hperm hpart honly
  refine ⟨?_, fun key hkey => setting_eq_of_not_contested hu hps hperm hkey⟩
  rw [StepPatch.mk.injEq]
  refine ⟨only "title" (fun _ _ _ => rfl) ?_, only "description" (fun _ _ _ => rfl) ?_,
    only "milestoneId" (fun _ _ _ => rfl) ?_, only "due" (fun _ _ _ => rfl) ?_,
    only "completionMode" (fun _ _ _ => rfl) ?_, only "aiReview" (fun _ _ _ => rfl) ?_, rfl⟩
  all_goals
    intro field value q a hread hsays
    cases hread <;> first | rfl | cases hsays

theorem exists_patchOf_reorders (hu : u.Distinct) (h : u.Reorders v) :
    (∃ p, r.patchOf u = .ok p) ↔ ∃ q, r.patchOf v = .ok q := by
  rw [exists_patchOf_iff, exists_patchOf_iff]
  constructor
  · rintro ⟨ps, hps⟩
    obtain ⟨qs, hqs, -⟩ := readsAll_of_reorders hu h hps
    exact ⟨qs, hqs⟩
  · rintro ⟨qs, hqs⟩
    obtain ⟨ps, hps, -⟩ := readsAll_of_reordered hu h hqs
    exact ⟨ps, hps⟩

theorem patchOf_concat (entry : String × Value) :
    r.patchOf (u ++ [entry]) = r.patchOf u >>= fun p => r.patchField p entry.1 entry.2 := by
  simp [patchOf, List.foldlM_append]

/-- The last field has the last word. -/
theorem find?_patchOf_concat {key field : String} {value a : Value}
    (hread : r.Reads field value q) (ha : q.config.find? key = some a)
    (hp : r.patchOf (u ++ [(field, value)]) = .ok p) : p.config.find? key = some a := by
  rw [patchOf_concat] at hp
  obtain ⟨p', hp', hlast⟩ := bind_eq_ok_iff.mp hp
  obtain ⟨q', hread', rfl⟩ := (patchField_ok_iff (patchOf_sorted hp')).mp hlast
  obtain rfl := hread.unique hread'
  have hsays := StepPatch.isPart_setting key p' q hread.sorted
  simpa only [ha, Option.some_or] using hsays

/-- Two elements of a list can be moved to its end, in either order. -/
theorem exists_perm_concat {α : Type} {l : List α} {a b : α} (ha : a ∈ l) (hb : b ∈ l)
    (hne : b ≠ a) :
    ∃ rest, l.Perm (rest ++ [a] ++ [b]) ∧ l.Perm (rest ++ [b] ++ [a]) := by
  obtain ⟨pre, post, rfl⟩ := List.append_of_mem ha
  have hfirst : (pre ++ a :: post).Perm (a :: (pre ++ post)) := List.perm_middle
  have hrest : b ∈ pre ++ post := (List.mem_cons.mp (hfirst.mem_iff.mp hb)).resolve_left hne
  obtain ⟨pre', post', heq⟩ := List.append_of_mem hrest
  rw [heq] at hfirst
  have hsecond : (a :: (pre' ++ b :: post')).Perm (a :: b :: (pre' ++ post')) :=
    List.perm_middle.cons a
  have hlast : ∀ c d : α, (c :: d :: (pre' ++ post')).Perm (pre' ++ post' ++ [c] ++ [d]) := by
    intro c d
    rw [List.append_assoc _ [c]]
    exact (List.perm_append_comm : ([c, d] ++ (pre' ++ post')).Perm _)
  have hperm := hfirst.trans hsecond
  exact ⟨pre' ++ post', hperm.trans (hlast a b), (hperm.trans (.swap b a _)).trans (hlast b a)⟩

/-- A contested setting is what the last of its two sources gives. -/
theorem exists_reorders_of_contested {key : String} (hu : u.Distinct) (hp : r.patchOf u = .ok p)
    (hkey : Contested u key) :
    ∃ v w q q', u.Reorders v ∧ u.Reorders w ∧ r.patchOf v = .ok q ∧ r.patchOf w = .ok q' ∧
      q.config.find? key ≠ q'.config.find? key := by
  obtain ⟨hsetting, fields, a, b, hconfig, hin, hown, hab⟩ := hkey
  have hne : (key, b) ≠ ("config", Value.record fields) := by
    rintro ⟨⟩
    exact hsetting (by decide)
  obtain ⟨rest, hv, hw⟩ := exists_perm_concat hconfig hown hne
  obtain ⟨q, hq⟩ := (exists_patchOf_reorders hu (.of_perm hv)).mp ⟨p, hp⟩
  obtain ⟨q', hq'⟩ := (exists_patchOf_reorders hu (.of_perm hw)).mp ⟨p, hp⟩
  have hnodup := hu.config fields hconfig
  have hb : q.config.find? key = some b :=
    find?_patchOf_concat (.setting b hsetting) (by simp [Table.find?_cons]) hq
  have ha : q'.config.find? key = some a := by
    refine find?_patchOf_concat (.config fields) ?_ hq'
    exact (Table.find?_ofList hnodup key).trans ((Table.find?_eq_some_iff hnodup).mpr hin)
  refine ⟨_, _, q, q', .of_perm hv, .of_perm hw, hq, hq', ?_⟩
  rw [hb, ha]
  exact fun h => hab (Option.some.inj h).symm

/-- The order in which the fields of an update are read decides neither whether it is accepted nor
any part of its patch but the contested settings, and it does decide these. -/
theorem patchOf_reordered (r : Request) {u : Record} (hu : u.Distinct) :
    (∀ v, u.Reorders v → ((∃ p, r.patchOf u = .ok p) ↔ ∃ q, r.patchOf v = .ok q)) ∧
      (∀ v p q, u.Reorders v → r.patchOf u = .ok p → r.patchOf v = .ok q →
        { p with config := [] } = { q with config := [] } ∧
          ∀ key, ¬Contested u key → p.config.find? key = q.config.find? key) ∧
      ((∀ v, u.Reorders v → (r.patchOf v).toOption = (r.patchOf u).toOption) ↔
        ∀ p key, r.patchOf u = .ok p → ¬Contested u key) := by
  refine ⟨fun v h => exists_patchOf_reorders hu h,
    fun v p q h hp hq => patchOf_eq_apart hu h hp hq, ?_, ?_⟩
  · intro hsame p key hp hkey
    obtain ⟨v, w, q, q', hv, hw, hq, hq', hne⟩ := exists_reorders_of_contested hu hp hkey
    have heq := (hsame v hv).trans (hsame w hw).symm
    rw [hq, hq'] at heq
    exact hne (congrArg (fun p => p.config.find? key) (Option.some.inj heq))
  · intro hcalm v h
    cases hp : r.patchOf u with
    | ok p =>
      obtain ⟨q, hq⟩ := (exists_patchOf_reorders hu h).mp ⟨p, hp⟩
      obtain ⟨happart, hsettings⟩ := patchOf_eq_apart hu h hp hq
      have hconfig : p.config = q.config :=
        (patchOf_sorted hp).ext (patchOf_sorted hq) fun key => hsettings key (hcalm p key hp)
      rw [hq, StepPatch.eq_of_apart happart hconfig]
    | error refusal =>
      cases hq : r.patchOf v with
      | error _ => rfl
      | ok q =>
        obtain ⟨p, hp'⟩ := (exists_patchOf_reorders hu h).mpr ⟨q, hq⟩
        rw [hp] at hp'
        cases hp'

/-- An update that gives one setting on its own and another in `config` may be read in any order. -/
theorem patchOf_reordered_settings :
    let u : Record := [("title", .text "Approval"),
      ("config", .record [("prompt", .text "totals")]), ("instructions", .text "be quick")]
    u.Distinct ∧ ∀ v, u.Reorders v → (patchOf {} v).toOption = (patchOf {} u).toOption := by
  intro u
  have hconfig : ("config", Value.record [("prompt", .text "totals")]) ∈ u := by simp [u]
  have hu : u.Distinct := .of_config (by decide) hconfig (by decide)
  refine ⟨hu, (patchOf_reordered {} hu).2.2.mpr ?_⟩
  rintro p key - ⟨-, fields, a, b, hconfig', hin, hown, -⟩
  cases List.inj_on_of_nodup_map hu.names hconfig hconfig' rfl
  cases List.mem_singleton.mp hin
  simp [u] at hown

/-- An update that gives one setting twice depends on the order. -/
theorem patchOf_disputed :
    ¬∀ (r : Request) (u v : Record), u.Distinct → u.Reorders v →
      (r.patchOf v).toOption = (r.patchOf u).toOption := by
  intro h
  let inner : String × Value := ("config", .record [("prompt", .text "totals")])
  let outer : String × Value := ("prompt", .text "dates")
  have hu : Record.Distinct [inner, outer] :=
    .of_config (by decide) List.mem_cons_self (by decide)
  have hsame := h {} [inner, outer] [outer, inner] hu (.of_perm (.swap _ _ _))
  have hfirst : patchOf {} [inner, outer] = .ok { config := [("prompt", .text "dates")] } := rfl
  have hlast : patchOf {} [outer, inner] = .ok { config := [("prompt", .text "totals")] } := rfl
  rw [hfirst, hlast] at hsame
  simp [Except.toOption] at hsame

end Document.Request

end Workflow
