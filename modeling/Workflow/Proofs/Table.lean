import Mathlib.Data.List.Nodup
import Mathlib.Data.String.Basic
import Workflow.Table

namespace Workflow.Table

variable {α : Type} {t u entries : Table α} {key : String} {value : α}

def Sorted (t : Table α) : Prop :=
  (t.map Prod.fst).Pairwise (· < ·)

theorem sorted_nil : Sorted ([] : Table α) :=
  List.Pairwise.nil

theorem sorted_cons {k : String} {v : α} :
    Sorted ((k, v) :: t) ↔ (∀ k' ∈ t.map Prod.fst, k < k') ∧ t.Sorted := by
  rw [Sorted, List.map_cons, List.pairwise_cons, Sorted]

theorem Sorted.nodup (h : t.Sorted) : (t.map Prod.fst).Nodup :=
  List.Pairwise.imp (fun hlt => ne_of_lt hlt) h

theorem mem_keys_put {k : String} :
    k ∈ (put key value t).map Prod.fst ↔ k = key ∨ k ∈ t.map Prod.fst := by
  induction t with
  | nil => simp [put]
  | cons entry rest ih =>
    obtain ⟨k', v⟩ := entry
    unfold put
    split
    · rename_i heq
      simp [heq]
    · split
      · simp
      · rw [List.map_cons, List.mem_cons, ih, List.map_cons, List.mem_cons]
        exact or_left_comm

/-- Setting an entry keeps the order of the keys. -/
theorem Sorted.put (h : t.Sorted) (key : String) (value : α) : (Table.put key value t).Sorted := by
  induction t with
  | nil => simp [Table.put, Sorted]
  | cons entry rest ih =>
    obtain ⟨k, v⟩ := entry
    obtain ⟨hall, hrest⟩ := sorted_cons.mp h
    unfold Table.put
    split
    · rename_i heq
      subst heq
      exact sorted_cons.mpr ⟨hall, hrest⟩
    · rename_i hne
      split
      · rename_i hlt
        refine sorted_cons.mpr ⟨?_, h⟩
        intro k' hk'
        rcases List.mem_cons.mp hk' with rfl | hk'
        · exact hlt
        · exact lt_trans hlt (hall k' hk')
      · rename_i hlt
        refine sorted_cons.mpr ⟨?_, ih hrest⟩
        intro k' hk'
        rcases mem_keys_put.mp hk' with rfl | hk'
        · exact lt_of_le_of_ne (not_lt.mp hlt) (Ne.symm hne)
        · exact hall k' hk'

theorem Sorted.overlay (h : t.Sorted) (entries : Table α) : (Table.overlay t entries).Sorted := by
  induction entries generalizing t with
  | nil => exact h
  | cons entry rest ih => exact ih (h.put entry.1 entry.2)

theorem sorted_ofList (entries : Table α) : (ofList entries).Sorted :=
  sorted_nil.overlay entries

theorem find?_put (key : String) (value : α) (t : Table α) (k : String) :
    find? (put key value t) k = if k = key then some value else find? t k := by
  split
  · rename_i heq
    rw [heq, find?_put_self]
  · rename_i hne
    exact find?_put_of_ne hne value t

theorem find?_append (t u : Table α) (key : String) :
    find? (t ++ u) key = (find? t key).or (find? u key) := by
  induction t with
  | nil => rfl
  | cons entry rest ih =>
    obtain ⟨k, v⟩ := entry
    rw [List.cons_append, find?_cons, find?_cons, ih]
    split <;> rfl

/-- Of the entries laid over a table the last one with the key counts. -/
theorem find?_overlay (t entries : Table α) (key : String) :
    find? (overlay t entries) key = (find? entries.reverse key).or (find? t key) := by
  induction entries generalizing t with
  | nil => rfl
  | cons entry rest ih =>
    obtain ⟨k, v⟩ := entry
    have hput := ih (put k v t)
    rw [find?_put] at hput
    rw [List.reverse_cons, find?_append, find?_cons, Option.or_assoc]
    refine hput.trans (congrArg _ ?_)
    split <;> rfl

theorem find?_eq_some_iff (h : (t.map Prod.fst).Nodup) :
    find? t key = some value ↔ (key, value) ∈ t := by
  induction t with
  | nil => simp [find?]
  | cons entry rest ih =>
    obtain ⟨k, v⟩ := entry
    obtain ⟨hk, hrest⟩ := List.nodup_cons.mp h
    rw [find?_cons]
    by_cases heq : key = k
    · subst heq
      have hnot : (key, value) ∉ rest := fun hmem =>
        hk (List.mem_map.mpr ⟨_, hmem, rfl⟩)
      simp [hnot, eq_comm]
    · simp [heq, ih hrest]

/-- Where no key comes twice, it does not matter which entries are looked at first. -/
theorem find?_perm (h : (t.map Prod.fst).Nodup) (hperm : t.Perm u) (key : String) :
    find? t key = find? u key := by
  ext value
  rw [find?_eq_some_iff h, find?_eq_some_iff ((hperm.map Prod.fst).nodup_iff.mp h), hperm.mem_iff]

theorem find?_reverse (h : (t.map Prod.fst).Nodup) (key : String) :
    find? t.reverse key = find? t key :=
  (find?_perm h t.reverse_perm.symm key).symm

theorem find?_ofList (h : (entries.map Prod.fst).Nodup) (key : String) :
    find? (ofList entries) key = find? entries key := by
  rw [ofList, find?_overlay, find?_reverse h]
  exact Option.or_none

/-- Ordered tables are told apart by what they hold. -/
theorem Sorted.ext (ht : t.Sorted) (hu : u.Sorted) (h : ∀ key, find? t key = find? u key) :
    t = u := by
  have hmem : ∀ entry, entry ∈ t ↔ entry ∈ u := by
    intro ⟨key, value⟩
    rw [← find?_eq_some_iff ht.nodup, ← find?_eq_some_iff hu.nodup, h]
  have hperm : t.Perm u :=
    (List.perm_ext_iff_of_nodup (List.Nodup.of_map _ ht.nodup) (List.Nodup.of_map _ hu.nodup)).mpr
      hmem
  refine hperm.eq_of_pairwise ?_ (List.pairwise_map.mp ht) (List.pairwise_map.mp hu)
  intro a b _ _ hab hba
  exact absurd hab (lt_asymm hba)

/-- Putting entries in order before they are laid over a table makes no difference. -/
theorem Sorted.overlay_ofList (h : t.Sorted) (entries : Table α) :
    Table.overlay t (ofList entries) = Table.overlay t entries := by
  refine (h.overlay _).ext (h.overlay _) ?_
  intro key
  rw [find?_overlay, find?_overlay, find?_reverse (sorted_ofList entries).nodup, ofList,
    find?_overlay]
  exact congrArg (Option.or · _) Option.or_none

/-- The last value that is set counts. -/
theorem put_put (key : String) (old new : α) (t : Table α) :
    put key new (put key old t) = put key new t := by
  induction t with
  | nil => simp [put]
  | cons entry rest ih =>
    obtain ⟨k, v⟩ := entry
    by_cases heq : key = k
    · simp [put, heq]
    · by_cases hlt : key < k <;> simp [put, heq, hlt, ih]

/-- Two keys are set in either order, even in a table that is out of order: the lower one is set no
further behind than the higher one. -/
theorem put_comm_of_lt {low high : String} (h : low < high) (a b : α) (t : Table α) :
    put low a (put high b t) = put high b (put low a t) := by
  have hne : low ≠ high := ne_of_lt h
  induction t with
  | nil => simp [put, h, hne, hne.symm, lt_asymm h]
  | cons entry rest ih =>
    obtain ⟨k, v⟩ := entry
    rcases lt_trichotomy low k with hlow | rfl | hlow
    · rcases lt_trichotomy high k with hhigh | rfl | hhigh
      · simp [put, h, hne, hne.symm, lt_asymm h, hlow, ne_of_lt hlow, hhigh, ne_of_lt hhigh]
      · simp [put, h, hne, hne.symm, lt_asymm h]
      · simp [put, hne.symm, lt_asymm h, hlow, ne_of_lt hlow, ne_of_gt hhigh, lt_asymm hhigh]
    · simp [put, hne.symm, lt_asymm h]
    · have hhigh := lt_trans hlow h
      simp [put, ne_of_gt hlow, lt_asymm hlow, ne_of_gt hhigh, lt_asymm hhigh, ih]

theorem put_comm {k k' : String} (h : k ≠ k') (a b : α) (t : Table α) :
    put k a (put k' b t) = put k' b (put k a t) := by
  rcases lt_or_gt_of_ne h with hlt | hlt
  · exact put_comm_of_lt hlt a b t
  · exact (put_comm_of_lt hlt b a t).symm

@[simp] theorem overlay_cons (k : String) (v : α) (entries t : Table α) :
    overlay t ((k, v) :: entries) = overlay (put k v t) entries := rfl

/-- A key that is not laid over a table can be set before or after. -/
theorem put_overlay (h : key ∉ entries.map Prod.fst) (value : α) (t : Table α) :
    put key value (overlay t entries) = overlay (put key value t) entries := by
  induction entries generalizing t with
  | nil => rfl
  | cons entry rest ih =>
    obtain ⟨k, v⟩ := entry
    rw [List.map_cons, List.mem_cons, not_or] at h
    rw [overlay_cons, overlay_cons, ih h.2, put_comm h.1]

/-- Setting one more key of what is laid over a table is setting it afterwards. -/
theorem Sorted.overlay_put (h : entries.Sorted) (key : String) (value : α) (t : Table α) :
    Table.overlay t (Table.put key value entries) =
      Table.put key value (Table.overlay t entries) := by
  induction entries generalizing t with
  | nil => rfl
  | cons entry rest ih =>
    obtain ⟨k, v⟩ := entry
    obtain ⟨hall, hrest⟩ := sorted_cons.mp h
    rcases lt_trichotomy key k with hlt | rfl | hlt
    · have hnot : key ∉ ((k, v) :: rest).map Prod.fst := by
        rw [List.map_cons, List.mem_cons, not_or]
        exact ⟨ne_of_lt hlt, fun hin => lt_asymm hlt (hall key hin)⟩
      have hput : Table.put key value ((k, v) :: rest) = (key, value) :: (k, v) :: rest := by
        simp [Table.put, ne_of_lt hlt, hlt]
      rw [hput, overlay_cons, put_overlay hnot]
    · have hnot : key ∉ rest.map Prod.fst := fun hin => lt_irrefl _ (hall key hin)
      have hput : Table.put key value ((key, v) :: rest) = (key, value) :: rest := by
        simp [Table.put]
      rw [hput, overlay_cons, overlay_cons, put_overlay hnot, put_put]
    · have hput : Table.put key value ((k, v) :: rest) = (k, v) :: Table.put key value rest := by
        simp [Table.put, ne_of_gt hlt, lt_asymm hlt]
      rw [hput, overlay_cons, overlay_cons, ih hrest]

/-- Overlays join: what is laid over last has the last word. -/
theorem Sorted.overlay_overlay (h : entries.Sorted) (t more : Table α) :
    Table.overlay t (Table.overlay entries more) =
      Table.overlay (Table.overlay t entries) more := by
  induction more generalizing entries with
  | nil => rfl
  | cons entry rest ih =>
    have hput := h.overlay_put entry.1 entry.2 t
    exact (ih (h.put entry.1 entry.2)).trans (congrArg (Table.overlay · rest) hput)

theorem Sorted.overlay_self (h : t.Sorted) : Table.overlay t t = t := by
  refine (h.overlay t).ext h ?_
  intro key
  rw [find?_overlay, find?_reverse h.nodup, Option.or_self]

/-- The order in which distinct keys are set does not matter. -/
theorem ofList_perm (h : (t.map Prod.fst).Nodup) (hperm : t.Perm u) : ofList t = ofList u := by
  refine (sorted_ofList t).ext (sorted_ofList u) ?_
  intro key
  rw [find?_ofList h, find?_ofList ((hperm.map Prod.fst).nodup_iff.mp h), find?_perm h hperm]

end Workflow.Table
