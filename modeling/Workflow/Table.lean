namespace Workflow

/-- Entries in the order of their keys, which is the order of the UTF-8 bytes of the keys. -/
abbrev Table (α : Type) := List (String × α)

namespace Table

def find? {α : Type} (t : Table α) (key : String) : Option α :=
  List.lookup key t

def put {α : Type} (key : String) (value : α) : Table α → Table α
  | [] => [(key, value)]
  | (k, v) :: rest =>
    if key = k then (key, value) :: rest
    else if key < k then (key, value) :: (k, v) :: rest
    else (k, v) :: put key value rest

/-- The entries of `updates` laid over `base`, later ones winning. -/
def overlay {α : Type} (base updates : Table α) : Table α :=
  updates.foldl (fun t entry => put entry.1 entry.2 t) base

def ofList {α : Type} (entries : List (String × α)) : Table α :=
  overlay [] entries

theorem find?_cons {α : Type} (key k : String) (v : α) (t : Table α) :
    find? ((k, v) :: t) key = if key = k then some v else find? t key := by
  rw [find?, List.lookup_cons]
  by_cases h : key = k
  · simp [h]
  · have hb : (key == k) = false := by simpa using h
    simp [hb, h, find?]

theorem find?_put_self {α : Type} (key : String) (value : α) (t : Table α) :
    find? (put key value t) key = some value := by
  induction t with
  | nil => simp [put, find?_cons]
  | cons entry rest ih =>
    obtain ⟨k, v⟩ := entry
    unfold put
    split
    · simp [find?_cons]
    · rename_i hne
      split
      · simp [find?_cons]
      · simpa [find?_cons, hne] using ih

theorem find?_put_of_ne {α : Type} {key other : String} (h : other ≠ key) (value : α)
    (t : Table α) :
    find? (put key value t) other = find? t other := by
  induction t with
  | nil => simp [put, find?_cons, h]
  | cons entry rest ih =>
    obtain ⟨k, v⟩ := entry
    unfold put
    split
    · rename_i hk
      subst hk
      simp [find?_cons, h]
    · split
      · simp [find?_cons, h]
      · simp [find?_cons, ih]

end Table

end Workflow
