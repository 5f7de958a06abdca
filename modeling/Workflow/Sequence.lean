namespace Workflow.Sequence

/-- Changes the first element that satisfies `p`; without one the list stays as it is. -/
def modifyFirst {α : Type} (p : α → Bool) (f : α → α) : List α → List α
  | [] => []
  | a :: rest => if p a then f a :: rest else a :: modifyFirst p f rest

def dropFirst {α : Type} (p : α → Bool) : List α → List α
  | [] => []
  | a :: rest => if p a then rest else a :: dropFirst p rest

@[simp] theorem length_modifyFirst {α : Type} (p : α → Bool) (f : α → α) (as : List α) :
    (modifyFirst p f as).length = as.length := by
  induction as with
  | nil => rfl
  | cons a rest ih => by_cases h : p a <;> simp [modifyFirst, h, ih]

/-- An element that was changed, and is still the first to be meant, is changed again. -/
theorem modifyFirst_modifyFirst {α : Type} {p : α → Bool} {f : α → α}
    (h : ∀ a, p a → p (f a))
    (g : α → α) (as : List α) :
    modifyFirst p g (modifyFirst p f as) = modifyFirst p (fun a => g (f a)) as := by
  induction as with
  | nil => rfl
  | cons a rest ih => by_cases ha : p a <;> simp [modifyFirst, ha, h, ih]

theorem modifyFirst_eq_self {α : Type} {p : α → Bool} {f : α → α} {as : List α}
    (h : ∀ a, as.find? p = some a → f a = a) : modifyFirst p f as = as := by
  induction as with
  | nil => rfl
  | cons b rest ih =>
    by_cases hb : p b
    · rw [modifyFirst, if_pos hb, h b (List.find?_cons_of_pos hb)]
    · rw [modifyFirst, if_neg hb,
        ih fun a ha => h a ((List.find?_cons_of_neg hb).trans ha)]

/-- The element that is changed is the one that a search finds. -/
theorem modifyFirst_of_find? {α : Type} {p : α → Bool} {as : List α} {a : α}
    (h : as.find? p = some a) (f : α → α) :
    ∃ pre post, as = pre ++ a :: post ∧ modifyFirst p f as = pre ++ f a :: post := by
  induction as with
  | nil => cases h
  | cons b rest ih =>
    rw [List.find?_cons] at h
    cases hb : p b with
    | true =>
      simp only [hb, Option.some.injEq] at h
      subst h
      exact ⟨[], rest, rfl, by simp [modifyFirst, hb]⟩
    | false =>
      simp only [hb] at h
      obtain ⟨pre, post, hrest, hmodify⟩ := ih h
      exact ⟨b :: pre, post, by rw [hrest, List.cons_append], by
        simp [modifyFirst, hb, hmodify]⟩

/-- An element that is changed is the first that is meant; all others stay. -/
theorem getElem?_modifyFirst {α : Type} {p : α → Bool} {as : List α} {i : Nat} {a : α}
    (h : as[i]? = some a) (f : α → α) :
    (modifyFirst p f as)[i]? = some a ∨
      as.find? p = some a ∧ (modifyFirst p f as)[i]? = some (f a) := by
  induction as generalizing i with
  | nil => simp at h
  | cons b rest ih =>
    by_cases hb : p b = true
    · cases i with
      | zero =>
        obtain rfl : b = a := by simpa using h
        exact .inr ⟨by simp [hb], by simp [modifyFirst, hb]⟩
      | succ i => exact .inl (by simpa [modifyFirst, hb] using h)
    · cases i with
      | zero => exact .inl (by simpa [modifyFirst, hb] using h)
      | succ i => simpa [modifyFirst, hb, List.find?_cons] using ih (by simpa using h)

/-- So is the one that is dropped. -/
theorem dropFirst_of_find? {α : Type} {p : α → Bool} {as : List α} {a : α}
    (h : as.find? p = some a) :
    ∃ pre post, as = pre ++ a :: post ∧ dropFirst p as = pre ++ post := by
  induction as with
  | nil => cases h
  | cons b rest ih =>
    rw [List.find?_cons] at h
    cases hb : p b with
    | true =>
      simp only [hb, Option.some.injEq] at h
      subst h
      exact ⟨[], rest, rfl, by simp [dropFirst, hb]⟩
    | false =>
      simp only [hb] at h
      obtain ⟨pre, post, hrest, hdrop⟩ := ih h
      exact ⟨b :: pre, post, by rw [hrest, List.cons_append], by simp [dropFirst, hb, hdrop]⟩

/-- Changing the first element that is meant puts another in its place. -/
theorem modifyFirst_eq_set {α : Type} {p : α → Bool} {as : List α} {a : α}
    (h : as.find? p = some a) (f : α → α) :
    ∃ i : Nat, as[i]? = some a ∧ modifyFirst p f as = as.set i (f a) := by
  obtain ⟨pre, post, has, hmodify⟩ := modifyFirst_of_find? h f
  exact ⟨pre.length, by simp [has], by rw [hmodify, has]; simp⟩

/-- What is found stays so when another element is put in the place of one that is not meant. -/
theorem find?_set {α : Type} {p : α → Bool} {as : List α} {a b c : α} {i : Nat}
    (hc : as.find? p = some c) (ha : as[i]? = some a) (hb : p b = p a) (hne : a ≠ c) :
    (as.set i b).find? p = some c := by
  induction as generalizing i with
  | nil => cases hc
  | cons d rest ih =>
    cases hd : p d with
    | true =>
      obtain rfl : d = c := by simpa [hd] using hc
      cases i with
      | zero => exact absurd (by simpa using ha.symm) hne
      | succ i => simp [hd]
    | false =>
      have hrest : rest.find? p = some c := by simpa [hd] using hc
      cases i with
      | zero =>
        obtain rfl : d = a := by simpa using ha
        simpa [hb, hd] using hrest
      | succ i => simpa [hd] using ih hrest (by simpa using ha)

theorem split_of_getElem? {α : Type} {as : List α} {i : Nat} {a : α} (h : as[i]? = some a) :
    ∃ pre post, as = pre ++ a :: post ∧ ∀ b, as.set i b = pre ++ b :: post := by
  induction as generalizing i with
  | nil => simp at h
  | cons c rest ih =>
    cases i with
    | zero =>
      obtain rfl : c = a := by simpa using h
      exact ⟨[], rest, rfl, fun _ => rfl⟩
    | succ i =>
      obtain ⟨pre, post, hrest, hset⟩ := ih (by simpa using h)
      exact ⟨c :: pre, post, by rw [hrest, List.cons_append], fun b => by
        rw [List.set_cons_succ, hset, List.cons_append]⟩

/-- Changing the first element that is meant, in a list and in its image. -/
theorem map_modifyFirst {α : Type} {p : α → Bool} {c : α → α} (hp : ∀ a, p (c a) = p a)
    (hc : ∀ a, c (c a) = c a) {a a' : α} (ha : c a' = c a) (as : List α) :
    (modifyFirst p (fun _ => a') (as.map c)).map c = (modifyFirst p (fun _ => a) as).map c := by
  induction as with
  | nil => rfl
  | cons b rest ih =>
    have hrest : (rest.map c).map c = rest.map c := by simp [Function.comp_def, hc]
    cases hb : p b <;> simp [modifyFirst, hp, hb, ha, hc, ih, -List.map_map, hrest]

theorem map_dropFirst {α β : Type} {p : α → Bool} {q : β → Bool} {c : α → β}
    (hp : ∀ a, q (c a) = p a) (as : List α) :
    dropFirst q (as.map c) = (dropFirst p as).map c := by
  induction as with
  | nil => rfl
  | cons b rest ih => cases hb : p b <;> simp [dropFirst, hp, hb, ih]

end Workflow.Sequence
