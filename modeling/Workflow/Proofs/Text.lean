import Mathlib.Data.List.TakeWhile
import Mathlib.Data.String.Basic
import Workflow.Text

namespace Workflow.Text

theorem eq_iff_toNat {c d : Char} : c = d ↔ c.toNat = d.toNat :=
  ⟨congrArg Char.toNat, fun h => Char.ext (UInt32.toNat_inj.mp h)⟩

theorem isBlank_iff {c : Char} :
    isBlank c = true ↔ c.toNat = 32 ∨ 9 ≤ c.toNat ∧ c.toNat ≤ 13 := by
  simp [isBlank, eq_iff_toNat]

/-- Only capitals are lowered, each by the same distance. -/
theorem toLower_eq_or (c : Char) :
    c.toLower = c ∨ 65 ≤ c.toNat ∧ c.toNat ≤ 90 ∧ c.toLower.toNat = c.toNat + 32 := by
  unfold Char.toLower
  split
  · rename_i h
    have hlow : 65 ≤ c.toNat := h.1
    have hhigh : c.toNat ≤ 90 := h.2
    refine .inr ⟨hlow, hhigh, ?_⟩
    change (c.val + 32).toNat = c.toNat + 32
    rw [UInt32.toNat_add]
    exact Nat.mod_eq_of_lt (by change c.toNat + 32 < _; omega)
  · exact .inl rfl

@[simp] theorem isBlank_toLower (c : Char) : isBlank c.toLower = isBlank c := by
  rcases toLower_eq_or c with h | ⟨hlow, hhigh, hlower⟩
  · rw [h]
  · rw [Bool.eq_iff_iff, isBlank_iff, isBlank_iff]
    omega

@[simp] theorem toLower_toLower (c : Char) : c.toLower.toLower = c.toLower := by
  rcases toLower_eq_or c with h | ⟨hlow, hhigh, hlower⟩
  · rw [h, h]
  · rcases toLower_eq_or c.toLower with h | ⟨-, hhigh', -⟩
    · exact h
    · omega

/-- No capital becomes a comma. -/
theorem toLower_eq_comma_iff (c : Char) : c.toLower = ',' ↔ c = ',' := by
  rcases toLower_eq_or c with h | ⟨hlow, hhigh, hlower⟩
  · rw [h]
  · rw [eq_iff_toNat, eq_iff_toNat, hlower]
    change c.toNat + 32 = 44 ↔ c.toNat = 44
    omega

variable {cs bs : List Char}

theorem trimChars_append_left (h : ∀ c ∈ bs, isBlank c = true) (cs : List Char) :
    trimChars (bs ++ cs) = trimChars cs := by
  unfold trimChars
  rw [List.dropWhile_append_of_pos h]

theorem trimChars_append_right (h : ∀ c ∈ bs, isBlank c = true) (cs : List Char) :
    trimChars (cs ++ bs) = trimChars cs := by
  have hback : ∀ ds : List Char, ((ds ++ bs).reverse.dropWhile isBlank) =
      ds.reverse.dropWhile isBlank := by
    intro ds
    rw [List.reverse_append, List.dropWhile_append_of_pos (by simpa using h)]
  unfold trimChars
  rw [List.dropWhile_append]
  split
  · rename_i hnil
    rw [List.dropWhile_eq_nil_iff.mpr h, List.isEmpty_iff.mp hnil]
  · rw [hback]

/-- A text is its trimmed form between blanks. -/
theorem exists_trimChars (cs : List Char) :
    ∃ before after, cs = before ++ trimChars cs ++ after ∧
    (∀ c ∈ before, isBlank c = true) ∧ ∀ c ∈ after, isBlank c = true := by
  refine ⟨cs.takeWhile isBlank, ((cs.dropWhile isBlank).reverse.takeWhile isBlank).reverse, ?_,
    fun c => List.mem_takeWhile_imp, fun c hc => ?_⟩
  · rw [List.append_assoc, trimChars, ← List.reverse_append, List.takeWhile_append_dropWhile,
      List.reverse_reverse, List.takeWhile_append_dropWhile]
  · exact List.mem_takeWhile_imp (List.mem_reverse.mp hc)

@[simp] theorem trimChars_trimChars (cs : List Char) : trimChars (trimChars cs) = trimChars cs := by
  obtain ⟨before, after, hcs, hbefore, hafter⟩ := exists_trimChars cs
  have htrim : trimChars (before ++ trimChars cs ++ after) = trimChars (trimChars cs) := by
    rw [trimChars_append_right hafter, trimChars_append_left hbefore]
  rw [← htrim, ← hcs]

theorem trimChars_map_toLower (cs : List Char) :
    trimChars (cs.map Char.toLower) = (trimChars cs).map Char.toLower := by
  have hblank : isBlank ∘ Char.toLower = isBlank := funext isBlank_toLower
  simp only [trimChars, List.dropWhile_map, ← List.map_reverse, hblank]

def normalChars (cs : List Char) : List Char :=
  (trimChars cs).map Char.toLower

@[simp] theorem toList_normal (s : String) : (normal s).toList = normalChars s.toList := by
  simp [normal, lower, trim, normalChars]

theorem normal_ofList (cs : List Char) :
    normal (String.ofList cs) = String.ofList (normalChars cs) := by
  rw [← String.toList_inj]
  simp

/-- A text is blank just when nothing is left of it in normal form. -/
theorem trim_eq_empty_iff (s : String) : trim s = "" ↔ normal s = "" := by
  rw [← String.toList_inj, ← String.toList_inj, toList_normal]
  simp [trim, normalChars]

theorem splitChars_eq_splitOn (sep : Char) (cs : List Char) :
    splitChars sep cs = cs.splitOn sep := by
  induction cs with
  | nil => rfl
  | cons c rest ih =>
    rw [List.splitOn_cons_eq_if_modifyHead]
    unfold splitChars
    by_cases h : c = sep
    · simp [h, ih]
    · rw [if_neg h, if_neg (by simpa using h), ← ih]
      cases hrest : splitChars sep rest with
      | nil => exact absurd hrest (splitChars_ne_nil sep rest)
      | cons piece pieces => rfl

/-- What stands in front of the first separator belongs to the first piece. -/
theorem splitOn_append_of_not_mem {sep : Char} (h : sep ∉ bs) (cs : List Char) :
    (bs ++ cs).splitOn sep = (cs.splitOn sep).modifyHead (bs ++ ·) := by
  induction bs with
  | nil =>
    rw [List.nil_append]
    cases cs.splitOn sep <;> rfl
  | cons b rest ih =>
    rw [List.mem_cons, not_or] at h
    rw [List.cons_append, List.splitOn_cons_eq_if_modifyHead, if_neg (by simpa using Ne.symm h.1),
      ih h.2, List.modifyHead_modifyHead]
    rfl

/-- The pieces of a text are also those of all longer ones, but for the last, which may go on. -/
theorem exists_splitOn_append (sep : Char) (as : List Char) : ∃ (pieces : List (List Char))
    (last : List Char), ∀ cs, (as ++ cs).splitOn sep =
      pieces ++ (cs.splitOn sep).modifyHead (last ++ ·) := by
  induction as with
  | nil =>
    refine ⟨[], [], fun cs => ?_⟩
    rw [List.nil_append]
    cases cs.splitOn sep <;> rfl
  | cons a rest ih =>
    obtain ⟨pieces, last, h⟩ := ih
    by_cases ha : a = sep
    · refine ⟨[] :: pieces, last, fun cs => ?_⟩
      rw [List.cons_append, List.splitOn_cons_eq_if_modifyHead, if_pos (by simpa using ha), h,
        List.cons_append]
    · have hsplit : ∀ cs, (a :: rest ++ cs).splitOn sep = (pieces ++
          (cs.splitOn sep).modifyHead (last ++ ·)).modifyHead (a :: ·) := by
        intro cs
        rw [List.cons_append, List.splitOn_cons_eq_if_modifyHead, if_neg (by simpa using ha), h]
      cases pieces with
      | nil =>
        refine ⟨[], a :: last, fun cs => (hsplit cs).trans ?_⟩
        rw [List.nil_append, List.nil_append, List.modifyHead_modifyHead]
        rfl
      | cons piece pieces => exact ⟨(a :: piece) :: pieces, last, hsplit⟩

/-- A text without separators that stands between others is part of one piece, and the other pieces
do not depend on it. -/
theorem exists_splitOn_between (sep : Char) (as bs : List Char) :
    ∃ (before : List (List Char)) (left right : List Char) (after : List (List Char)),
      ∀ cs, sep ∉ cs →
        (as ++ cs ++ bs).splitOn sep = before ++ (left ++ cs ++ right) :: after := by
  obtain ⟨before, left, has⟩ := exists_splitOn_append sep as
  obtain ⟨right, after, hbs⟩ := List.exists_cons_of_ne_nil (List.splitOn_ne_nil sep bs)
  refine ⟨before, left, right, after, fun cs hcs => ?_⟩
  rw [List.append_assoc, has, splitOn_append_of_not_mem hcs, hbs]
  simp

theorem splitOn_map_toLower (cs : List Char) :
    (cs.map Char.toLower).splitOn ',' = (cs.splitOn ',').map (List.map Char.toLower) := by
  induction cs with
  | nil => rfl
  | cons c rest ih =>
    rw [List.map_cons, List.splitOn_cons_eq_if_modifyHead, List.splitOn_cons_eq_if_modifyHead, ih]
    by_cases hc : c = ','
    · simp [hc]
    · have hlower : c.toLower ≠ ',' := mt (toLower_eq_comma_iff c).mp hc
      rw [if_neg (by simpa using hlower), if_neg (by simpa using hc)]
      cases rest.splitOn ',' <;> rfl

theorem isBlank_ne_comma (h : ∀ c ∈ bs, isBlank c = true) : ',' ∉ bs := by
  intro hin
  exact absurd (h _ hin) (by decide)

/-- Trimming a text changes none of its pieces in more than blanks around it. -/
theorem map_trimChars_splitOn (cs : List Char) :
    ((trimChars cs).splitOn ',').map trimChars = (cs.splitOn ',').map trimChars := by
  obtain ⟨before, after, hcs, hbefore, hafter⟩ := exists_trimChars cs
  have hfront : ∀ ds : List Char, ((before ++ ds).splitOn ',').map trimChars =
      (ds.splitOn ',').map trimChars := by
    intro ds
    rw [splitOn_append_of_not_mem (isBlank_ne_comma hbefore)]
    cases ds.splitOn ',' with
    | nil => rfl
    | cons piece pieces => simp [trimChars_append_left hbefore]
  have hback : ∀ ds : List Char, ((ds ++ after).splitOn ',').map trimChars =
      (ds.splitOn ',').map trimChars := by
    intro ds
    obtain ⟨pieces, last, h⟩ := exists_splitOn_append ',' ds
    have hnil := h []
    rw [List.append_nil] at hnil
    rw [h, hnil, List.splitOn_eq_singleton (isBlank_ne_comma hafter), List.splitOn_nil]
    simp [trimChars_append_right hafter]
  calc
    ((trimChars cs).splitOn ',').map trimChars =
        ((before ++ trimChars cs ++ after).splitOn ',').map trimChars := by rw [hback, hfront]
    _ = (cs.splitOn ',').map trimChars := by rw [← hcs]

/-- The normal forms of the items of a list can be read off the normal form of the list. -/
theorem map_normal_split (s : String) :
    (split ',' (normal s)).map normal = (split ',' s).map normal := by
  have hpieces : ∀ cs : List Char, (cs.splitOn ',').map normalChars =
      ((cs.splitOn ',').map trimChars).map (List.map Char.toLower) := by
    intro cs
    rw [List.map_map]
    rfl
  have hlower : ((normalChars s.toList).splitOn ',').map normalChars =
      ((trimChars s.toList).splitOn ',').map normalChars := by
    rw [normalChars, splitOn_map_toLower, List.map_map]
    refine List.map_congr_left fun piece _ => ?_
    simp [normalChars, trimChars_map_toLower]
  have htexts : ∀ t : String, (split ',' t).map normal =
      ((t.toList.splitOn ',').map normalChars).map String.ofList := by
    intro t
    rw [split, splitChars_eq_splitOn, List.map_map, List.map_map]
    exact List.map_congr_left fun piece _ => normal_ofList piece
  rw [htexts, htexts, toList_normal, hlower, hpieces, hpieces, map_trimChars_splitOn]

theorem split_intercalate {items : List String} (hne : items ≠ [])
    (h : ∀ item ∈ items, ',' ∉ item.toList) : split ',' (",".intercalate items) = items := by
  have hcomma : ∀ cs ∈ items.map String.toList, ',' ∉ cs := by
    intro cs hcs
    obtain ⟨item, hitem, rfl⟩ := List.mem_map.mp hcs
    exact h item hitem
  rw [split, splitChars_eq_splitOn, String.toList_intercalate]
  change ((([','] : List Char).intercalate (items.map String.toList)).splitOn ',').map _ = items
  rw [List.splitOn_intercalate ',' hcomma (by simpa using hne), List.map_map]
  simp [Function.comp_def]

/-- What stands around one of the pieces of a joined text does not depend on the piece. -/
theorem exists_intercalate (sep : String) (front back : List String) :
    ∃ before after, ∀ s, sep.intercalate (front ++ s :: back) = before ++ s ++ after := by
  induction front with
  | nil =>
    cases back with
    | nil => exact ⟨"", "", fun s => by simp⟩
    | cons t rest =>
      refine ⟨"", sep ++ sep.intercalate (t :: rest), fun s => ?_⟩
      rw [List.nil_append, String.intercalate_cons_cons, String.append_assoc, String.empty_append]
  | cons t rest ih =>
    obtain ⟨before, after, h⟩ := ih
    refine ⟨t ++ sep ++ before, after, fun s => ?_⟩
    obtain ⟨u, us, hus⟩ := List.exists_cons_of_ne_nil (l := rest ++ s :: back) (by simp)
    rw [List.cons_append, hus, String.intercalate_cons_cons, ← hus, h]
    simp only [String.append_assoc]

theorem intercalate_split (s : String) : ",".intercalate (split ',' s) = s := by
  rw [← String.toList_inj, String.toList_intercalate, split, splitChars_eq_splitOn, List.map_map]
  have hchars : String.toList ∘ String.ofList = id := funext fun _ => String.toList_ofList
  rw [hchars, List.map_id]
  exact List.intercalate_splitOn ','

theorem exists_of_mem_split {item s : String} (h : item ∈ split ',' s) :
    ∃ before after, s = before ++ item ++ after := by
  obtain ⟨front, back, hitems⟩ := List.append_of_mem h
  obtain ⟨before, after, hjoin⟩ := exists_intercalate "," front back
  exact ⟨before, after, by rw [← hjoin, ← hitems, intercalate_split]⟩

theorem not_mem_of_mem_splitOn {sep : Char} {piece : List Char} (h : piece ∈ cs.splitOn sep) :
    sep ∉ piece := by
  induction cs generalizing piece with
  | nil =>
    rw [List.splitOn_nil, List.mem_singleton] at h
    simp [h]
  | cons c rest ih =>
    rw [List.splitOn_cons_eq_if_modifyHead] at h
    split at h
    · rcases List.mem_cons.mp h with rfl | hin
      · exact List.not_mem_nil
      · exact ih hin
    · rename_i hc
      obtain ⟨first, others, hrest⟩ := List.exists_cons_of_ne_nil (List.splitOn_ne_nil sep rest)
      rw [hrest, List.modifyHead_cons, List.mem_cons] at h
      rcases h with rfl | hin
      · have hfirst : sep ∉ first := ih (by rw [hrest]; exact List.mem_cons_self)
        have hne : sep ≠ c := fun heq => hc (by simp [heq])
        simp [hne, hfirst]
      · exact ih (by rw [hrest]; exact List.mem_cons_of_mem _ hin)

theorem comma_mem_normal_iff (s : String) : ',' ∈ (normal s).toList ↔ ',' ∈ s.toList := by
  obtain ⟨before, after, hs, hbefore, hafter⟩ := exists_trimChars s.toList
  have htrim : ',' ∈ s.toList ↔ ',' ∈ trimChars s.toList := by
    conv_lhs => rw [hs]
    simp [isBlank_ne_comma hbefore, isBlank_ne_comma hafter]
  rw [toList_normal, normalChars, htrim, List.mem_map]
  simp [toLower_eq_comma_iff]

/-- How many characters are no blanks. -/
def solid (cs : List Char) : Nat :=
  cs.countP fun c => !isBlank c

@[simp] theorem solid_append (as bs : List Char) : solid (as ++ bs) = solid as + solid bs :=
  List.countP_append

theorem solid_cons (c : Char) (cs : List Char) : solid (c :: cs) = solid [c] + solid cs :=
  solid_append [c] cs

theorem solid_le_of_infix {as bs : List Char} (h : as <:+: bs) : solid as ≤ solid bs :=
  h.sublist.countP_le

@[simp] theorem solid_normal (s : String) : solid (normal s).toList = solid s.toList := by
  obtain ⟨before, after, hs, hbefore, hafter⟩ := exists_trimChars s.toList
  have hnone : ∀ bs : List Char, (∀ c ∈ bs, isBlank c = true) → solid bs = 0 := by
    intro bs h
    exact List.countP_eq_zero.mpr fun c hc => by simp [h c hc]
  have hlower : solid (normal s).toList = solid (trimChars s.toList) := by
    rw [toList_normal, normalChars, solid, List.countP_map]
    simp [solid, Function.comp_def]
  rw [hlower]
  conv_rhs => rw [hs]
  simp [hnone before hbefore, hnone after hafter]

theorem solid_eq_of_normal_eq {s t : String} (h : normal s = normal t) :
    solid s.toList = solid t.toList := by
  rw [← solid_normal s, h, solid_normal]

theorem occurs_iff (needle cs : List Char) : occurs needle cs = true ↔ needle <:+: cs := by
  induction cs with
  | nil => simp [occurs]
  | cons c rest ih =>
    rw [occurs, Bool.or_eq_true, ih, List.isPrefixOf_iff_prefix, List.infix_cons_iff]

theorem solid_le_of_contains {hay needle : String} (h : contains hay needle = true) :
    solid needle.toList ≤ solid hay.toList :=
  solid_le_of_infix ((occurs_iff _ _).mp h)

end Workflow.Text
