import Workflow.Proofs.Comparisons

namespace Workflow

open Text (normal)

namespace Text

/-- A text that neither starts nor ends with a blank is trimmed already. -/
theorem trimChars_eq_self {cs : List Char} (hfirst : ∀ c, cs.head? = some c → isBlank c = false)
    (hlast : ∀ c, cs.getLast? = some c → isBlank c = false) : trimChars cs = cs := by
  have hfront : ∀ ds : List Char, (∀ c, ds.head? = some c → isBlank c = false) →
      ds.dropWhile isBlank = ds := by
    intro ds h
    cases ds with
    | nil => rfl
    | cons d rest => exact List.dropWhile_cons_of_neg (by simp [h d rfl])
  have hback := hfront cs.reverse (by simpa using hlast)
  unfold trimChars
  rw [hfront cs hfirst, hback, List.reverse_reverse]

theorem cut_append {sep : Char} {front : List Char} (h : sep ∉ front) (s : String) :
    cut sep (String.ofList (front ++ [sep]) ++ s) = (String.ofList front, some s) := by
  have hne : ∀ c ∈ front, (c != sep) = true := by
    intro c hc
    simp only [bne_iff_ne]
    exact fun heq => h (heq ▸ hc)
  have hlist : (String.ofList (front ++ [sep]) ++ s).toList = front ++ sep :: s.toList := by simp
  unfold cut
  rw [hlist, List.dropWhile_append_of_pos hne, List.takeWhile_append_of_pos hne]
  simp

end Text

def fieldToken (path : String) : String :=
  "\x7bresult." ++ path ++ "\x7d"

namespace Situation

variable {path : String}

/-- Blanks inside the braces are taken off, so a name that ends in one cannot be written. -/
theorem braced?_fieldToken (h : ∀ c, path.toList.getLast? = some c → Text.isBlank c = false) :
    braced? (Text.trim (fieldToken path)) =
      some (String.ofList ("result".toList ++ ['.']) ++ path) := by
  have hchars : (fieldToken path).toList =
      '\x7b' :: (("result".toList ++ ['.'] ++ path.toList) ++ ['\x7d']) := by
    simp [fieldToken]
  have houter : Text.trimChars (fieldToken path).toList = (fieldToken path).toList := by
    rw [hchars]
    refine Text.trimChars_eq_self (fun c hc => ?_) fun c hc => ?_
    · cases hc
      rfl
    · rw [← List.cons_append, List.getLast?_concat] at hc
      cases hc
      rfl
  have hinner : Text.trimChars ("result".toList ++ ['.'] ++ path.toList) =
      "result".toList ++ ['.'] ++ path.toList := by
    refine Text.trimChars_eq_self (fun c hc => ?_) fun c hc => ?_
    · cases hc
      rfl
    · rw [List.getLast?_append] at hc
      cases hpath : path.toList.getLast? with
      | none =>
        rw [hpath] at hc
        cases hc
        rfl
      | some d =>
        rw [hpath] at hc
        exact h c (hpath.trans hc)
  rw [Text.trim, houter, String.ofList_toList]
  unfold braced?
  rw [hchars]
  simp only [List.getLast?_concat, List.dropLast_concat, if_pos]
  rw [Text.trim, String.toList_ofList, hinner]
  exact congrArg some (String.toList_inj.mp (by simp))

theorem reads?_fieldToken (h : ∀ c, path.toList.getLast? = some c → Text.isBlank c = false)
    (s : Situation) (bare : Bool) :
    s.reads? bare (fieldToken path) = some (.submission, Record.names path) := by
  unfold reads?
  rw [braced?_fieldToken h]
  simp only [Source.ofToken?, Text.cut_append (show '.' ∉ "result".toList by decide),
    String.ofList_toList, Option.getD_some]

end Situation

/-- The items that come back from a list that was joined and split. -/
def listed (items : List String) : List String :=
  match items.dropWhile fun item => item == "" with
  | [] => [""]
  | item :: rest => item :: rest

theorem listed_ne_nil (items : List String) : listed items ≠ [] := by
  unfold listed
  split <;> simp

theorem mem_of_mem_listed {items : List String} {item : String} (h : item ∈ listed items)
    (hne : items ≠ []) : item ∈ items := by
  unfold listed at h
  split at h
  · rename_i hdrop
    obtain ⟨first, rest, rfl⟩ := List.exists_cons_of_ne_nil hne
    have hfirst := List.dropWhile_eq_nil_iff.mp hdrop first List.mem_cons_self
    rw [List.mem_singleton.mp h, ← beq_iff_eq.mp hfirst]
    exact List.mem_cons_self
  · rename_i first rest hdrop
    rw [← hdrop] at h
    exact (List.dropWhile_sublist _).subset h

theorem mem_listed {items : List String} {item : String} (h : item ∈ items) (hne : item ≠ "") :
    item ∈ listed items := by
  rw [← List.takeWhile_append_dropWhile (p := fun item => item == "") (l := items),
    List.mem_append] at h
  have hdrop := h.resolve_left fun htake =>
    hne (beq_iff_eq.mp (List.mem_takeWhile_imp (p := fun item => item == "") htake))
  unfold listed
  split
  · rename_i hnil
    rw [hnil] at hdrop
    cases hdrop
  · rename_i first rest hcons
    exact hcons ▸ hdrop

/-- Behind an item that can be seen, all items are joined by commas. -/
theorem showItemsWith_texts (print : Record → Option String) {joined : String} (h : joined ≠ "")
    (items : List String) :
    Value.showItemsWith print joined (items.map .text) = ",".intercalate (joined :: items) := by
  induction items generalizing joined with
  | nil => simp [Value.showItemsWith]
  | cons item rest ih =>
    have hjoined : joinItem joined item = joined ++ "," ++ item := by rw [joinItem, if_neg h]
    have hne : joined ++ "," ++ item ≠ "" := by
      rw [← String.toList_inj.ne]
      simp
    rw [List.map_cons, Value.showItemsWith, Value.showWith, hjoined, ih hne,
      String.intercalate_cons_cons]
    cases rest with
    | nil => simp
    | cons next rest => simp only [String.intercalate_cons_cons, String.append_assoc]

/-- Nothing is put between the empty items at the front and what follows them. -/
theorem showWith_texts (print : Record → Option String) (items : List String) :
    (Value.list (items.map .text)).showWith print = ",".intercalate (listed items) := by
  rw [Value.showWith]
  unfold listed
  induction items with
  | nil => simp [Value.showItemsWith]
  | cons item rest ih =>
    rw [List.map_cons, Value.showItemsWith, Value.showWith, joinItem, if_pos rfl,
      String.empty_append]
    by_cases h : item = ""
    · subst h
      rw [List.dropWhile_cons_of_pos (by simp)]
      exact ih
    · rw [List.dropWhile_cons_of_neg (by simpa using h)]
      exact showItemsWith_texts print h rest

theorem split_showWith_texts (print : Record → Option String) {items : List String}
    (h : ∀ item ∈ items, ',' ∉ item.toList) :
    Text.split ',' ((Value.list (items.map .text)).showWith print) = listed items := by
  rw [showWith_texts, Text.split_intercalate (listed_ne_nil items)]
  intro item hitem
  by_cases hnil : items = []
  · subst hnil
    rw [List.mem_singleton.mp hitem]
    exact List.not_mem_nil
  · exact h item (mem_of_mem_listed hitem hnil)

/-- Lists in which a blank text is not found, although an empty one is an item, or the other way
around: the empty list, and a list with empty items at its front only and others behind them. -/
def Hides (items : List String) : Prop :=
  items = [] ∨ "" ∈ items ∧ "" ∉ (listed items).map normal

instance (items : List String) : Decidable (Hides items) :=
  inferInstanceAs (Decidable (items = [] ∨ "" ∈ items ∧ "" ∉ (listed items).map normal))

/-- The same texts are found before and after, but for blank ones in lists that hide them. -/
theorem listed_agrees_iff (items : List String) (text : String) :
    (text ∈ (listed items).map normal ↔ text ∈ items.map normal) ↔
      ¬ (text = "" ∧ Hides items) := by
  by_cases hnil : items = []
  · subst hnil
    have hempty : normal "" = "" := rfl
    simp [listed, Hides, hempty]
  have hback : text ∈ (listed items).map normal → text ∈ items.map normal := by
    intro h
    obtain ⟨item, hitem, rfl⟩ := List.mem_map.mp h
    exact List.mem_map_of_mem (mem_of_mem_listed hitem hnil)
  have hfront : text ∈ items.map normal →
      text ∈ (listed items).map normal ∨ text = "" ∧ "" ∈ items := by
    intro h
    obtain ⟨item, hitem, rfl⟩ := List.mem_map.mp h
    by_cases hempty : item = ""
    · subst hempty
      exact .inr ⟨rfl, hitem⟩
    · exact .inl (List.mem_map_of_mem (mem_listed hitem hempty))
  constructor
  · rintro hagree ⟨rfl, hhides⟩
    obtain ⟨hin, hlost⟩ := hhides.resolve_left hnil
    exact hlost (hagree.mpr (List.mem_map.mpr ⟨"", hin, rfl⟩))
  · intro hfound
    refine ⟨hback, fun h => ?_⟩
    rcases hfront h with hlisted | ⟨rfl, hin⟩
    · exact hlisted
    · by_contra hlost
      exact hfound ⟨rfl, .inr ⟨hin, hlost⟩⟩

namespace Situation

/-- The items of a submitted list as a condition sees them. -/
theorem isAmong_field {s : Situation} {path : String} {items : List String}
    (hfield : s.result.lookup path = some (.list (items.map .text)))
    (hend : ∀ c, path.toList.getLast? = some c → Text.isBlank c = false)
    (hcomma : ∀ item ∈ items, ',' ∉ item.toList) (text : String) :
    isAmong text (s.operand false (fieldToken path)) = true ↔
      normal text ∈ (listed items).map normal := by
  have hshown : s.operand false (fieldToken path) =
      (Value.list (items.map .text)).showWith Record.print? := by
    rw [operand, operandWith_eq, reads?_fieldToken hend]
    rw [Record.lookup_eq] at hfield
    simp only [data, Record.shown, hfield]
  rw [isAmong_iff, hshown, split_showWith_texts _ hcomma]

/-- Membership in a submitted list of texts without commas: what is found in the list is what is
found among the items that come back from it. That is the same as membership in the list itself,
except for blank texts and lists that hide them. -/
theorem member_of_listed {s : Situation} {path : String} {items : List String}
    (hfield : s.result.lookup path = some (.list (items.map .text)))
    (hend : ∀ c, path.toList.getLast? = some c → Text.isBlank c = false)
    (hcomma : ∀ item ∈ items, ',' ∉ item.toList) (left : String) :
    let sought := normal (s.operand true left)
    (s.clause ⟨.isIn, left, fieldToken path⟩ = true ↔
        sought ∈ (listed items).map normal) ∧
    s.clause ⟨.notIn, left, fieldToken path⟩ = !s.clause ⟨.isIn, left, fieldToken path⟩ ∧
    ((s.clause ⟨.isIn, left, fieldToken path⟩ = true ↔
        ∃ item ∈ items, normal item = sought) ↔
      ¬ (sought = "" ∧ Hides items)) := by
  intro sought
  have hlisted : s.clause ⟨.isIn, left, fieldToken path⟩ = true ↔
      sought ∈ (listed items).map normal := by
    simp only [clause_eq, compare, left_eq, right_eq]
    exact isAmong_field hfield hend hcomma _
  refine ⟨hlisted, ?_, ?_⟩
  · simp only [clause_eq, compare, left_eq, right_eq]
  · rw [hlisted, ← List.mem_map, listed_agrees_iff]

def offering (answer : String) (items : List String) : Situation :=
  ⟨[("allowed", .list (items.map .text)), ("answer", .text answer)],
    { id := "run", flowId := "flow" }⟩

theorem member_of_listed_answer :
    (offering " YES" ["", "no", "Yes"]).clause ⟨.isIn, "answer", fieldToken "allowed"⟩ =
        true ∧
      (offering " YES" ["", "no", "Yes"]).clause ⟨.notIn, "answer", fieldToken "allowed"⟩ =
        false := by
  have hend : ∀ c, "allowed".toList.getLast? = some c → Text.isBlank c = false := by
    intro c hc
    cases (show some 'd' = some c from hc)
    rfl
  obtain ⟨hlisted, hnot, -⟩ := @member_of_listed (offering " YES" ["", "no", "Yes"]) "allowed"
    ["", "no", "Yes"] rfl hend (by decide) "answer"
  have hin := hlisted.mpr (by decide)
  exact ⟨hin, by rw [hnot, hin]; rfl⟩

/-- An empty answer is not found although the list starts with an empty item, and it is found in the
empty list. -/
theorem blank_member_lost :
    let c : Clause := ⟨.isIn, fieldToken "answer", fieldToken "allowed"⟩
    ((offering "" ["", "yes"]).operand true c.left = "" ∧
      (offering "" ["", "yes"]).clause c = false) ∧
    ((offering "" []).operand true c.left = "" ∧ (offering "" []).clause c = true) := by
  decide

end Situation

end Workflow
