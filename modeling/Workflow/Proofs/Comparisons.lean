import Workflow.Proofs.Operands

namespace Workflow.Situation

open Text (normal solid)

theorem isAmong_iff (item items : String) :
    isAmong item items = true ↔ normal item ∈ (Text.split ',' items).map normal := by
  rw [isAmong, List.contains_iff_mem]

theorem trim_congr {left right : String} (h : normal left = normal right) :
    (Text.trim left == "") = (Text.trim right == "") := by
  rw [Bool.eq_iff_iff, beq_iff_eq, beq_iff_eq, Text.trim_eq_empty_iff, Text.trim_eq_empty_iff, h]

theorem isAmong_congr {left left' right right' : String} (hleft : normal left = normal left')
    (hright : normal right = normal right') : isAmong left right = isAmong left' right' := by
  rw [isAmong, isAmong, hleft, ← Text.map_normal_split right, hright, Text.map_normal_split]

/-- A comparison that is not of numbers depends on the normal forms of its operands only. -/
theorem compare_congr {op : Comparison} (hgreater : op ≠ .greaterThan) (hless : op ≠ .lessThan)
    {left left' right right' : String} (hleft : normal left = normal left')
    (hright : normal right = normal right') :
    compare op left right = compare op left' right' := by
  cases op with
  | equals => simp only [compare, hleft, hright]
  | notEquals => simp only [compare, hleft, hright]
  | contains => simp only [compare, hleft, hright]
  | notContains => simp only [compare, hleft, hright]
  | greaterThan => exact absurd rfl hgreater
  | lessThan => exact absurd rfl hless
  | isEmpty => simp only [compare, trim_congr hleft]
  | notEmpty => simp only [compare, bne, trim_congr hleft]
  | isIn => simp only [compare, isAmong_congr hleft hright]
  | notIn => simp only [compare, isAmong_congr hleft hright]
  | otherwise => rfl

theorem solid_le_of_isAmong {item items : String} (h : isAmong item items = true) :
    solid item.toList ≤ solid items.toList := by
  obtain ⟨part, hpart, hnormal⟩ := List.mem_map.mp ((isAmong_iff _ _).mp h)
  obtain ⟨before, after, rfl⟩ := Text.exists_of_mem_split hpart
  rw [← Text.solid_eq_of_normal_eq hnormal, String.toList_append, String.toList_append,
    Text.solid_append, Text.solid_append]
  omega

theorem normal_ne_of_solid_lt {left right : String} (h : solid left.toList < solid right.toList) :
    normal left ≠ normal right :=
  fun heq => Nat.ne_of_lt h (Text.solid_eq_of_normal_eq heq)

variable {escape : Char → List Char}

/-- Structured text around a quotation has more characters that are no blanks than the quoted text.
It is therefore not equal to the text, not part of it and not among its items. -/
theorem solid_lt_around (hescape : Json.IsEscape escape) (s before after : String) :
    solid s.toList < solid (before ++ Json.quoteWith escape s ++ after).toList := by
  have hquote := hescape.solid_lt_solid_quoteWith s
  rw [String.toList_append, String.toList_append, Text.solid_append, Text.solid_append]
  omega

theorem comma_not_mem_of_isAmong {item items : String} (h : isAmong item items = true) :
    ',' ∉ item.toList := by
  obtain ⟨part, hpart, hnormal⟩ := List.mem_map.mp ((isAmong_iff _ _).mp h)
  rw [← Text.comma_mem_normal_iff, ← hnormal, Text.comma_mem_normal_iff]
  rw [Text.split, Text.splitChars_eq_splitOn] at hpart
  obtain ⟨piece, hpiece, rfl⟩ := List.mem_map.mp hpart
  rw [String.toList_ofList]
  exact Text.not_mem_of_mem_splitOn hpiece

/-- A text is no item in which it is quoted, and the other items do not depend on it. -/
theorem isAmong_around (hescape : Json.IsEscape escape) {old new : String}
    (h : normal old = normal new) (before after : String) :
    isAmong old (before ++ Json.quoteWith escape old ++ after) =
      isAmong new (before ++ Json.quoteWith escape new ++ after) := by
  have hcomma : ',' ∈ old.toList ↔ ',' ∈ new.toList := by
    rw [← Text.comma_mem_normal_iff, h, Text.comma_mem_normal_iff]
  -- A comma in the text would part the quotation as well, but then the text is no item at all.
  by_cases hin : ',' ∈ old.toList
  · have hold : ¬ isAmong old (before ++ Json.quoteWith escape old ++ after) = true :=
      fun hamong => comma_not_mem_of_isAmong hamong hin
    have hnew : ¬ isAmong new (before ++ Json.quoteWith escape new ++ after) = true :=
      fun hamong => comma_not_mem_of_isAmong hamong (hcomma.mp hin)
    rw [Bool.eq_false_of_not_eq_true hold, Bool.eq_false_of_not_eq_true hnew]
  · obtain ⟨front, left, right, back, hsplit⟩ :=
      Text.exists_splitOn_between ',' before.toList after.toList
    have hothers : ∀ s : String, ',' ∉ s.toList →
        (isAmong s (before ++ Json.quoteWith escape s ++ after) = true ↔
          normal s ∈ (front ++ back).map fun piece => normal (String.ofList piece)) := by
      intro s hs
      have hne : normal s ≠
        normal (String.ofList (left ++ (Json.quoteWith escape s).toList ++ right)) := by
        have hlt := solid_lt_around hescape s (String.ofList left) (String.ofList right)
        refine normal_ne_of_solid_lt ?_
        simpa using hlt
      rw [isAmong_iff, Text.split, Text.splitChars_eq_splitOn, String.toList_append,
        String.toList_append, hsplit _ (hescape.comma_not_mem_quoteWith hs), List.map_map]
      simp only [List.map_append, List.map_cons, List.mem_append, List.mem_cons, Function.comp_def,
        hne, false_or]
    rw [Bool.eq_iff_iff, hothers old hin, hothers new (mt hcomma.mpr hin), h]

/-- On the left side only a search sees what is quoted. -/
theorem compare_around_left (hescape : Json.IsEscape escape) {op : Comparison}
    (hgreater : op ≠ .greaterThan) (hless : op ≠ .lessThan)
    (hsearch : ¬ (op = .contains ∨ op = .notContains)) (old new before after : String) :
    compare op (before ++ Json.quoteWith escape old ++ after) old =
      compare op (before ++ Json.quoteWith escape new ++ after) new := by
  have hequal : ∀ s, (normal (before ++ Json.quoteWith escape s ++ after) == normal s) = false :=
    fun s => beq_false_of_ne (normal_ne_of_solid_lt (solid_lt_around hescape s before after)).symm
  have hempty : ∀ s, (Text.trim (before ++ Json.quoteWith escape s ++ after) == "") = false := by
    intro s
    refine beq_false_of_ne fun htrim => ?_
    have hnone := Text.solid_normal (before ++ Json.quoteWith escape s ++ after)
    rw [(Text.trim_eq_empty_iff _).mp htrim] at hnone
    exact Nat.not_lt_zero _ (Nat.lt_of_lt_of_eq (solid_lt_around hescape s before after) hnone.symm)
  have hamong : ∀ s, isAmong (before ++ Json.quoteWith escape s ++ after) s = false := by
    intro s
    refine Bool.eq_false_of_not_eq_true fun h => ?_
    exact Nat.not_le_of_lt (solid_lt_around hescape s before after) (solid_le_of_isAmong h)
  cases op with
  | equals => simp only [compare, hequal]
  | notEquals => simp only [compare, bne, hequal]
  | contains => exact absurd (.inl rfl) hsearch
  | notContains => exact absurd (.inr rfl) hsearch
  | greaterThan => exact absurd rfl hgreater
  | lessThan => exact absurd rfl hless
  | isEmpty => simp only [compare, hempty]
  | notEmpty => simp only [compare, bne, hempty]
  | isIn => simp only [compare, hamong]
  | notIn => simp only [compare, hamong]
  | otherwise => rfl

/-- On the right side a list sees what is quoted, too, but there it makes no difference. -/
theorem compare_around_right (hescape : Json.IsEscape escape) {op : Comparison}
    (hgreater : op ≠ .greaterThan) (hless : op ≠ .lessThan)
    {old new : String} (h : normal old = normal new) (before after : String) :
    compare op old (before ++ Json.quoteWith escape old ++ after) =
      compare op new (before ++ Json.quoteWith escape new ++ after) := by
  have hequal : ∀ s, (normal s == normal (before ++ Json.quoteWith escape s ++ after)) = false :=
    fun s => beq_false_of_ne (normal_ne_of_solid_lt (solid_lt_around hescape s before after))
  have hcontains : ∀ s,
    Text.contains (normal s) (normal (before ++ Json.quoteWith escape s ++ after)) = false := by
    intro s
    refine Bool.eq_false_of_not_eq_true fun hin => ?_
    have hle := Text.solid_le_of_contains hin
    rw [Text.solid_normal, Text.solid_normal] at hle
    exact Nat.not_le_of_lt (solid_lt_around hescape s before after) hle
  cases op with
  | equals => simp only [compare, hequal]
  | notEquals => simp only [compare, bne, hequal]
  | contains => simp only [compare, hcontains]
  | notContains => simp only [compare, hcontains]
  | greaterThan => exact absurd rfl hgreater
  | lessThan => exact absurd rfl hless
  | isEmpty => simp only [compare, trim_congr h]
  | notEmpty => simp only [compare, bne, trim_congr h]
  | isIn => simp only [compare, isAmong_around hescape h]
  | notIn => simp only [compare, isAmong_around hescape h]
  | otherwise => rfl

variable {print : Record → Option String} {write : Value → Option String}

/-- A clause comes out in the same way after a rewording within the normal form. -/
theorem Rewords.clauseWith (hprint : Record.IsPrinter print write escape) {old new : String}
    {source : Source} {names : List String} {s s' : Situation}
    (h : s.Rewords old new source names s') (hnormal : normal old = normal new)
    {c : Clause} (hgreater : c.comparison ≠ .greaterThan) (hless : c.comparison ≠ .lessThan)
    (hreads : s.reads? true c.left = some (source, names) ∨
      s.reads? false c.right = some (source, names))
    (hsearch : ¬ ((c.comparison = .contains ∨ c.comparison = .notContains) ∧
      s.ReadsAround true c.left source names)) :
    s'.clauseWith print c = s.clauseWith print c := by
  change compare c.comparison (s'.operandWith print true c.left)
    (s'.operandWith print false c.right) =
    compare c.comparison (s.operandWith print true c.left) (s.operandWith print false c.right)
  rcases hreads with hleft | hright
  · obtain ⟨hold, hnew⟩ := h.operandWith_field print hleft
    rcases h.operandWith hprint false c.right with
      heq | ⟨-, hold', hnew'⟩ | ⟨-, before, after, hold', hnew'⟩
    · exact compare_congr hgreater hless (by rw [hold, hnew, hnormal]) (by rw [heq])
    · rw [hold, hnew, hold', hnew']
      exact compare_congr hgreater hless hnormal.symm hnormal.symm
    · rw [hold, hnew, hold', hnew']
      exact (compare_around_right hprint.escaped hgreater hless hnormal before after).symm
  · obtain ⟨hold, hnew⟩ := h.operandWith_field print hright
    rcases h.operandWith hprint true c.left with
      heq | ⟨-, hold', hnew'⟩ | ⟨haround, before, after, hold', hnew'⟩
    · exact compare_congr hgreater hless (by rw [heq]) (by rw [hold, hnew, hnormal])
    · rw [hold, hnew, hold', hnew']
      exact compare_congr hgreater hless hnormal.symm hnormal.symm
    · rw [hold, hnew, hold', hnew']
      exact compare_around_left hprint.escaped hgreater hless
        (fun hop => hsearch ⟨hop, haround⟩) ..

def noting (text : String) : Situation :=
  ⟨[("note", .record [("text", .text text)])], { id := "run", flowId := "flow" }⟩

end Workflow.Situation
