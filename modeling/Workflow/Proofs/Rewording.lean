import Workflow.Data.Shown
import Workflow.Proofs.Table
import Workflow.Proofs.Text

namespace Workflow

theorem Table.find?_middle {α : Type} {name : String} {pre : Table α}
    (h : Table.find? pre name = none) (value : α) (post : Table α) (key : String) :
    Table.find? (pre ++ (name, value) :: post) key =
      if key = name then some value else Table.find? (pre ++ post) key := by
  rw [Table.find?_append, Table.find?_append, Table.find?_cons]
  split
  · rename_i hkey
    rw [hkey, h]
    rfl
  · rfl

namespace Json

/-- Whether each character is written as it is or as an escape sequence, in which there is no
comma. -/
def IsEscape (escape : Char → List Char) : Prop :=
  ∀ c, escape c = [c] ∨ ∃ rest, escape c = '\\' :: rest ∧ ',' ∉ rest

variable {escape : Char → List Char}

theorem toList_quoteWith (s : String) :
    (quoteWith escape s).toList = ['"'] ++ s.toList.flatMap escape ++ ['"'] := by
  simp [quoteWith]

/-- Nothing that can be seen is lost between quotes, and the quotes are added to it. -/
theorem IsEscape.solid_lt_solid_quoteWith (h : IsEscape escape) (s : String) :
    Text.solid s.toList < Text.solid (quoteWith escape s).toList := by
  have hescape : ∀ c, Text.solid [c] ≤ Text.solid (escape c) := by
    intro c
    rcases h c with h | ⟨rest, h, -⟩
    · rw [h]
    · rw [h, Text.solid_cons '\\']
      have hone : Text.solid [c] ≤ 1 := List.countP_le_length
      have hslash : Text.solid ['\\'] = 1 := rfl
      omega
  have hall : ∀ cs : List Char, Text.solid cs ≤ Text.solid (cs.flatMap escape) := by
    intro cs
    induction cs with
    | nil => exact Nat.le_refl _
    | cons c rest ih =>
      have := hescape c
      rw [List.flatMap_cons, Text.solid_cons, Text.solid_append]
      omega
  have hquote : Text.solid ['"'] = 1 := rfl
  have := hall s.toList
  rw [toList_quoteWith, Text.solid_append, Text.solid_append]
  omega

theorem IsEscape.comma_not_mem_quoteWith (h : IsEscape escape) {s : String}
    (hs : ',' ∉ s.toList) :
    ',' ∉ (quoteWith escape s).toList := by
  have hescape : ∀ c ∈ s.toList, ',' ∉ escape c := by
    intro c hc
    have hne : ',' ≠ c := fun heq => hs (heq ▸ hc)
    rcases h c with heq | ⟨rest, heq, hrest⟩
    · simpa [heq] using hne
    · simpa [heq] using hrest
  simpa [toList_quoteWith] using hescape

end Json

/-- What is relied on of a printer of records. A text is written between quotes, and a record inside
of another as it is written alone. What stands around a field does not depend on its value; if
something there cannot be written, then the record cannot, whatever the value is. -/
structure Record.IsPrinter (print : Record → Option String) (write : Value → Option String)
    (escape : Char → List Char) : Prop where
  escaped : Json.IsEscape escape
  text : ∀ s, write (.text s) = some (Json.quoteWith escape s)
  record : ∀ r, write (.record r) = print r
  field : ∀ (pre : Record) (name : String) (post : Record),
    (∀ v, print (pre ++ (name, v) :: post) = none) ∨ ∃ before after, ∀ v,
      print (pre ++ (name, v) :: post) = (write v).map fun text => before ++ text ++ after

def Value.print? (v : Value) : Option String :=
  if v.isFinite then some v.toJson.print else none

/-- Two records that differ in the text at one path only, which is the one text in the one and the
other in the other. -/
inductive Record.Rewords (old new : String) : List String → Record → Record → Prop where
  | here {name : String} {pre post : Record} (h : Table.find? pre name = none) :
      Rewords old new [name] (pre ++ (name, .text old) :: post) (pre ++ (name, .text new) :: post)
  | inside {name : String} {pre post : Record} {names : List String} {r r' : Record}
      (h : Table.find? pre name = none) (hr : Rewords old new names r r') :
      Rewords old new (name :: names) (pre ++ (name, .record r) :: post)
        (pre ++ (name, .record r') :: post)

namespace Record

variable {old new : String} {names : List String} {r r' : Record}

theorem walk_cons (r : Record) (name : String) {names : List String} (h : names ≠ []) :
    r.walk (name :: names) =
      match r.find? name with
      | some (.record fields) => walk fields names
      | _ => none := by
  cases names with
  | nil => exact absurd rfl h
  | cons next rest => rfl

theorem Rewords.ne_nil (h : Rewords old new names r r') : names ≠ [] := by
  cases h <;> simp

theorem Rewords.symm (h : Rewords old new names r r') : Rewords new old names r' r := by
  induction h with
  | here hname => exact .here hname
  | inside hname hr ih => exact .inside hname ih

theorem Rewords.walk_self (h : Rewords old new names r r') : r.walk names = some (.text old) := by
  induction h with
  | here hname => simp [Record.walk, Table.find?_middle hname]
  | @inside name pre post names r r' hname hr ih =>
    rw [walk_cons _ name hr.ne_nil, Table.find?_middle hname, if_pos rfl]
    exact ih

/-- What a path finds in a record and in the reworded one. -/
theorem Rewords.walk (h : Rewords old new names r r') (path : List String) :
    r'.walk path = r.walk path ∨
      (path = names ∧ r.walk path = some (.text old) ∧ r'.walk path = some (.text new)) ∨
      ∃ rest t t', rest ≠ [] ∧ names = path ++ rest ∧ Rewords old new rest t t' ∧
        r.walk path = some (.record t) ∧ r'.walk path = some (.record t') := by
  -- The path goes along with the way to the text. Where they part, both records hold the same.
  induction h generalizing path with
  | @here name pre post hname =>
    match path with
    | [] => exact .inl rfl
    | [key] =>
      by_cases hkey : key = name
      · subst hkey
        refine .inr (.inl ⟨rfl, ?_, ?_⟩) <;> simp [Record.walk, Table.find?_middle hname]
      · refine .inl ?_
        simp [Record.walk, Table.find?_middle hname, hkey]
    | key :: next :: rest =>
      refine .inl ?_
      by_cases hkey : key = name <;> simp [Record.walk, Table.find?_middle hname, hkey]
  | @inside name pre post names r r' hname hr ih =>
    match path with
    | [] => exact .inl rfl
    | [key] =>
      by_cases hkey : key = name
      · subst hkey
        refine .inr (.inr ⟨names, r, r', hr.ne_nil, rfl, hr, ?_, ?_⟩) <;>
          simp [Record.walk, Table.find?_middle hname]
      · refine .inl ?_
        simp [Record.walk, Table.find?_middle hname, hkey]
    | key :: next :: rest =>
      by_cases hkey : key = name
      · subst hkey
        have hwalk : ∀ t, Record.walk (pre ++ (key, .record t) :: post) (key :: next :: rest) =
            Record.walk t (next :: rest) := by
          intro t
          simp [Record.walk, Table.find?_middle hname]
        rw [hwalk, hwalk]
        rcases ih (next :: rest) with
          heq | ⟨hpath, hold, hnew⟩ | ⟨tail, t, t', htail, hnames, hin⟩
        · exact .inl heq
        · exact .inr (.inl ⟨by rw [hpath], hold, hnew⟩)
        · exact .inr (.inr ⟨tail, t, t', htail, by rw [hnames]; rfl, hin⟩)
      · refine .inl ?_
        simp [Record.walk, Table.find?_middle hname, hkey]

/-- The structured text of a reworded record, if it has one. -/
theorem Rewords.print {print : Record → Option String} {write : Value → Option String}
    {escape : Char → List Char} (hprint : IsPrinter print write escape)
    (h : Rewords old new names r r') :
    (print r = none ∧ print r' = none) ∨ ∃ before after,
      print r = some (before ++ Json.quoteWith escape old ++ after) ∧
        print r' = some (before ++ Json.quoteWith escape new ++ after) := by
  induction h with
  | @here name pre post =>
    rcases hprint.field pre name post with hnone | ⟨before, after, hfield⟩
    · exact .inl ⟨hnone _, hnone _⟩
    · refine .inr ⟨before, after, ?_, ?_⟩ <;> rw [hfield, hprint.text, Option.map_some]
  | @inside name pre post names r r' hname hr ih =>
    rcases hprint.field pre name post with hnone | ⟨before, after, hfield⟩
    · exact .inl ⟨hnone _, hnone _⟩
    rcases ih with ⟨hold, hnew⟩ | ⟨front, back, hold, hnew⟩
    · exact .inl
        ⟨by rw [hfield, hprint.record, hold]; rfl, by rw [hfield, hprint.record, hnew]; rfl⟩
    · refine .inr ⟨before ++ front, back ++ after, ?_, ?_⟩
      · rw [hfield, hprint.record, hold, Option.map_some]
        simp only [String.append_assoc]
      · rw [hfield, hprint.record, hnew, Option.map_some]
        simp only [String.append_assoc]

end Record

end Workflow
