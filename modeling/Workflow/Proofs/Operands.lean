import Workflow.Proofs.Rewording
import Workflow.Routing

namespace Workflow

/-- The names on a dotted path; the empty path has none. -/
def Record.names (path : String) : List String :=
  if path = "" then [] else Text.split '.' path

def Record.shown (print : Record → Option String) (r : Record) (names : List String) : String :=
  match r.walk names with
  | some v => v.showWith print
  | none => ""

theorem Record.lookup_eq (r : Record) (path : String) : r.lookup path = r.walk (names path) := by
  unfold lookup names
  split <;> rfl

theorem Record.showAtWith_eq (print : Record → Option String) (r : Record) (path : String) :
    r.showAtWith print path = shown print r (names path) := by
  cases h : r.walk (names path) <;> simp only [showAtWith, shown, lookup_eq, h]

theorem Record.shown_nil (print : Record → Option String) (names : List String) :
    shown print [] names = "" := by
  unfold shown
  match names with
  | [] => rfl
  | [_] => rfl
  | _ :: _ :: _ => rfl

inductive Source where
  | kickoff
  | submission
  | step (id : String)
  deriving DecidableEq

/-- The source that a token names, and the names of the fields in it. The result of a step is read
by a path only. -/
def Source.ofToken? (t : String) : Option (Source × List String) :=
  let (head, rest) := Text.cut '.' t
  let rest := rest.getD ""
  match head with
  | "kickoff" => some (.kickoff, Record.names rest)
  | "result" => some (.submission, Record.names rest)
  | "step" =>
    match Text.cut '.' rest with
    | (_, none) => none
    | (stepId, some path) => some (.step stepId, Record.names path)
  | _ => some (.submission, Record.names t)

namespace Situation

/-- What is in a source. A step that is not completed has no data. -/
def data (s : Situation) : Source → Record
  | .kickoff => s.run.kickoff
  | .submission => s.result
  | .step stepId =>
    match s.run.latest? stepId with
    | some e => if e.status = .completed then e.result else []
    | none => []

/-- The source and the fields that an operand names, unless it stands for itself. -/
def reads? (s : Situation) (bare : Bool) (text : String) : Option (Source × List String) :=
  match braced? (Text.trim text) with
  | some t => Source.ofToken? t
  | none =>
    if bare && (s.result.lookup (Text.trim text)).isSome then
      some (.submission, Record.names (Text.trim text))
    else none

/-- Whether an operand reads a record on the way to a field. -/
def ReadsAround (s : Situation) (bare : Bool) (text : String) (source : Source)
    (names : List String) : Prop :=
  ∃ front rest, s.reads? bare text = some (source, front) ∧ front ≠ [] ∧ rest ≠ [] ∧
    names = front ++ rest

def literal (text : String) : String :=
  match braced? (Text.trim text) with
  | some _ => ""
  | none => Text.trim text

/-- A token shows what it names. -/
theorem tokenWith_eq (print : Record → Option String) (s : Situation) (t : String) :
    s.tokenWith print t =
      match Source.ofToken? t with
      | some (source, names) => (s.data source).shown print names
      | none => "" := by
  unfold tokenWith Source.ofToken?
  rcases Text.cut '.' t with ⟨head, rest⟩
  simp only [Record.showAtWith_eq]
  split
  · rfl
  · rfl
  · rcases Text.cut '.' (rest.getD "") with ⟨stepId, _ | path⟩
    · rfl
    · simp only [data]
      cases s.run.latest? stepId with
      | none => exact (Record.shown_nil _ _).symm
      | some e =>
        by_cases he : e.status = .completed
        · simp only [if_pos he]
        · simp only [if_neg he, Record.shown_nil]
  · simp only [data]

/-- An operand shows what it names, or stands for itself. -/
theorem operandWith_eq (print : Record → Option String) (s : Situation) (bare : Bool)
    (text : String) :
    s.operandWith print bare text =
      match s.reads? bare text with
      | some (source, names) => (s.data source).shown print names
      | none => literal text := by
  unfold operandWith reads? literal
  dsimp only
  cases braced? (Text.trim text) with
  | some t => exact s.tokenWith_eq print t
  | none =>
    rw [Record.showAtWith_eq]
    dsimp only
    split <;> rfl

/-- Two situations whose data differ in one text only. -/
structure Rewords (old new : String) (source : Source) (names : List String)
    (s s' : Situation) : Prop where
  field : Record.Rewords old new names (s.data source) (s'.data source)
  others : ∀ other, other ≠ source → s'.data other = s.data other

variable {old new : String} {source : Source} {names : List String} {s s' : Situation}

/-- What is read, depends on the data only in whether a field is there. -/
theorem Rewords.reads?_eq (h : s.Rewords old new source names s') (bare : Bool) (text : String) :
    s'.reads? bare text = s.reads? bare text := by
  have hfound : ∀ path : String,
      (s'.result.lookup path).isSome = (s.result.lookup path).isSome := by
    intro path
    rw [Record.lookup_eq, Record.lookup_eq]
    by_cases hsource : source = .submission
    · subst hsource
      rcases h.field.walk (Record.names path) with
        heq | ⟨-, hold, hnew⟩ | ⟨_, t, t', -, -, -, hold, hnew⟩
      · exact congrArg Option.isSome heq
      · exact (congrArg Option.isSome hnew).trans (congrArg Option.isSome hold).symm
      · exact (congrArg Option.isSome hnew).trans (congrArg Option.isSome hold).symm
    · rw [show s'.result = s.result from h.others .submission (Ne.symm hsource)]
  unfold reads?
  rw [hfound]

theorem Rewords.operandWith_field (h : s.Rewords old new source names s')
    (print : Record → Option String) {bare : Bool} {text : String}
    (hreads : s.reads? bare text = some (source, names)) :
    s.operandWith print bare text = old ∧ s'.operandWith print bare text = new := by
  rw [operandWith_eq print s', h.reads?_eq, operandWith_eq, hreads]
  simp only [Record.shown, h.field.walk_self, h.field.symm.walk_self]
  exact ⟨rfl, rfl⟩

/-- What an operand shows before and after. A record that the printer does not write shows nothing,
neither before nor after. -/
theorem Rewords.operandWith {print : Record → Option String} {write : Value → Option String}
    {escape : Char → List Char} (hprint : Record.IsPrinter print write escape)
    (h : s.Rewords old new source names s') (bare : Bool) (text : String) :
    s'.operandWith print bare text = s.operandWith print bare text ∨
      (s.reads? bare text = some (source, names) ∧
        s.operandWith print bare text = old ∧ s'.operandWith print bare text = new) ∨
      (s.ReadsAround bare text source names ∧ ∃ before after,
        s.operandWith print bare text = before ++ Json.quoteWith escape old ++ after ∧
          s'.operandWith print bare text = before ++ Json.quoteWith escape new ++ after) := by
  rw [operandWith_eq print s', h.reads?_eq, operandWith_eq]
  cases hreads : s.reads? bare text with
  | none => exact .inl rfl
  | some target =>
    obtain ⟨other, path⟩ := target
    by_cases hother : other = source
    · subst hother
      dsimp only [Record.shown]
      rcases h.field.walk path with heq | ⟨hpath, hold, hnew⟩ |
        ⟨rest, t, t', hrest, hnames, hin, hold, hnew⟩
      · exact .inl (by rw [heq])
      · exact .inr (.inl ⟨by rw [hpath], by rw [hold]; rfl, by rw [hnew]; rfl⟩)
      · have hpath : path ≠ [] := by
          rintro rfl
          cases hold
        rw [hold, hnew]
        dsimp only [Value.showWith]
        rcases hin.print hprint with ⟨hnone, hnone'⟩ | ⟨before, after, htext, htext'⟩
        · exact .inl (by rw [hnone, hnone'])
        · exact .inr (.inr ⟨⟨path, rest, hreads, hpath, hrest, hnames⟩, before, after,
            by rw [htext]; rfl, by rw [htext']; rfl⟩)
    · dsimp only
      exact .inl (by rw [h.others other hother])

end Situation

end Workflow
