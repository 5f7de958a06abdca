import Mathlib.Logic.Function.Basic
import Workflow.Proofs.Edit.Canon
import Workflow.Proofs.ReadingOrder
import Workflow.Proofs.Server.History

namespace Workflow

namespace Flow

/-- Applies batches in order, if all of them go through. -/
def replay (f : Flow) (batches : List (List Edit)) : Option Flow :=
  batches.foldlM (fun f edits => (f.applyAll edits).flow) f

theorem replay_append {f g : Flow} {batches : List (List Edit)} (h : f.replay batches = some g)
    (edits : List Edit) : f.replay (batches ++ [edits]) = (g.applyAll edits).flow := by
  have hfold : batches.foldlM (fun f edits => (applyAll f edits).flow) f = some g := h
  simp [replay, List.foldlM_append, hfold]

end Flow

namespace Server

/-- How a flow came to be what it is: as it was created, and the batches that went through since. -/
structure Lineage where
  created : Flow
  batches : List (List Edit)
  flow : Flow
  leads : created.replay batches = some flow

namespace Lineage

def new (f : Flow) : Lineage :=
  ⟨f, [], f, rfl⟩

def extend (l : Lineage) (edits : List Edit) (g : Flow)
    (h : (l.flow.applyAll edits).flow = some g) :
    Lineage :=
  ⟨l.created, l.batches ++ [edits], g, by rw [Flow.replay_append l.leads, h]⟩

/-- One more than the number of batches. Versions are words, as those stored are. -/
def version (l : Lineage) : UInt64 :=
  UInt64.ofNat (1 + l.batches.length)

theorem version_extend (l : Lineage) {edits : List Edit} {g : Flow}
    (h : (l.flow.applyAll edits).flow = some g) : (l.extend edits g h).version = l.version + 1 := by
  simp [version, extend, ← Nat.add_assoc, UInt64.ofNat_add]

end Lineage

/-- Flows by identifier, each with its lineage. Nothing is written down or read here. -/
abbrev Shelf := String → Option Lineage

namespace Shelf

def create (server : Server) (shelf : Shelf) (f : Flow) : Shelf × Except Error Response :=
  if f.id = "" then (shelf, .error .noFlowId)
  else
    match f.duplicateId? with
    | some id => (shelf, .error (.repeatedStepId id))
    | none =>
      if server.printable f.toDocument = false then
        (shelf, .error (.document (.unprintable "flow")))
      else
        match shelf f.id with
        | some _ => (shelf, .error (.store .createFlow (.flowExists f.id)))
        | none => (Function.update shelf f.id (some (.new f)), .ok (.flow ⟨f, 1⟩))

def edit (server : Server) (shelf : Shelf) (id : String) (edits : List Edit) :
    Shelf × Except Error Response :=
  match shelf id with
  | none => (shelf, .error (.flowMissing .editFlow id))
  | some l =>
    if l.flow.isDated = false then (shelf, .error (.document .dateRequired))
    else
      match h : (l.flow.applyAll edits).flow with
      | none => (shelf, .ok (.edited ⟨l.flow.applyAll edits, l.version⟩))
      | some g =>
        if server.printable g.toDocument = false then
          (shelf, .error (.document (.unprintable "flow")))
        else
          (Function.update shelf id (some (l.extend edits g h)),
            .ok (.edited ⟨l.flow.applyAll edits, l.version + 1⟩))

section Edit

variable {server : Server} {shelf : Shelf} {id : String} {l : Lineage} {edits : List Edit}

theorem edit_undated (hl : shelf id = some l) (hdated : l.flow.isDated = false) :
    edit server shelf id edits = (shelf, .error (.document .dateRequired)) := by
  unfold edit
  simp only [hl, hdated, if_true]

theorem edit_failed (hl : shelf id = some l) (hdated : l.flow.isDated = true)
    (h : (l.flow.applyAll edits).flow = none) :
    edit server shelf id edits = (shelf, .ok (.edited ⟨l.flow.applyAll edits, l.version⟩)) := by
  unfold edit
  simp only [hl, hdated, Bool.true_eq_false, if_false]
  split
  · rfl
  · simp_all

/-- A batch that goes through is stored if its result has a text. -/
theorem edit_done (hl : shelf id = some l) (hdated : l.flow.isDated = true) {g : Flow}
    (h : (l.flow.applyAll edits).flow = some g) :
    edit server shelf id edits =
      if server.printable g.toDocument = false then
        (shelf, .error (.document (.unprintable "flow")))
      else
        (Function.update shelf id (some (l.extend edits g h)),
          .ok (.edited ⟨l.flow.applyAll edits, l.version + 1⟩)) := by
  unfold edit
  simp only [hl, hdated, Bool.true_eq_false, if_false]
  split
  · simp_all
  · rename_i g' h'
    obtain rfl : g' = g := Option.some.inj (h'.symm.trans h)
    rfl

end Edit

def look (shelf : Shelf) (id : String) (view : Lineage → Response) : Except Error Response :=
  match shelf id with
  | none => .error (.flowMissing .getFlow id)
  | some l => if l.flow.isDated then .ok (view l) else .error (.document .dateRequired)

/-- Serves a request about flows. Those about runs it does not see. -/
def serve (server : Server) (shelf : Shelf) : Request → Shelf × Option (Except Error Response)
  | .createFlow f => ((create server shelf f).1, some (create server shelf f).2)
  | .editFlow id edits => ((edit server shelf id edits).1, some (edit server shelf id edits).2)
  | .getFlow id => (shelf, some (shelf.look id fun l => .flow ⟨l.flow.canon, l.version⟩))
  | .checkFlow id =>
    (shelf, some (shelf.look id fun l => .findings (l.flow.findings server.limits)))
  | _ => (shelf, none)

def after (server : Server) (shelf : Shelf) (history : History) : Shelf :=
  history.foldl (fun shelf q => (shelf.serve server q.2).1) shelf

end Shelf

/-- An answer with the flow that a batch made canonical. -/
def Response.canon : Response → Response
  | .edited r => .edited ⟨r.result.canon, r.version⟩
  | answer => answer

/-- A state whose documents are those of the flows on a shelf. -/
structure State.Holds (state : State) (shelf : Shelf) : Prop where
  keyed : state.Keyed
  records : ∀ id, (state.flow? id).map (fun r => (r.version, r.document)) =
    (shelf id).map fun l => (l.version, l.flow.toDocument)
  unique : ∀ {id l}, shelf id = some l → l.flow.ids.Nodup

namespace State.Holds

variable {state : State} {shelf : Shelf} {id : String} {server : Server}

theorem none_iff (h : state.Holds shelf) : state.flow? id = none ↔ shelf id = none := by
  rw [← Option.map_eq_none_iff, h.records, Option.map_eq_none_iff]

theorem some (h : state.Holds shelf) {l : Lineage} (hl : shelf id = some l) :
    ∃ r, state.flow? id = some r ∧ r.version = l.version ∧ r.document = l.flow.toDocument ∧
      decoded r.document =
        if l.flow.isDated then .ok l.flow.canon else .error (.document .dateRequired) := by
  have hrecord := h.records id
  rw [hl, Option.map_some, Option.map_eq_some_iff] at hrecord
  obtain ⟨r, hr, heq⟩ := hrecord
  obtain ⟨hversion, hdocument⟩ := Prod.mk.inj heq
  refine ⟨r, hr, hversion, hdocument, ?_⟩
  rw [hdocument, decoded, Flow.ofDocument_toDocument]
  cases l.flow.isDated <;> rfl

/-- What is read is the canonical form of the flow on the shelf. -/
theorem get (h : state.Holds shelf) (id : String) :
    getFlow state id =
      match shelf id with
      | .none => .error (.flowMissing .getFlow id)
      | .some l =>
        if l.flow.isDated then .ok ⟨l.flow.canon, l.version⟩
        else .error (.document .dateRequired) := by
  rw [getFlow_eq]
  cases hl : shelf id with
  | none => rw [h.none_iff.mpr hl]
  | some l =>
    obtain ⟨r, hr, hversion, -, hread⟩ := h.some hl
    rw [hr]
    simp only [hread, hversion]
    cases l.flow.isDated <;> rfl

/-- The record of one flow is replaced, in the state and on the shelf. -/
theorem keep (h : state.Holds shelf) {r : Store.FlowRecord Document.Flow} {l : Lineage}
    (hversion : r.version = l.version) (hdocument : r.document = l.flow.toDocument)
    (unique : l.flow.ids.Nodup) :
    (state.keep (.flow r)).Holds (Function.update shelf r.id (.some l)) where
  keyed := h.keyed.keep _
  records id := by
    rw [State.flow?_keep_flow]
    by_cases hid : id = r.id
    · subst hid
      simp [hversion, hdocument]
    · rw [if_neg hid, Function.update_of_ne hid, h.records]
  unique {id l'} hl := by
    by_cases hid : id = r.id
    · subst hid
      rw [Function.update_self] at hl
      exact Option.some.inj hl ▸ unique
    · rw [Function.update_of_ne hid] at hl
      exact h.unique hl

/-- The server and the shelf create flows alike. -/
theorem create (h : state.Holds shelf) (now : Instant) (f : Flow) :
    (server.serve state now (.createFlow f)).1.Holds (Shelf.create server shelf f).1 ∧
      (server.serve state now (.createFlow f)).2 = (Shelf.create server shelf f).2 := by
  simp only [serve, Shelf.create]
  rw [createFlow_eq]
  by_cases hgiven : f.id = ""
  · rw [if_pos hgiven, if_pos hgiven]
    exact ⟨h, rfl⟩
  · rw [if_neg hgiven, if_neg hgiven]
    cases hrepeated : f.duplicateId? with
    | some id => exact ⟨h, rfl⟩
    | none =>
      by_cases hprintable : server.printable f.toDocument = false
      · simp only [if_pos hprintable]
        exact ⟨h, rfl⟩
      · simp only [if_neg hprintable]
        cases hl : shelf f.id with
        | some l =>
          obtain ⟨r, hr, _⟩ := h.some hl
          rw [hr]
          exact ⟨h, rfl⟩
        | none =>
          rw [h.none_iff.mpr hl]
          exact ⟨h.keep (l := .new f) rfl rfl (Flow.duplicateId?_eq_none_iff.mp hrepeated), rfl⟩

/-- A batch cannot tell the flow on the shelf from what its document stands for. -/
theorem edit (h : state.Holds shelf) (now : Instant) (id : String) (edits : List Edit) :
    (server.serve state now (.editFlow id edits)).1.Holds (Shelf.edit server shelf id edits).1 ∧
      (server.serve state now (.editFlow id edits)).2.map Response.canon =
        (Shelf.edit server shelf id edits).2.map Response.canon := by
  simp only [serve]
  rw [editFlow_eq h.keyed]
  cases hl : shelf id with
  | none =>
    rw [h.none_iff.mpr hl, Shelf.edit, hl]
    exact ⟨h, rfl⟩
  | some l =>
    obtain ⟨r, hr, hversion, -, hread⟩ := h.some hl
    have hid : r.id = id := h.keyed.flow hr
    subst hid
    cases hdated : l.flow.isDated with
    | false =>
      rw [hdated] at hread
      rw [Shelf.edit_undated hl hdated]
      simp only [hr, hread]
      exact ⟨h, rfl⟩
    | true =>
      rw [hdated, if_pos rfl] at hread
      -- The server applies the batch to what it reads, which is the canonical form.
      have halike := Flow.applyAll_alike l.flow.canon_canon edits
      have hflows : (l.flow.canon.applyAll edits).flow.map Flow.canon =
          (l.flow.applyAll edits).flow.map Flow.canon := congrArg BatchResult.flow halike
      simp only [hr, hread, ok_bind, hversion]
      cases hg : (l.flow.applyAll edits).flow with
      | none =>
        rw [hg, Option.map_none, Option.map_eq_none_iff] at hflows
        rw [Shelf.edit_failed hl hdated hg, hflows]
        exact ⟨h, by simp [outcome, Except.map, Response.canon, halike]⟩
      | some g =>
        rw [hg, Option.map_some, Option.map_eq_some_iff] at hflows
        obtain ⟨g', hg', hcanon⟩ := hflows
        have hdocument : g'.toDocument = g.toDocument := Flow.toDocument_congr hcanon
        rw [Shelf.edit_done hl hdated hg]
        simp only [hg', hdocument]
        by_cases hunprintable : server.printable g.toDocument = false
        · rw [if_pos hunprintable, if_pos hunprintable]
          exact ⟨h, rfl⟩
        · rw [if_neg hunprintable, if_neg hunprintable]
          refine ⟨h.keep (r := editedRecord r g' now) (l := l.extend edits g hg) ?_
            hdocument ?_, ?_⟩
          · rw [l.version_extend, ← hversion]
            rfl
          · exact (Edit.applyFrom_ids (h.unique hl) hg).1
          · simp [outcome, Except.map, Response.canon, halike]

/-- The checker cannot tell the flow on the shelf from what its document stands for. -/
theorem check (h : state.Holds shelf) (id : String) :
    (checkFlow server state id).map .findings =
      shelf.look id fun l => .findings (l.flow.findings server.limits) := by
  unfold checkFlow Shelf.look
  rw [h.get]
  cases shelf id with
  | none => rfl
  | some l =>
    dsimp only
    cases l.flow.isDated with
    | false => rfl
    | true =>
      rw [if_pos rfl, ok_bind, Flow.findings_canon]
      rfl

/-- The server and the shelf take every request alike. -/
theorem serve (h : state.Holds shelf) (now : Instant) (q : Request) :
    (server.serve state now q).1.Holds (shelf.serve server q).1 ∧
      ∀ answer, (shelf.serve server q).2 = .some answer →
        (server.serve state now q).2.map Response.canon = answer.map Response.canon := by
  have hruns : q.isOnFlows = false → (server.serve state now q).1.Holds shelf := fun hq =>
    ⟨server.keyed_serve now h.keyed q,
      fun id => by rw [server.flow?_serve now h.keyed hq]; exact h.records id, h.unique⟩
  cases q with
  | createFlow f =>
    obtain ⟨hholds, hanswer⟩ := h.create now f
    exact ⟨hholds, fun answer ha => by rw [hanswer, ← Option.some.inj ha]⟩
  | editFlow id edits =>
    obtain ⟨hholds, hanswer⟩ := h.edit now id edits
    exact ⟨hholds, fun answer ha => by rw [hanswer, ← Option.some.inj ha]⟩
  | getFlow id =>
    refine ⟨h, fun answer ha => ?_⟩
    rw [← Option.some.inj ha, Server.serve, h.get, Shelf.look]
    cases shelf id with
    | none => rfl
    | some l =>
      dsimp only
      cases l.flow.isDated <;> rfl
  | checkFlow id =>
    refine ⟨h, fun answer ha => ?_⟩
    rw [← Option.some.inj ha, Server.serve, h.check]
  | startRun flowId name kickoff => exact ⟨hruns rfl, fun answer ha => by cases ha⟩
  | getRun id => exact ⟨hruns rfl, fun answer ha => by cases ha⟩
  | completeStep id execution result flags => exact ⟨hruns rfl, fun answer ha => by cases ha⟩
  | submitAssignment id execution assignment result =>
    exact ⟨hruns rfl, fun answer ha => by cases ha⟩
  | recordEscalation id execution => exact ⟨hruns rfl, fun answer ha => by cases ha⟩
  | markStepFailed id execution reason => exact ⟨hruns rfl, fun answer ha => by cases ha⟩

theorem after (h : state.Holds shelf) (history : History) :
    (server.after state history).Holds (shelf.after server history) := by
  induction history generalizing state shelf with
  | nil => exact h
  | cons q rest ih => exact ih (h.serve q.1 q.2).1

theorem initial : ({} : State).Holds fun _ => none where
  keyed := State.keyed_initial
  records _ := rfl
  unique h := by cases h

end State.Holds

theorem outcome_error {α : Type} {state : State} {answer : α → Response}
    {result : Except Error (State × α)} {error : Error}
    (h : (outcome state answer result).2 = .error error) :
    (outcome state answer result).1 = state := by
  cases result with
  | error e => rfl
  | ok a => cases h

/-- A request that is refused changes nothing. -/
theorem serve_refused {server : Server} {state : State} {now : Instant} {q : Request}
    {error : Error}
    (h : (server.serve state now q).2 = .error error) : (server.serve state now q).1 = state := by
  cases q with
  | createFlow f => exact outcome_error h
  | editFlow id edits => exact outcome_error h
  | startRun flowId name kickoff => exact outcome_error h
  | completeStep id execution result flags => exact outcome_error h
  | submitAssignment id execution assignment result => exact outcome_error h
  | recordEscalation id execution => exact outcome_error h
  | markStepFailed id execution reason => exact outcome_error h
  | getFlow id => rfl
  | checkFlow id => rfl
  | getRun id => rfl

section Edits

variable {server : Server} {state : State} {now : Instant} {id : String} {edits : List Edit}
  {r : EditedFlow}

/-- An edit that is answered was applied to a stored flow, and is stored if it went through. -/
theorem serve_edited (keyed : state.Keyed)
    (h : (server.serve state now (.editFlow id edits)).2 = .ok (.edited r)) :
    ∃ old f, state.flow? id = some old ∧ decoded old.document = .ok f ∧
      r.result = f.applyAll edits ∧
      (server.serve state now (.editFlow id edits)).1 =
        (match r.result.flow with
        | none => state
        | some g => state.keep (.flow (editedRecord old g now))) ∧
      r.version = (match r.result.flow with
        | none => old.version
        | some _ => old.version + 1) := by
  simp only [serve] at h ⊢
  rw [editFlow_eq keyed] at h ⊢
  cases hold : state.flow? id with
  | none =>
    rw [hold] at h
    cases h
  | some old =>
    cases hf : decoded old.document with
    | error error =>
      simp only [hold, hf, error_bind] at h
      cases h
    | ok f =>
      simp only [hold, hf, ok_bind] at h ⊢
      cases hg : (f.applyAll edits).flow with
      | none =>
        simp only [hg] at h ⊢
        cases h
        exact ⟨old, f, rfl, hf, rfl, by rw [hg]; rfl, by rw [hg]⟩
      | some g =>
        simp only [hg] at h ⊢
        by_cases hunprintable : server.printable g.toDocument = false
        · rw [if_pos hunprintable] at h
          cases h
        · rw [if_neg hunprintable] at h ⊢
          cases h
          exact ⟨old, f, rfl, hf, rfl, by rw [hg]; rfl, by rw [hg]⟩

end Edits

/-- What an answer says of how a flow came about: that it was created, or that a batch went
through. -/
def note (id : String) (known : Option (Flow × List (List Edit))) :
    Request × Except Error Response → Option (Flow × List (List Edit))
  | (.createFlow f, .ok _) => if f.id = id then some (f, []) else known
  | (.editFlow other edits, .ok (.edited r)) =>
    if other = id ∧ r.result.succeeded = true then
      known.map fun (f, batches) => (f, batches ++ [edits])
    else known
  | _ => known

/-- The flow that was created under an identifier, and the batches that went through since, by the
answers of a transcript. -/
def recorded (id : String) (transcript : List (Request × Except Error Response)) :
    Option (Flow × List (List Edit)) :=
  transcript.foldl (note id) none

/-- What a server makes of flows. -/
structure KeepsFlows (server : Server) (history : History) : Prop where
  /-- It answers as if flows were edited in place. -/
  answers : ∀ now q answer,
    ((Shelf.after server (fun _ => none) history).serve server q).2 = some answer →
      (server.serve (server.after {} history) now q).2.map Response.canon =
        answer.map Response.canon
  /-- A flow is what the batches that went through made of the one created, and its version counts
  them. It can be read unless a fixed deadline in it has no date. -/
  reads : ∀ id, match recorded id (server.transcript {} history) with
    | none => getFlow (server.after {} history) id = .error (.flowMissing .getFlow id)
    | some (f, batches) => ∃ g, f.replay batches = some g ∧
        getFlow (server.after {} history) id =
          if g.isDated then .ok ⟨g.canon, UInt64.ofNat (1 + batches.length)⟩
          else .error (.document .dateRequired)
  refused : ∀ now q error, (server.serve (server.after {} history) now q).2 = .error error →
    (server.serve (server.after {} history) now q).1 = server.after {} history
  failed : ∀ now id edits r,
    (server.serve (server.after {} history) now (.editFlow id edits)).2 = .ok (.edited r) →
      r.result.succeeded = false →
        (server.serve (server.after {} history) now (.editFlow id edits)).1 =
          server.after {} history
  /-- An edit tells the version that is stored after it. -/
  version : ∀ now id edits r,
    (server.serve (server.after {} history) now (.editFlow id edits)).2 = .ok (.edited r) →
      ((server.serve (server.after {} history) now (.editFlow id edits)).1.flow? id).map
        Store.FlowRecord.version = some r.version
  unique : ∀ id r, (server.after {} history).flow? id = some r →
    ∃ f : Flow, r.document = f.toDocument ∧ f.ids.Nodup

def Lineage.origin (l : Lineage) : Flow × List (List Edit) :=
  (l.created, l.batches)

theorem edited_of_canon {answer : Except Error Response} {r : EditedFlow}
    (h : answer.map Response.canon = (Except.ok (Response.edited r)).map Response.canon) :
    ∃ r', answer = .ok (.edited r') ∧ r'.result.succeeded = r.result.succeeded := by
  cases answer with
  | error e => cases h
  | ok a =>
    cases a <;> simp only [Except.map, Response.canon, Except.ok.injEq, reduceCtorEq] at h
    rename_i r'
    refine ⟨r', rfl, ?_⟩
    have hflow := congrArg (fun r : EditedFlow => r.result.flow.isSome) (Response.edited.inj h)
    simpa [BatchResult.canon, BatchResult.succeeded] using hflow

section Notes

variable {server : Server} {state : State} {shelf : Shelf}

/-- A flow that is created begins its lineage. -/
theorem note_create (h : state.Holds shelf) (now : Instant) (f : Flow) (id : String) :
    note id ((shelf id).map Lineage.origin)
        (.createFlow f, (server.serve state now (.createFlow f)).2) =
      ((Shelf.create server shelf f).1 id).map Lineage.origin := by
  rw [(h.create now f).2]
  unfold Shelf.create
  split
  · rfl
  · split
    · rfl
    · split
      · rfl
      · split
        · rfl
        · by_cases hid : f.id = id
          · subst hid
            simp [note, Lineage.new, Lineage.origin]
          · simp [note, hid, Function.update_of_ne (Ne.symm hid)]

theorem note_refused (known : Option (Flow × List (List Edit))) (id : String) (q : Request)
    {answer : Except Error Response} {error : Error}
    (h : answer.map Response.canon = (Except.error error).map Response.canon) :
    note id known (q, answer) = known := by
  cases answer with
  | error e => cases q <;> rfl
  | ok a => cases h

/-- A batch that goes through carries the lineage on, and no other. -/
theorem note_edit (h : state.Holds shelf) (now : Instant) (other : String) (edits : List Edit)
    (id : String) :
    note id ((shelf id).map Lineage.origin)
        (.editFlow other edits, (server.serve state now (.editFlow other edits)).2) =
      ((Shelf.edit server shelf other edits).1 id).map Lineage.origin := by
  have hanswer : (server.serve state now (.editFlow other edits)).2.map Response.canon =
      (Shelf.edit server shelf other edits).2.map Response.canon := (h.edit now other edits).2
  cases hl : shelf other with
  | none =>
    rw [Shelf.edit, hl] at hanswer ⊢
    exact note_refused _ id _ hanswer
  | some l =>
    cases hdated : l.flow.isDated with
    | false =>
      rw [Shelf.edit_undated hl hdated] at hanswer ⊢
      exact note_refused _ id _ hanswer
    | true =>
    cases hg : (l.flow.applyAll edits).flow with
    | none =>
      rw [Shelf.edit_failed hl hdated hg] at hanswer ⊢
      obtain ⟨r, hr, hsucceeded⟩ := edited_of_canon hanswer
      have hfailed : r.result.succeeded = false := by
        rw [hsucceeded, BatchResult.succeeded, hg]
        rfl
      rw [hr]
      simp [note, hfailed]
    | some g =>
      rw [Shelf.edit_done hl hdated hg] at hanswer ⊢
      by_cases hunprintable : server.printable g.toDocument = false
      · rw [if_pos hunprintable] at hanswer ⊢
        exact note_refused _ id _ hanswer
      · rw [if_neg hunprintable] at hanswer ⊢
        obtain ⟨r, hr, hsucceeded⟩ := edited_of_canon hanswer
        have hdone : r.result.succeeded = true := by
          rw [hsucceeded, BatchResult.succeeded, hg]
          rfl
        rw [hr]
        by_cases hid : other = id
        · subst hid
          simp [note, hdone, hl, Lineage.extend, Lineage.origin]
        · simp [note, hid, Function.update_of_ne (Ne.symm hid)]

/-- The lineages on the shelf are those that the answers tell of. -/
theorem note_serve (h : state.Holds shelf) (now : Instant) (q : Request) (id : String) :
    note id ((shelf id).map Lineage.origin) (q, (server.serve state now q).2) =
      ((shelf.serve server q).1 id).map Lineage.origin := by
  cases q with
  | createFlow f => exact note_create h now f id
  | editFlow other edits => exact note_edit h now other edits id
  | getFlow id => rfl
  | checkFlow id => rfl
  | startRun flowId name kickoff => rfl
  | getRun id => rfl
  | completeStep id execution result flags => rfl
  | submitAssignment id execution assignment result => rfl
  | recordEscalation id execution => rfl
  | markStepFailed id execution reason => rfl

end Notes

theorem recorded_after {server : Server} {state : State} {shelf : Shelf} (h : state.Holds shelf)
    (history : History) (id : String) :
    (server.transcript state history).foldl (note id) ((shelf id).map Lineage.origin) =
      ((shelf.after server history) id).map Lineage.origin := by
  induction history generalizing state shelf with
  | nil => rfl
  | cons q rest ih =>
    rw [transcript, List.foldl_cons, note_serve h]
    exact ih (h.serve q.1 q.2).1

/-- Whatever a server was asked before, it keeps flows as if each were edited in place. -/
theorem keepsFlows (server : Server) (history : History) : server.KeepsFlows history := by
  have holds : (server.after {} history).Holds (Shelf.after server (fun _ => none) history) :=
    State.Holds.initial.after history
  refine ⟨fun now q answer h => (holds.serve now q).2 answer h, fun id => ?_,
    fun now q error h => serve_refused h, fun now id edits r h hfailed => ?_,
    fun now id edits r h => ?_, fun id r hr => ?_⟩
  · have hrecorded : recorded id (server.transcript {} history) =
        ((Shelf.after server (fun _ => none) history) id).map Lineage.origin :=
      recorded_after State.Holds.initial history id
    rw [hrecorded, holds.get]
    cases (Shelf.after server (fun _ => none) history) id with
    | none => rfl
    | some l => exact ⟨l.flow, l.leads, rfl⟩
  · obtain ⟨old, f, _, _, _, hstate, _⟩ := serve_edited holds.keyed h
    have hnone : r.result.flow = none := by simpa [BatchResult.succeeded] using hfailed
    rw [hstate, hnone]
  · obtain ⟨old, f, hold, _, _, hstate, hversion⟩ := serve_edited holds.keyed h
    rw [hstate, hversion]
    cases r.result.flow with
    | none => rw [hold]; rfl
    | some g =>
      have hid : old.id = id := holds.keyed.flow hold
      dsimp only
      rw [State.flow?_keep_flow, if_pos (show id = (editedRecord old g now).id from hid.symm)]
      rfl
  · cases hl : (Shelf.after server (fun _ => none) history) id with
    | none =>
      rw [holds.none_iff.mpr hl] at hr
      cases hr
    | some l =>
      obtain ⟨r', hr', -, hdocument, -⟩ := holds.some hl
      obtain rfl : r = r' := Option.some.inj (hr.symm.trans hr')
      exact ⟨l.flow, hdocument, holds.unique hl⟩

/-- A flow with a step that is due at a date which it does not tell. -/
def Sample.undated : Flow :=
  { Flow.empty "f" "" with
    steps := [{ Step.ofType "s" .form with due := some ⟨.fixed, 0, .days, none⟩ }] }

/-- A flow that is created and that no request can read. -/
theorem undated_unread :
    let server : Server := { engine := { newId := fun kind _ => kind } }
    let history : History := [(⟨0⟩, .createFlow Sample.undated)]
    recorded "f" (server.transcript {} history) = some (Sample.undated, []) ∧
      getFlow (server.after {} history) "f" = .error (.document .dateRequired) ∧
      ¬ ∃ found, getFlow (server.after {} history) "f" = .ok found := by
  intro server history
  have hread : getFlow (server.after {} history) "f" = .error (.document .dateRequired) := rfl
  refine ⟨rfl, hread, ?_⟩
  rintro ⟨found, h⟩
  cases hread.symm.trans h

end Server

end Workflow
