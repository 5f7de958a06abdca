import Mathlib.Data.List.Induction
import Workflow.Proofs.Tree

namespace Workflow

/-- The place that is reached from another by going further in. Two numbers lead through one scope:
which one of the step it is, and the index in its list. -/
def Place.below? (p : Place) : List Nat → Option Place
  | [] => some p
  | [_] => none
  | j :: k :: rest =>
    p.step.inner[j]?.bind fun i => i.2[k]?.bind fun s =>
      below? ⟨s, i.2, k, p.scopes ++ [i.1]⟩ rest

def Flow.at? (f : Flow) : List Nat → Option Place
  | [] => none
  | k :: rest => f.steps[k]?.bind fun s => (⟨s, f.steps, k, []⟩ : Place).below? rest

/-- The order of addresses: one that leads further in comes behind, and otherwise the first number
that differs decides. So a step comes before those nested in it, and these before the next step. -/
abbrev Precedes : List Nat → List Nat → Prop :=
  List.Lex (· < ·)

theorem Precedes.asymm {a b : List Nat} (h : Precedes a b) : ¬ Precedes b a :=
  List.lt_asymm h

/-- What an address means that starts with the index of an element. -/
def indexed? {β : Type} (xs : List β) (at? : β → Nat → List Nat → Option Place) :
    List Nat → Option Place
  | [] => none
  | k :: rest => xs[k]?.bind fun x => at? x k rest

/-- The places are what is found under all addresses there are, in the order of the addresses. -/
structure Charts (at? : List Nat → Option Place) (addresses : List (List Nat))
    (places : List Place) : Prop where
  ascending : addresses.Pairwise Precedes
  found : addresses.map at? = places.map some
  complete : ∀ a, (at? a).isSome = true → a ∈ addresses

section Indexed

variable {β : Type} {at? : β → Nat → List Nat → Option Place}
  {xs : List β} {x : β} {k : Nat} {rest : List Nat}

theorem indexed?_append_of_lt (h : k < xs.length) (ys : List β) :
    indexed? (xs ++ ys) at? (k :: rest) = indexed? xs at? (k :: rest) := by
  rw [indexed?, indexed?, List.getElem?_append_left h]

theorem indexed?_concat : indexed? (xs ++ [x]) at? (xs.length :: rest) = at? x xs.length rest := by
  rw [indexed?, List.getElem?_concat_length, Option.bind_some]

theorem indexed?_isSome {a : List Nat} (h : (indexed? xs at? a).isSome = true) :
    ∃ k rest, a = k :: rest ∧ k < xs.length := by
  cases a with
  | nil => cases h
  | cons k rest =>
    refine ⟨k, rest, rfl, ?_⟩
    rw [indexed?] at h
    obtain ⟨y, hy⟩ := Option.isSome_iff_exists.mp (Option.isSome_of_isSome_bind h)
    exact (List.getElem?_eq_some_iff.mp hy).1

end Indexed

namespace Charts

variable {at? : List Nat → Option Place} {addresses : List (List Nat)} {places : List Place}

theorem mem_of_map_eq (h : addresses.map at? = places.map some) {a : List Nat} {p : Place}
    (ha : a ∈ addresses) (hp : at? a = some p) : p ∈ places := by
  have hmem : some p ∈ places.map some := by
    rw [← h, ← hp]
    exact List.mem_map_of_mem ha
  simpa using hmem

theorem isSome_of_mem (h : Charts at? addresses places) {a : List Nat} (ha : a ∈ addresses) :
    (at? a).isSome = true := by
  have hmem : at? a ∈ places.map some := h.found ▸ List.mem_map_of_mem ha
  obtain ⟨p, -, hp⟩ := List.mem_map.mp hmem
  rw [← hp]
  rfl

/-- A place comes before all that is below it. -/
theorem cons {below? : List Nat → Option Place} {p : Place} (h : Charts below? addresses places)
    (hat : at? [] = some p) (hbelow : below? [] = none)
    (hrest : ∀ k rest, at? (k :: rest) = below? (k :: rest)) :
    Charts at? ([] :: addresses) (p :: places) := by
  have hlonger : ∀ a ∈ addresses, ∃ k rest, a = k :: rest := by
    intro a ha
    cases a with
    | nil =>
      have hsome := h.isSome_of_mem ha
      rw [hbelow] at hsome
      cases hsome
    | cons k rest => exact ⟨k, rest, rfl⟩
  refine ⟨List.pairwise_cons.mpr ⟨fun a ha => ?_, h.ascending⟩, ?_, fun a ha => ?_⟩
  · obtain ⟨k, rest, rfl⟩ := hlonger a ha
    exact .nil
  · rw [List.map_cons, List.map_cons, hat, ← h.found]
    congr 1
    refine List.map_congr_left fun a ha => ?_
    obtain ⟨k, rest, rfl⟩ := hlonger a ha
    exact hrest k rest
  · cases a with
    | nil => exact List.mem_cons_self
    | cons k rest => exact List.mem_cons_of_mem _ (h.complete _ (hrest k rest ▸ ha))

/-- What is charted for each element of a list is charted for the list. -/
theorem indexed {β : Type} (xs : List β) (at? : β → Nat → List Nat → Option Place)
    (places : β → Nat → List Place)
    (h : ∀ x ∈ xs, ∀ k, ∃ addresses, Charts (at? x k) addresses (places x k)) :
    ∃ addresses, Charts (indexed? xs at?) addresses
      (xs.zipIdx.flatMap fun x => places x.1 x.2) := by
  -- from the last element, so that those before it keep their indices
  induction xs using List.reverseRecOn with
  | nil =>
    refine ⟨[], .nil, rfl, fun a ha => ?_⟩
    obtain ⟨k, -, -, hk⟩ := indexed?_isSome ha
    cases hk
  | append_singleton xs x ih =>
    obtain ⟨before, hbefore⟩ := ih fun y hy => h y (List.mem_append_left _ hy)
    obtain ⟨behind, hbehind⟩ := h x List.mem_concat_self xs.length
    have hlow : ∀ a ∈ before, ∃ k rest, a = k :: rest ∧ k < xs.length := fun a ha =>
      indexed?_isSome (hbefore.isSome_of_mem ha)
    refine ⟨before ++ behind.map (xs.length :: ·), ?_, ?_, fun a ha => ?_⟩
    · refine List.pairwise_append.mpr ⟨hbefore.ascending, ?_, fun a ha b hb => ?_⟩
      · exact List.pairwise_map.mpr (hbehind.ascending.imp fun hlt => .cons hlt)
      · obtain ⟨k, rest, rfl, hk⟩ := hlow a ha
        obtain ⟨c, -, rfl⟩ := List.mem_map.mp hb
        exact .rel hk
    · have hfirst : before.map (indexed? (xs ++ [x]) at?) = before.map (indexed? xs at?) :=
        List.map_congr_left fun a ha => by
          obtain ⟨k, rest, rfl, hk⟩ := hlow a ha
          exact indexed?_append_of_lt hk [x]
      have hlast : (behind.map (xs.length :: ·)).map (indexed? (xs ++ [x]) at?) =
          behind.map (at? x xs.length) := by
        rw [List.map_map]
        exact List.map_congr_left fun a _ => indexed?_concat
      rw [List.map_append, hfirst, hlast, hbefore.found, hbehind.found, List.zipIdx_append,
        List.flatMap_append, List.map_append]
      simp
    · obtain ⟨k, rest, rfl, hk⟩ := indexed?_isSome ha
      rw [List.length_append, List.length_singleton] at hk
      rcases Nat.lt_succ_iff_lt_or_eq.mp hk with hk | rfl
      · rw [indexed?_append_of_lt hk] at ha
        exact List.mem_append_left _ (hbefore.complete _ ha)
      · rw [indexed?_concat] at ha
        exact List.mem_append_right _ (List.mem_map_of_mem (hbehind.complete _ ha))

/-- All others of its kind come behind what is found first. -/
theorem least_of_find? (h : Charts at? addresses places) {is : Place → Bool} {p : Place}
    (hp : places.find? is = some p) :
    ∃ a, at? a = some p ∧ is p = true ∧
      ∀ b q, at? b = some q → is q = true → b = a ∨ Precedes a b := by
  obtain ⟨his, pre, post, rfl, hpre⟩ := List.find?_eq_some_iff_append.mp hp
  have hfound := h.found
  rw [List.map_append, List.map_cons] at hfound
  obtain ⟨before, rest, rfl, hbefore, hrest⟩ := List.map_eq_append_iff.mp hfound
  obtain ⟨a, behind, rfl, ha, -⟩ := List.map_eq_cons_iff.mp hrest
  refine ⟨a, ha, his, fun b q hb hq => ?_⟩
  rcases List.mem_append.mp (h.complete b (by rw [hb]; rfl)) with hmem | hmem
  · -- nothing of the kind stands before
    have hnot := hpre q (mem_of_map_eq hbefore hmem hb)
    rw [hq] at hnot
    cases hnot
  · rcases List.mem_cons.mp hmem with rfl | hmem
    · exact .inl rfl
    · have hascending := (List.pairwise_append.mp h.ascending).2.1
      exact .inr ((List.pairwise_cons.mp hascending).1 b hmem)

/-- The first place of a kind is the one whose address precedes all others. -/
theorem find?_eq_some_iff (h : Charts at? addresses places) (is : Place → Bool) {p : Place} :
    places.find? is = some p ↔
      ∃ a, at? a = some p ∧ is p = true ∧
      ∀ b q, at? b = some q → is q = true → b = a ∨ Precedes a b := by
  refine ⟨h.least_of_find?, ?_⟩
  rintro ⟨a, ha, his, hleast⟩
  cases hfind : places.find? is with
  | none =>
    have hmem := mem_of_map_eq h.found (h.complete a (by rw [ha]; rfl)) ha
    exact absurd his (List.find?_eq_none.mp hfind p hmem)
  | some q =>
    obtain ⟨b, hb, hq, hleast'⟩ := h.least_of_find? hfind
    rcases hleast b q hb hq with rfl | hbehind
    · exact hb.symm.trans ha
    · rcases hleast' a p ha his with rfl | hbefore
      · exact hb.symm.trans ha
      · exact absurd hbefore hbehind.asymm

end Charts

theorem Step.walkAll_eq_zipIdx (scopes : List Scope) (siblings : List Step) (index : Nat)
    (rest : List Step) :
    Step.walkAll scopes siblings index rest =
      (rest.zipIdx index).flatMap fun s => s.1.walk scopes siblings s.2 := by
  induction rest generalizing index with
  | nil => simp [Step.walkAll]
  | cons s rest ih => simp [Step.walkAll, ih]

theorem Place.below?_cons (p : Place) (j : Nat) (rest : List Nat) :
    p.below? (j :: rest) =
      indexed? p.step.inner (fun i _ => indexed? i.2 fun s k =>
        (⟨s, i.2, k, p.scopes ++ [i.1]⟩ : Place).below?) (j :: rest) := by
  cases rest with
  | nil => simp [below?, indexed?]
  | cons k rest => rfl

/-- A walk lists what is found from its step inwards. -/
theorem Step.exists_charts (s : Step) :
    ∀ (scopes : List Scope) (siblings : List Step) (index : Nat),
    ∃ addresses, Charts (⟨s, siblings, index, scopes⟩ : Place).below? addresses
      (s.walk scopes siblings index) := by
  induction s using Step.induction_inner with
  | h s ih =>
    intro scopes siblings index
    obtain ⟨addresses, hinner⟩ := Charts.indexed s.inner
      (fun i _ => indexed? i.2 fun t k => (⟨t, i.2, k, scopes ++ [i.1]⟩ : Place).below?)
      (fun i _ => Step.walkAll (scopes ++ [i.1]) i.2 0 i.2) fun i hi _ => by
        rw [Step.walkAll_eq_zipIdx]
        exact Charts.indexed i.2 _ _ fun t ht k => ih i hi t ht (scopes ++ [i.1]) i.2 k
    have hwalk : s.walk scopes siblings index = ⟨s, siblings, index, scopes⟩ ::
        s.inner.zipIdx.flatMap fun i => Step.walkAll (scopes ++ [i.1.1]) i.1.2 0 i.1.2 := by
      conv_lhs => rw [Step.walk_eq, ← List.zipIdx_map_fst 0 s.inner, List.flatMap_map]
    rw [hwalk]
    exact ⟨[] :: addresses, hinner.cons rfl rfl fun j rest => Place.below?_cons _ j rest⟩

namespace Flow

variable {f : Flow}

/-- The outline of a flow lists what is found under its addresses. -/
theorem exists_charts (f : Flow) : ∃ addresses, Charts f.at? addresses f.places := by
  have hat : f.at? = indexed? f.steps fun s k => (⟨s, f.steps, k, []⟩ : Place).below? := by
    funext a
    cases a <;> rfl
  rw [hat, places, Step.walkAll_eq_zipIdx]
  exact Charts.indexed f.steps _ _ fun s _ k => s.exists_charts [] f.steps k

end Flow

namespace Sample

/-- A branch whose second path holds a decision. Steps stand behind an outcome without steps, and
behind the branch. -/
def layered : Flow :=
  { Flow.empty "sample" "" with
    steps := [Step.ofType "a" .form, ⟨"fork", "", "", "", none, [], .branch .parallel .all
      [⟨"left", "", {}, [Step.ofType "b" .form]⟩,
        ⟨"right", "", {}, [⟨"ask", "", "", "", none, [], .decision [⟨"no", "", []⟩,
          ⟨"yes", "", [Step.ofType "c" .form, Step.ofType "d" .form]⟩]⟩]⟩]⟩,
      Step.ofType "z" .form] }

end Sample

example : (Sample.layered.at? [1, 1, 0, 1, 1]).map Place.id = some "d" := rfl

namespace Flow

variable {f : Flow}

/-- A place is the first with an id: all other addresses of steps with that id come behind. -/
def IsFirst (f : Flow) (id : String) (p : Place) : Prop :=
  ∃ a, f.at? a = some p ∧ p.id = id ∧
    ∀ b q, f.at? b = some q → q.id = id → b = a ∨ Precedes a b

theorem find?_eq_some_iff_isFirst {id : String} {p : Place} :
    f.find? id = some p ↔ f.IsFirst id p := by
  obtain ⟨addresses, h⟩ := f.exists_charts
  rw [find?, h.find?_eq_some_iff]
  simp only [beq_iff_eq, IsFirst]

theorem isSome_find?_iff {id : String} : (f.find? id).isSome = true ↔ id ∈ f.ids := by
  rw [find?, List.find?_isSome, ← map_id_places, List.mem_map]
  simp only [beq_iff_eq]

end Flow

/-- The table of positions tells the first place of an id. -/
theorem lookup_positionsFrom (start : Nat) (table : List (String × Nat)) (ids : List String)
    (id : String) :
    (positionsFrom start table ids).lookup id =
      (table.reverse.lookup id).or ((ids.idxOf? id).map (· + start)) := by
  induction ids generalizing start table with
  | nil => simp [positionsFrom]
  | cons x rest ih =>
    have hrest : ((rest.idxOf? id).map (· + 1)).map (· + start) =
        (rest.idxOf? id).map (· + (start + 1)) := by
      rw [Option.map_map]
      congr 1
      funext k
      simp only [Function.comp_apply]
      omega
    rw [positionsFrom, ih, List.idxOf?_cons, apply_ite (Option.map (· + start)), hrest]
    split
    · rename_i hknown
      split
      · rename_i hx
        obtain rfl : x = id := by simpa using hx
        obtain ⟨e, he, hxe⟩ := List.lookup_isSome_iff.mp hknown
        have hid : (table.reverse.lookup x).isSome = true :=
          List.lookup_isSome_iff.mpr ⟨e, List.mem_reverse.mpr he, hxe⟩
        obtain ⟨k, hk⟩ := Option.isSome_iff_exists.mp hid
        rw [hk, Option.some_or, Option.some_or]
      · rfl
    · rw [List.reverse_cons, List.lookup_append, Option.or_assoc]
      by_cases hx : x = id
      · simp [hx]
      · have hne : (id == x) = false := by simpa using Ne.symm hx
        simp [List.lookup_cons, hx, hne]

theorem nodup_positionsFrom {start : Nat} {table : List (String × Nat)} {ids : List String}
    (h : (table.map Prod.fst).Nodup) : ((positionsFrom start table ids).map Prod.fst).Nodup := by
  induction ids generalizing start table with
  | nil => simpa [positionsFrom] using h
  | cons x rest ih =>
    rw [positionsFrom]
    split
    · exact ih h
    · rename_i hnew
      refine ih (List.nodup_cons.mpr ⟨fun hmem => hnew ?_, h⟩)
      obtain ⟨e, he, hx⟩ := List.mem_map.mp hmem
      exact List.lookup_isSome_iff.mpr ⟨e, he, by simpa using hx.symm⟩

/-- No id is found to be repeated just when all differ. -/
theorem firstRepeated_eq_none_iff {seen ids : List String} :
    firstRepeated seen ids = none ↔ ids.Nodup ∧ ∀ id ∈ ids, id ∉ seen := by
  induction ids generalizing seen with
  | nil => simp [firstRepeated]
  | cons id rest ih =>
    unfold firstRepeated
    split
    · rename_i hseen
      simp [hseen]
    · rename_i hnew
      rw [ih, List.nodup_cons]
      simp only [List.mem_cons, not_or, forall_eq_or_imp, hnew, not_false_eq_true, true_and]
      constructor
      · rintro ⟨hnodup, hrest⟩
        exact ⟨⟨fun hmem => (hrest id hmem).1 rfl, hnodup⟩,
          fun other hmem => (hrest other hmem).2⟩
      · rintro ⟨⟨habsent, hnodup⟩, hrest⟩
        refine ⟨hnodup, fun other hmem => ⟨?_, hrest other hmem⟩⟩
        rintro rfl
        exact habsent hmem

/-- The id that is found repeated is the first of which the ids before it, or those seen already,
have a copy. -/
theorem firstRepeated_eq_some_iff {seen ids : List String} {id : String} :
    firstRepeated seen ids = some id ↔
      ∃ pre post, ids = pre ++ id :: post ∧ firstRepeated seen pre = none ∧
        (id ∈ pre ∨ id ∈ seen) := by
  induction ids generalizing seen with
  | nil => simp [firstRepeated]
  | cons x rest ih =>
    rw [firstRepeated]
    split
    · rename_i hseen
      constructor
      · rintro ⟨⟩
        exact ⟨[], rest, rfl, rfl, .inr hseen⟩
      · rintro ⟨pre, post, hids, hnone, -⟩
        cases pre with
        | nil => exact congrArg some (List.cons.inj hids).1
        | cons y pre =>
          obtain ⟨rfl, -⟩ := List.cons.inj hids
          simp [firstRepeated, hseen] at hnone
    · rename_i hnew
      rw [ih]
      constructor
      · rintro ⟨pre, post, rfl, hnone, hid⟩
        refine ⟨x :: pre, post, rfl, by simpa [firstRepeated, hnew] using hnone, ?_⟩
        simpa [or_left_comm, or_assoc] using hid
      · rintro ⟨pre, post, hids, hnone, hid⟩
        cases pre with
        | nil =>
          obtain ⟨rfl, -⟩ := List.cons.inj hids
          simp [hnew] at hid
        | cons y pre =>
          obtain ⟨rfl, rfl⟩ := List.cons.inj hids
          refine ⟨pre, post, rfl, by simpa [firstRepeated, hnew] using hnone, ?_⟩
          simpa [or_left_comm, or_assoc] using hid

namespace Flow

variable {f : Flow}

theorem lookup_positions (f : Flow) (id : String) : f.positions.lookup id = f.ids.idxOf? id := by
  simp [positions, lookup_positionsFrom]

/-- A step is found at the position that the table has for its id. -/
theorem find?_eq_positions (f : Flow) (id : String) :
    f.find? id = (f.positions.lookup id).bind fun k => f.places[k]? := by
  rw [lookup_positions, ← map_id_places, List.idxOf?, List.findIdx?_map, find?,
    List.find?_eq_bind_findIdx?_getElem?]
  rfl

theorem nodup_positions (f : Flow) : (f.positions.map Prod.fst).Nodup :=
  nodup_positionsFrom List.nodup_nil

theorem duplicateId?_eq_none_iff : f.duplicateId? = none ↔ f.ids.Nodup := by
  simp [duplicateId?, firstRepeated_eq_none_iff]

theorem duplicateId?_eq_some_iff {id : String} :
    f.duplicateId? = some id ↔
      ∃ pre post, f.ids = pre ++ id :: post ∧ pre.Nodup ∧ id ∈ pre := by
  simp [duplicateId?, firstRepeated_eq_some_iff, firstRepeated_eq_none_iff]

end Flow

end Workflow
