import Mathlib
import Workflow.Proofs.Front.Ledger

namespace Workflow

namespace Ledger

/-- How many shares of a fork, or of the main path, are held. -/
def held (shares : Multiset Share) (fork : Option String) : Nat :=
  shares.countP fun s => s.1 = fork

/-- The lanes that the shares of a fork are held in. -/
def occupied (shares : Multiset Share) (id : String) : Multiset String :=
  (shares.filter fun s => s.1 = some id).map Prod.snd

theorem held_cons_self (shares : Multiset Share) (s : Share) :
    held (s ::ₘ shares) s.1 = held shares s.1 + 1 :=
  Multiset.countP_cons_of_pos shares rfl

theorem held_cons_of_ne {shares : Multiset Share} {s : Share} {fork : Option String}
    (h : s.1 ≠ fork) : held (s ::ₘ shares) fork = held shares fork :=
  Multiset.countP_cons_of_neg shares h

theorem held_add (shares more : Multiset Share) (fork : Option String) :
    held (more + shares) fork = held more fork + held shares fork :=
  Multiset.countP_add _ more shares

theorem occupied_cons_self (shares : Multiset Share) (id lane : String) :
    occupied ((some id, lane) ::ₘ shares) id = lane ::ₘ occupied shares id := by
  unfold occupied
  rw [Multiset.filter_cons_of_pos (p := fun s : Share => s.1 = some id) shares rfl,
    Multiset.map_cons]

theorem occupied_cons_of_ne {shares : Multiset Share} {s : Share} {id : String}
    (h : s.1 ≠ some id) : occupied (s ::ₘ shares) id = occupied shares id := by
  unfold occupied
  rw [Multiset.filter_cons_of_neg shares h]

theorem occupied_le_cons (shares : Multiset Share) (s : Share) (id : String) :
    occupied shares id ≤ occupied (s ::ₘ shares) id :=
  Multiset.map_le_map (Multiset.filter_le_filter _ (Multiset.le_cons_self shares s))

theorem occupied_add (shares more : Multiset Share) (id : String) :
    occupied (more + shares) id = occupied more id + occupied shares id := by
  unfold occupied
  rw [Multiset.filter_add, Multiset.map_add]

theorem card_occupied (shares : Multiset Share) (id : String) :
    (occupied shares id).card = held shares (some id) := by
  unfold occupied held
  rw [Multiset.card_map, Multiset.countP_eq_card_filter]

theorem occupied_eq_zero {shares : Multiset Share} {id : String}
    (h : ∀ s ∈ shares, s.1 ≠ some id) : occupied shares id = 0 := by
  unfold occupied
  rw [Multiset.filter_eq_nil.mpr h, Multiset.map_zero]

/-- The shares of paths of a fork are held by that fork alone. -/
theorem held_paths (id : String) (ps : List (Path Step)) (fork : Option String) :
    held ((ps.map fun p => (some id, p.id) : List Share) : Multiset Share) fork =
      if fork = some id then ps.length else 0 := by
  unfold held
  rw [Multiset.coe_countP, List.countP_map]
  by_cases h : fork = some id
  · rw [if_pos h, List.countP_eq_length]
    exact fun p _ => decide_eq_true h.symm
  · rw [if_neg h, List.countP_eq_zero]
    exact fun p _ he => h (of_decide_eq_true he).symm

theorem occupied_paths (id : String) (ps : List (Path Step)) :
    occupied ((ps.map fun p => (some id, p.id) : List Share) : Multiset Share) id =
      (ps.map Path.id : List String) := by
  induction ps with
  | nil => rfl
  | cons p rest ih =>
    rw [List.map_cons, ← Multiset.cons_coe, occupied_cons_self, ih, Multiset.cons_coe,
      List.map_cons]

theorem occupied_paths_of_ne {id other : String} (h : id ≠ other) (ps : List (Path Step)) :
    occupied ((ps.map fun p => (some id, p.id) : List Share) : Multiset Share) other = 0 := by
  rw [← Multiset.card_eq_zero, card_occupied, held_paths, if_neg]
  exact fun he => h (Option.some.inj he).symm

/-- What a fork counts: whether it has joined, and its paths that are done or under way. -/
structure Sound (shares : Multiset Share) (g : Fork) : Prop where
  joined : g.joined = g.isEnough
  ne : g.paths ≠ []
  lanes : (g.finished : Multiset String) + occupied shares g.id ≤ (g.paths : Multiset String)

namespace Sound

variable {shares : Multiset Share} {g : Fork}

theorem mono {fewer : Multiset Share} (h : Sound shares g)
    (hle : occupied fewer g.id ≤ occupied shares g.id) : Sound fewer g :=
  ⟨h.joined, h.ne, (Multiset.add_le_add_left hle).trans h.lanes⟩

theorem length_le (h : Sound shares g) :
    g.finished.length + held shares (some g.id) ≤ g.paths.length := by
  have := Multiset.card_le_card h.lanes
  rwa [Multiset.card_add, Multiset.coe_card, Multiset.coe_card, card_occupied] at this

/-- A fork that waits still waits for one of its paths. -/
theorem finished_lt (h : Sound shares g) (hj : g.joined = false) :
    g.finished.length < g.paths.length := by
  rcases Nat.lt_or_ge g.finished.length g.paths.length with hlt | hge
  · exact hlt
  · have hpos := List.length_pos_iff.mpr h.ne
    have hne : g.finished ≠ [] := List.length_pos_iff.mp (by omega)
    have henough : g.isEnough = true := by
      simp only [Fork.isEnough, Quorum.isSatisfied, Bool.and_eq_true, Bool.not_eq_true',
        List.isEmpty_eq_false_iff]
      refine ⟨hne, ?_⟩
      cases g.join <;> simp only [Bool.or_eq_true, decide_eq_true_eq] <;> omega
    rw [h.joined, henough] at hj
    cases hj

/-- When all have to report, no share of a fork that has joined is left. -/
theorem held_eq_zero (h : Sound shares g) (hall : g.join = .all) (hj : g.joined = true) :
    held shares (some g.id) = 0 := by
  have hlen := h.length_le
  rw [h.joined] at hj
  simp only [Fork.isEnough, hall, Quorum.isSatisfied, Bool.and_eq_true, decide_eq_true_eq] at hj
  omega

/-- A lane that a share is held in has not reported, if the paths differ. -/
theorem not_finished {lane : String} (h : Sound ((some g.id, lane) ::ₘ shares) g)
    (hd : g.paths.Nodup) : lane ∉ g.finished := by
  intro hm
  have hcount := Multiset.count_le_of_le lane h.lanes
  rw [occupied_cons_self, Multiset.count_add, Multiset.count_cons_self, Multiset.coe_count,
    Multiset.coe_count] at hcount
  have hone := List.nodup_iff_count_le_one.mp hd lane
  have hpos := List.count_pos_iff.mpr hm
  omega

/-- A report takes the share of its path away from what the fork is owed. -/
theorem report {lane : String} (h : Sound ((some g.id, lane) ::ₘ shares) g) :
    Sound shares (g.report lane) := by
  have hid : (g.report lane).id = g.id := by
    unfold Fork.report
    split <;> rfl
  have hlanes := h.lanes
  rw [occupied_cons_self] at hlanes
  refine ⟨?_, ?_, ?_⟩
  · unfold Fork.report Fork.isEnough
    split
    · rename_i hm
      simp [List.ne_nil_of_mem hm]
    · simp
  · unfold Fork.report
    split <;> exact h.ne
  · rw [hid]
    unfold Fork.report
    split
    · refine (Multiset.add_le_add_left ?_).trans hlanes
      exact Multiset.le_cons_self _ lane
    · rw [← Multiset.coe_add, Multiset.add_assoc]
      exact hlanes

end Sound

/-- The shares of the paths with steps, and those without, are the paths of a new fork. -/
theorem sound_split {f : Flow} {policy : EnginePolicy} {shares : Multiset Share} {g : Fork}
    {o : Place} {kind : BranchKind} {paths taken : List (Path Step)}
    (hs : g.Stems f policy o kind paths taken)
    (hf : g.finished = (taken.filter fun p => p.steps.isEmpty).map Path.id)
    (hj : g.joined = g.isEnough) (hn : ∀ s ∈ shares, s.1 ≠ some g.id) :
    Sound (((taken.filter fun p => !p.steps.isEmpty).map fun p => (some g.id, p.id) : List Share) +
      shares) g := by
  refine ⟨hj, ?_, ?_⟩
  · rw [hs.ids]
    simpa using hs.ne
  · rw [occupied_add, occupied_paths, occupied_eq_zero hn, Multiset.add_zero, hf, hs.ids,
      Multiset.coe_add, ← List.map_append]
    exact le_of_eq (Multiset.coe_eq_coe.mpr ((List.filter_append_perm _ taken).map Path.id))

variable {f : Flow} {policy : EnginePolicy} {l l' : Ledger}

/-- Every shift keeps the forks sound. -/
theorem Shift.sound (h : Shift f policy l l') (hl : ∀ g ∈ l.forks, Sound l.shares g) :
    ∀ g ∈ l'.forks, Sound l'.shares g := by
  cases h with
  | stay => exact hl
  | absorb _ => exact fun g hg => (hl g hg).mono (occupied_le_cons _ _ _)
  | finish _ _ => exact fun g hg => (hl g hg).mono (occupied_le_cons _ _ _)
  | @report shares pre post ended g lane hd hj =>
    intro k hk
    have hother : ∀ k ∈ pre ++ post, Sound shares k := fun k hk =>
      (hl k (by simp only [List.mem_append, List.mem_cons] at hk ⊢; tauto)).mono
        (occupied_le_cons _ _ _)
    simp only [List.mem_append, List.mem_cons] at hk
    rcases hk with hk | rfl | hk
    · exact hother k (List.mem_append_left _ hk)
    · exact (hl g (by simp)).report
    · exact hother k (List.mem_append_right _ hk)
  | @split shares forks ended g o kind paths taken hs hf hj hd hn =>
    intro k hk
    rcases List.mem_append.mp hk with hk | hk
    · have hne : k.id ≠ g.id := fun he => hd (he ▸ List.mem_map_of_mem hk)
      refine (hl k hk).mono (le_of_eq ?_)
      rw [occupied_add, occupied_paths_of_ne hne.symm, Multiset.zero_add]
    · rw [List.mem_singleton.mp hk]
      exact sound_split hs hf hj hn
  | @goto shares forks ended s p target hp hb hd =>
    intro g hg
    refine (hl g hg).mono ?_
    rw [occupied_cons_of_ne (by simp)]
    exact occupied_le_cons _ _ _

/-- The paths of a fork that are neither done nor under way. -/
def missing (shares : Multiset Share) (g : Fork) : Nat :=
  g.paths.length - g.finished.length - held shares (some g.id)

/-- The missing paths of all forks that wait. -/
def gap (shares : Multiset Share) (forks : List Fork) : Nat :=
  ((forks.filter fun g => !g.joined).map (missing shares)).sum

theorem gap_append (shares : Multiset Share) (as bs : List Fork) :
    gap shares (as ++ bs) = gap shares as + gap shares bs := by
  unfold gap
  rw [List.filter_append, List.map_append, List.sum_append]

theorem gap_cons (shares : Multiset Share) (g : Fork) (gs : List Fork) :
    gap shares (g :: gs) = (if g.joined then 0 else missing shares g) + gap shares gs := by
  unfold gap
  cases h : g.joined <;> simp [h]

theorem gap_congr {shares more : Multiset Share} {forks : List Fork}
    (h : ∀ g ∈ forks, g.joined = false → held more (some g.id) = held shares (some g.id)) :
    gap more forks = gap shares forks := by
  unfold gap
  congr 1
  apply List.map_congr_left
  intro g hg
  obtain ⟨hm, hj⟩ := List.mem_filter.mp hg
  unfold missing
  rw [h g hm (by simpa using hj)]

/-- A share of the main path or of a fork that has joined fills no gap. -/
theorem gap_cons_of_ne {shares : Multiset Share} {s : Share} {forks : List Fork}
    (h : ∀ g ∈ forks, g.joined = false → s.1 ≠ some g.id) :
    gap (s ::ₘ shares) forks = gap shares forks :=
  gap_congr fun g hg hj => held_cons_of_ne (h g hg hj)

/-- Without one of its shares, at most one fork misses at most one path more. -/
theorem gap_le_cons (shares : Multiset Share) (s : Share) {forks : List Fork}
    (hd : (forks.map Fork.id).Nodup) : gap shares forks ≤ gap (s ::ₘ shares) forks + 1 := by
  induction forks with
  | nil => exact Nat.zero_le _
  | cons g gs ih =>
    rw [List.map_cons, List.nodup_cons] at hd
    rw [gap_cons, gap_cons]
    by_cases he : s.1 = some g.id
    · have hrest : gap (s ::ₘ shares) gs = gap shares gs := by
        apply gap_cons_of_ne
        intro k hk _
        rw [he]
        intro hid
        exact hd.1 (Option.some.inj hid ▸ List.mem_map_of_mem hk)
      have hself := held_cons_self shares s
      rw [he] at hself
      rw [hrest]
      unfold missing
      split <;> omega
    · have hself : missing (s ::ₘ shares) g = missing shares g := by
        unfold missing
        rw [held_cons_of_ne he]
      have := ih hd.2
      rw [hself]
      omega

/-- Giving up a share costs the main path its share, or one fork one of its paths. -/
theorem gap_release (shares : Multiset Share) (s : Share) {forks : List Fork}
    (hd : (forks.map Fork.id).Nodup) :
    gap shares forks + held (s ::ₘ shares) none ≤
      gap (s ::ₘ shares) forks + held shares none + 1 := by
  by_cases he : s.1 = none
  · have hself := held_cons_self shares s
    have hsame : gap (s ::ₘ shares) forks = gap shares forks :=
      gap_cons_of_ne fun g _ _ => by simp [he]
    rw [he] at hself
    omega
  · have hgap := gap_le_cons shares s hd
    have hnone := @held_cons_of_ne shares _ _ he
    omega

/-- A report fills the gap that its share leaves. -/
theorem missing_report {shares : Multiset Share} {g : Fork} {lane : String}
    (h : Sound ((some g.id, lane) ::ₘ shares) g) (hd : g.paths.Nodup) :
    (if (g.report lane).joined then 0 else missing shares (g.report lane)) ≤
      missing ((some g.id, lane) ::ₘ shares) g := by
  have hnew := h.not_finished hd
  have hlen := h.length_le
  have hself := held_cons_self shares (some g.id, lane)
  split
  · exact Nat.zero_le _
  · unfold missing Fork.report
    simp only [if_neg hnew, List.length_append, List.length_singleton]
    simp only at hself hlen
    omega

/-- A new fork misses no path: those with steps are under way, the others are done. -/
theorem gap_split {shares : Multiset Share} {g : Fork} {o : Place} {kind : BranchKind}
    {paths taken : List (Path Step)} (hs : g.Stems f policy o kind paths taken)
    (hf : g.finished = (taken.filter fun p => p.steps.isEmpty).map Path.id) :
    gap (((taken.filter fun p => !p.steps.isEmpty).map fun p => (some g.id, p.id) :
      List Share) + shares) [g] = 0 := by
  have hsplit := (List.filter_append_perm (fun p : Path Step => p.steps.isEmpty) taken).length_eq
  rw [List.length_append] at hsplit
  rw [gap_cons]
  split
  · rfl
  · unfold missing
    rw [held_add, held_paths, if_pos rfl, hs.ids, hf, List.length_map, List.length_map]
    simp only [gap, List.filter_nil, List.map_nil, List.sum_nil]
    omega

/-- As long as a run is not over, the main path holds a share, and one more for each path that is
missing in a fork. -/
def Balanced (l : Ledger) : Prop :=
  1 + gap l.shares l.forks ≤ l.ended + held l.shares none

/-- Every shift keeps the ledger balanced, as long as the paths of each fork differ. -/
theorem Shift.balanced (h : Shift f policy l l') (hl : ∀ g ∈ l.forks, Sound l.shares g)
    (hp : ∀ g ∈ l.forks, g.paths.Nodup) (hb : l.Balanced) : l'.Balanced := by
  unfold Balanced at hb ⊢
  cases h with
  | stay => exact hb
  | @absorb shares forks ended id lane hj =>
    have hgap : gap ((some id, lane) ::ₘ shares) forks = gap shares forks := by
      apply gap_cons_of_ne
      intro g hg hw he
      rw [hj g hg (Option.some.inj he).symm] at hw
      cases hw
    rwa [hgap, held_cons_of_ne (by simp)] at hb
  | @finish shares forks ended s hd hs =>
    have hrelease := gap_release shares s hd
    simp only at hb ⊢
    omega
  | @report shares pre post ended g lane hd hj =>
    have hmem : g ∈ pre ++ g :: post := by simp
    have hmiss := missing_report (hl g hmem) (hp g hmem)
    have hsame : ∀ ks : List Fork, ks ⊆ pre ++ post →
        gap ((some g.id, lane) ::ₘ shares) ks = gap shares ks := by
      intro ks hks
      apply gap_cons_of_ne
      intro k hk _ he
      exact hd k (hks hk) (Option.some.inj he).symm
    rw [gap_append, gap_cons, hsame pre (List.subset_append_left _ _),
      hsame post (List.subset_append_right _ _), held_cons_of_ne (by simp)] at hb
    rw [gap_append, gap_cons]
    simp only [hj, Bool.false_eq_true, if_false] at hb ⊢
    omega
  | @split shares forks ended g o kind paths taken hs hf hj hd hn =>
    have hold : gap (((taken.filter fun p => !p.steps.isEmpty).map fun p => (some g.id, p.id) :
        List Share) + shares) forks = gap shares forks := by
      apply gap_congr
      intro k hk _
      rw [held_add, held_paths, if_neg, Nat.zero_add]
      intro he
      exact hd (Option.some.inj he ▸ List.mem_map_of_mem hk)
    simp only at hb ⊢
    rw [gap_append, hold, gap_split hs hf, held_add, held_paths, if_neg (by simp)]
    omega
  | @goto shares forks ended s p target hp' hb' hd =>
    have hrelease := gap_release shares s hd
    have hself := held_cons_self shares (none, "")
    have hnew : gap ((none, "") ::ₘ shares) forks = gap shares forks :=
      gap_cons_of_ne fun g _ _ => by simp
    simp only at hb hself ⊢
    omega

end Ledger

end Workflow
