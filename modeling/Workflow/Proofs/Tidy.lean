import Workflow.Proofs.Growth

namespace Workflow

/-- The first `n` identifiers of each kind differ, as random ones do. -/
def Engine.DistinctIds (e : Engine) (n : Nat) : Prop :=
  ∀ kind i j, i < n → j < n → e.newId kind i = e.newId kind j → i = j

theorem Engine.DistinctIds.mono {e : Engine} {n k : Nat} (h : e.DistinctIds n) (hk : k ≤ n) :
    e.DistinctIds k :=
  fun kind i j hi hj => h kind i j (Nat.lt_of_lt_of_le hi hk) (Nat.lt_of_lt_of_le hj hk)

def Mark.Apart (j k : Mark) : Prop :=
  j.step = k.step → j.standing ≠ .expected ∧ k.standing ≠ .expected

theorem Mark.Apart.symm {j k : Mark} (h : j.Apart k) : k.Apart j :=
  fun he => (h he.symm).symm

structure Session.Tidy (e : Engine) (s : Session) : Prop where
  distinct : (s.run.marks.map Mark.id).Nodup
  executions : ∀ k ∈ s.run.marks, ∃ n < s.log.drawn, k.id = e.newId "exec" n
  forks : ∀ g ∈ s.run.forks, ∃ n < s.log.drawn, g.id = e.newId "pg" n
  lone : s.run.marks.Pairwise Mark.Apart

namespace Session

variable {e : Engine} {s s' : Session} {k : Mark} {standing : Standing}

theorem Tidy.frame (h : s.Tidy e) (hmarks : s'.run.marks = s.run.marks)
    (hforks : s'.run.forks = s.run.forks) (hdrawn : s.log.drawn ≤ s'.log.drawn) : s'.Tidy e := by
  refine ⟨hmarks ▸ h.distinct, ?_, ?_, hmarks ▸ h.lone⟩
  · intro k hk
    obtain ⟨n, hn, hid⟩ := h.executions k (hmarks ▸ hk)
    exact ⟨n, Nat.lt_of_lt_of_le hn hdrawn, hid⟩
  · intro g hg
    obtain ⟨n, hn, hid⟩ := h.forks g (hforks ▸ hg)
    exact ⟨n, Nat.lt_of_lt_of_le hn hdrawn, hid⟩

/-- A mark may change that is not expected any more. -/
theorem Tidy.swap {pre post : List Mark} {j : Mark} (h : s.Tidy e) (hkeeps : s.Keeps s')
    (hs : s.run.marks = pre ++ j :: post) (hs' : s'.run.marks = pre ++ k :: post)
    (hid : k.id = j.id) (hk : k.standing ≠ .expected)
    (hothers : ∀ i ∈ pre ++ post, i.step = k.step → i.standing ≠ .expected) :
    s'.Tidy e := by
  have hids : s'.run.marks.map Mark.id = s.run.marks.map Mark.id := by
    simp [hs, hs', hid]
  have hlone := h.lone
  rw [hs, List.pairwise_middle fun h => h.symm, List.pairwise_cons] at hlone
  refine ⟨hids ▸ h.distinct, ?_, ?_, ?_⟩
  · intro i hi
    have hmem : i.id ∈ s.run.marks.map Mark.id := hids ▸ List.mem_map_of_mem hi
    obtain ⟨i', hi', he⟩ := List.mem_map.mp hmem
    obtain ⟨n, hn, hid⟩ := h.executions i' hi'
    exact ⟨n, Nat.lt_of_lt_of_le hn hkeeps.drawn, he ▸ hid⟩
  · intro g hg
    obtain ⟨n, hn, hid⟩ := h.forks g (hkeeps.forks ▸ hg)
    exact ⟨n, Nat.lt_of_lt_of_le hn hkeeps.drawn, hid⟩
  · rw [hs', List.pairwise_middle fun h => h.symm, List.pairwise_cons]
    refine ⟨fun i hi he => ⟨hk, hothers i hi he.symm⟩, hlone.2⟩

theorem Tidy.closes (h : s.Tidy e) (hkeeps : s.Keeps s') (hs : s.Closes s' k standing) :
    s'.Tidy e := by
  obtain ⟨pre, post, hm, hm'⟩ := hs.marks
  refine h.swap hkeeps hm hm' rfl (Standing.ne_of_isOver hs.isOver).1 ?_
  have hlone := h.lone
  rw [hm, List.pairwise_middle fun h => h.symm, List.pairwise_cons] at hlone
  exact fun i hi he => (hlone.1 i hi he.symm).2

theorem Tidy.fresh {n : Nat} (h : s.Tidy e) (ids : e.DistinctIds n) (hn : s.log.drawn < n) :
    e.nextId s "exec" ∉ s.run.marks.map Mark.id := by
  intro hmem
  obtain ⟨k, hk, he⟩ := List.mem_map.mp hmem
  obtain ⟨i, hi, hid⟩ := h.executions k hk
  have := ids "exec" i s.log.drawn (Nat.lt_trans hi hn) hn (hid.symm.trans he)
  omega

theorem Tidy.fresh_fork {n : Nat} (h : s.Tidy e) (ids : e.DistinctIds n) (hn : s.log.drawn < n) :
    e.nextId s "pg" ∉ s.run.forks.map Fork.id := by
  intro hmem
  obtain ⟨g, hg, he⟩ := List.mem_map.mp hmem
  obtain ⟨i, hi, hid⟩ := h.forks g hg
  have := ids "pg" i s.log.drawn (Nat.lt_trans hi hn) hn (hid.symm.trans he)
  omega

/-- A record that is drawn next keeps a session tidy. -/
theorem Tidy.add (h : s.Tidy e) (ids : e.DistinctIds s'.log.drawn) (hkeeps : s.Keeps s')
    (hdrawn : s.log.drawn < s'.log.drawn) (hs' : s'.run.marks = s.run.marks ++ [k])
    (hid : k.id = e.nextId s "exec") (hk : ∀ j ∈ s.run.marks, j.Apart k) : s'.Tidy e := by
  refine ⟨?_, ?_, ?_, ?_⟩
  · rw [hs', List.map_append, List.map_singleton]
    exact h.distinct.append (List.nodup_singleton _) (by simpa [hid] using h.fresh ids hdrawn)
  · intro j hj
    rw [hs'] at hj
    rcases List.mem_append.mp hj with hj | hj
    · obtain ⟨n, hn, hid⟩ := h.executions j hj
      exact ⟨n, Nat.lt_trans hn hdrawn, hid⟩
    · rw [List.mem_singleton.mp hj]
      exact ⟨s.log.drawn, hdrawn, hid⟩
  · intro g hg
    obtain ⟨n, hn, hid⟩ := h.forks g (hkeeps.forks ▸ hg)
    exact ⟨n, Nat.lt_trans hn hdrawn, hid⟩
  · rw [hs', List.pairwise_append]
    exact ⟨h.lone, List.pairwise_singleton _ _, by simpa using hk⟩

theorem Tidy.starts (h : s.Tidy e) (ids : e.DistinctIds s'.log.drawn) (hkeeps : s.Keeps s')
    (hk : k.standing = .underWay) (hs : s.Starts e s' k) : s'.Tidy e := by
  cases hs with
  | @expected pre post j hm hid hstep hj hm' =>
    refine h.swap hkeeps hm hm' hid.symm (by simp [hk]) ?_
    have hlone := h.lone
    rw [hm, List.pairwise_middle fun h => h.symm, List.pairwise_cons] at hlone
    exact fun i hi he => absurd hj (hlone.1 i hi (hstep.trans he.symm)).1
  | anew hnone hid hdrawn hm' =>
    exact h.add ids hkeeps hdrawn hm' hid fun j hj he => ⟨hnone j hj he, by simp [hk]⟩

/-- Forks only come with the next identifier. -/
theorem Tidy.settle {p : Planned} (h : s.Tidy e)
    (hp : p.forks.map Fork.id =
      s.run.forks.map Fork.id ++ if p.opened then [e.nextId s "pg"] else []) :
    (s.settle p).Tidy e := by
  refine ⟨h.distinct, ?_, ?_, h.lone⟩
  · intro k hk
    obtain ⟨n, hn, hid⟩ := h.executions k hk
    exact ⟨n, Nat.lt_of_lt_of_le hn (Nat.le_add_right _ _), hid⟩
  · intro g hg
    have hmem : g.id ∈ p.forks.map Fork.id := List.mem_map_of_mem hg
    rw [hp] at hmem
    rcases List.mem_append.mp hmem with hmem | hmem
    · obtain ⟨g', hg', he⟩ := List.mem_map.mp hmem
      obtain ⟨n, hn, hid⟩ := h.forks g' hg'
      exact ⟨n, Nat.lt_of_lt_of_le hn (Nat.le_add_right _ _), he ▸ hid⟩
    · split at hmem
      · rename_i hopened
        refine ⟨s.log.drawn, ?_, List.mem_singleton.mp hmem⟩
        simp [Session.settle, draw, hopened]
      · cases hmem

theorem Closes.strands (h : s.Closes s' k standing) :
    Mark.strands s.run.marks = k.strand ::ₘ Mark.strands s'.run.marks := by
  obtain ⟨pre, post, hm, hm'⟩ := h.marks
  rw [hm, hm', Mark.strands_middle, Mark.strands_middle, if_pos h.underWay,
    if_neg (Standing.ne_of_isOver h.isOver).2]

theorem Closes.visited (h : s.Closes s' k standing) :
    Mark.visited s'.run.marks = Mark.visited s.run.marks := by
  obtain ⟨pre, post, hm, hm'⟩ := h.marks
  rw [hm, hm', Mark.visited_middle, Mark.visited_middle,
    if_neg (Standing.ne_of_isOver h.isOver).1, if_neg (by simp [h.underWay])]
  rfl

theorem Starts.strands (h : s.Starts e s' k) (hk : k.standing = .underWay) :
    Mark.strands s'.run.marks = k.strand ::ₘ Mark.strands s.run.marks := by
  cases h with
  | expected hm _ _ hj hm' =>
    rw [hm, hm', Mark.strands_middle, Mark.strands_middle, if_pos hk, if_neg (by simp [hj])]
  | anew _ _ _ hm' =>
    rw [hm', Mark.strands_middle, if_pos hk, List.append_nil]

theorem Starts.visited (h : s.Starts e s' k) (hk : k.standing = .underWay) :
    Mark.visited s'.run.marks = k.activation ::ₘ Mark.visited s.run.marks := by
  cases h with
  | expected hm _ _ hj hm' =>
    rw [hm, hm', Mark.visited_middle, Mark.visited_middle, if_neg (by simp [hk]), if_pos hj]
  | anew _ _ _ hm' =>
    rw [hm', Mark.visited_middle, if_neg (by simp [hk]), List.append_nil]

theorem Starts.mem (h : s.Starts e s' k) : k ∈ s'.run.marks := by
  cases h with
  | expected _ _ _ _ hm' => simp [hm']
  | anew _ _ _ hm' => simp [hm']

/-- If identifiers differ, finishing an execution completes none but that. -/
theorem closes_of_nodup (hd : (s.run.marks.map Mark.id).Nodup) (hk : k ∈ s.run.marks)
    (hst : k.standing = .underWay) (result : Record) (now : Instant) :
    s.Closes (s.finish k.id result now) k .completed := by
  obtain ⟨pre, post, hm⟩ := List.append_of_mem hk
  refine Session.closes_finish result now hm ?_ hst
  rw [hm, (List.perm_middle.map Mark.id).nodup_iff, List.map_cons, List.nodup_cons] at hd
  exact fun j hj he => hd.1 (he ▸ List.mem_map_of_mem (List.mem_append_left _ hj))

theorem Tidy.closes_finish (h : s.Tidy e) (hk : k ∈ s.run.marks) (hst : k.standing = .underWay)
    (result : Record) (now : Instant) : s.Closes (s.finish k.id result now) k .completed :=
  closes_of_nodup h.distinct hk hst result now

/-- A step that is expected has one execution. -/
theorem Tidy.count_of_expected {id : String} (h : s.Tidy e)
    (hk : ∃ k ∈ s.run.marks, k.step = id ∧ k.standing = .expected) :
    (s.run.marks.countP fun k => k.step = id) ≤ 1 := by
  obtain ⟨k, hk, rfl, hst⟩ := hk
  obtain ⟨pre, post, hm⟩ := List.append_of_mem hk
  have hlone := h.lone
  rw [hm, List.pairwise_middle fun h => h.symm, List.pairwise_cons] at hlone
  have hnone : (pre ++ post).countP (fun j => j.step = k.step) = 0 := by
    rw [List.countP_eq_zero]
    intro j hj he
    exact absurd hst (hlone.1 j hj (decide_eq_true_eq.mp he).symm).1
  rw [hm, List.perm_middle.countP_eq, List.countP_cons, hnone]
  simp

end Session

end Workflow
