import Fnprint.Assignment

/-!
# What a run of the rounds goes through

Whatever the weight and the number of rounds, the last assignment is read off
candidates of the band index, re-scored by an earlier one-to-one assignment of
such candidates.  The threshold only filters it.
-/

namespace Fnprint

open Binary64 StableSort KeyMap GreedyMatching

/-- The assignment the threshold is applied to. -/
def lastAssign (a b : List Node) (graphWeight : Float) (rounds : ℕ) : List Pair :=
  let w := maxNum graphWeight 0.0
  let first := assignGreedy (candidatesFrom (pool b) a b) a b w
  propagate a b w (if 0.0 < w then rounds else 0) first.1 first.2

theorem align_eq_filter (a b : List Node) (opts : Opts) :
    align a b opts = sortBy (acceptCmp a)
      ((lastAssign a b opts.graphWeight opts.rounds).filter fun p ↦ opts.threshold ≤ p.score) :=
  rfl

/-- An assignment of candidate pairs. -/
structure Assigned (a b : List Node) (assign : List Pair) : Prop where
  oneToOne : OneToOne a b assign
  cand : ∀ p ∈ assign, candOf a b p.a p.b ∈ candidatesFrom (pool b) a b

/-- The candidates of a round: the first ones, with the graph scores of an
earlier assignment or none yet. -/
structure Round (a b : List Node) (cands : List Cand) : Prop where
  cand : ∀ c ∈ cands, candOf a b c.a c.b ∈ candidatesFrom (pool b) a b
  sim : ∀ c ∈ cands, c.sim = (candOf a b c.a c.b).sim
  graph : ∀ c ∈ cands, c.graph = 0.0 ∨ ∃ assign, Assigned a b assign ∧
    c.graph = graphScore c.a c.b (partners a.length assign) (pairedB b.length assign) (graphOf a b)

section Round

variable {a b : List Node} {cands : List Cand}

theorem inRange_pool (a b : List Node) : InRange a b (candidatesFrom (pool b) a b) :=
  inRange_candidatesFrom fun _ _ hj ↦ lt_of_mem_pool hj

theorem Round.inRange (h : Round a b cands) : InRange a b cands :=
  fun c hc ↦ inRange_pool a b (candOf a b c.a c.b) (h.cand c hc)

theorem round_candidates (a b : List Node) : Round a b (candidatesFrom (pool b) a b) where
  cand c hc := by
    have heq := (mem_candidatesFrom.mp hc).2.2.2
    rwa [← heq]
  sim c hc := congrArg Cand.sim (mem_candidatesFrom.mp hc).2.2.2
  graph c hc := Or.inl (congrArg Cand.graph (mem_candidatesFrom.mp hc).2.2.2)

theorem Round.sort (h : Round a b cands) (cmp : Cand → Cand → Ordering) :
    Round a b (sortBy cmp cands) where
  cand c hc := h.cand c ((mem_sortBy cmp).mp hc)
  sim c hc := h.sim c ((mem_sortBy cmp).mp hc)
  graph c hc := h.graph c ((mem_sortBy cmp).mp hc)

theorem Round.assigned (h : Round a b cands) (w : Float) :
    Assigned a b (pairsOf w (kept a b w cands)) where
  oneToOne := oneToOne_pairsOf h.inRange w
  cand p hp := by
    obtain ⟨c, hc, rfl⟩ := List.mem_map.mp ((perm_pairsOf w _).mem_iff.mp hp)
    exact h.cand c (mem_kept hc)

theorem Round.regraph (h : Round a b cands) {assign : List Pair} (hassign : Assigned a b assign) :
    Round a b (regraph a b assign cands) where
  cand c hc := by
    obtain ⟨d, hd, rfl⟩ := List.mem_map.mp hc
    exact h.cand d hd
  sim c hc := by
    obtain ⟨d, hd, rfl⟩ := List.mem_map.mp hc
    exact h.sim d hd
  graph c hc := by
    obtain ⟨d, -, rfl⟩ := List.mem_map.mp hc
    exact Or.inr ⟨assign, hassign, rfl⟩

end Round

/-! ## The run of the rounds -/

/-- One round: the candidates are scored by the last assignment and assigned again. -/
def nextRound (a b : List Node) (w : Float) (s : List Cand × List Pair) :
    List Cand × List Pair :=
  assignGreedy (regraph a b s.2 s.1) a b w

/-- The candidates and the assignment after some rounds. -/
def afterRounds (a b : List Node) (w : Float) (k : ℕ) : List Cand × List Pair :=
  (nextRound a b w)^[k] (assignGreedy (candidatesFrom (pool b) a b) a b w)

theorem afterRounds_succ (a b : List Node) (w : Float) (k : ℕ) :
    afterRounds a b w (k + 1) = nextRound a b w (afterRounds a b w k) :=
  Function.iterate_succ_apply' _ _ _

theorem exists_propagate_eq (a b : List Node) (w : Float) (rounds : ℕ)
    (s : List Cand × List Pair) :
    ∃ k ≤ rounds, propagate a b w rounds s.1 s.2 = ((nextRound a b w)^[k] s).2 := by
  induction rounds generalizing s with
  | zero => exact ⟨0, le_refl 0, rfl⟩
  | succ rounds ih =>
      rw [propagate]
      dsimp only
      split
      · exact ⟨1, by omega, rfl⟩
      · obtain ⟨k, hk, heq⟩ := ih (nextRound a b w s)
        exact ⟨k + 1, by omega, heq⟩

/-- The rounds stop early or run out; without a positive weight none is run. -/
theorem exists_lastAssign_eq (a b : List Node) (graphWeight : Float) (rounds : ℕ) :
    ∃ k ≤ if 0.0 < maxNum graphWeight 0.0 then rounds else 0,
      lastAssign a b graphWeight rounds = (afterRounds a b (maxNum graphWeight 0.0) k).2 :=
  exists_propagate_eq a b _ _ (afterRounds a b (maxNum graphWeight 0.0) 0)

/-- Candidates with the assignment read off them. -/
structure RunState (a b : List Node) (w : Float) (s : List Cand × List Pair) : Prop where
  round : Round a b s.1
  assigned : Assigned a b s.2
  pairs : ∀ p ∈ s.2, ∃ c ∈ s.1, p = toPair w c

section Run

variable {a b : List Node} {w : Float}

theorem Round.runState {cands : List Cand} (h : Round a b cands) (w : Float) :
    RunState a b w (assignGreedy cands a b w) := by
  rw [assignGreedy_eq h.inRange]
  refine ⟨h.sort _, h.assigned w, fun p hp ↦ ?_⟩
  obtain ⟨c, hc, rfl⟩ := List.mem_map.mp ((perm_pairsOf w _).mem_iff.mp hp)
  exact ⟨c, (mem_sortBy _).mpr (mem_kept hc), rfl⟩

/-- Every round hands the next one an assignment of its candidates. -/
theorem runState_afterRounds (a b : List Node) (w : Float) (k : ℕ) :
    RunState a b w (afterRounds a b w k) := by
  induction k with
  | zero => exact (round_candidates a b).runState w
  | succ k ih =>
      rw [afterRounds_succ]
      exact (ih.round.regraph ih.assigned).runState w

theorem assigned_lastAssign (a b : List Node) (graphWeight : Float) (rounds : ℕ) :
    Assigned a b (lastAssign a b graphWeight rounds) := by
  obtain ⟨k, -, heq⟩ := exists_lastAssign_eq a b graphWeight rounds
  rw [heq]
  exact (runState_afterRounds a b _ k).assigned

theorem OneToOne.of_sublist {assign assign' : List Pair} (h : OneToOne a b assign)
    (hsub : assign'.Sublist assign) : OneToOne a b assign' where
  range p hp := h.range p (hsub.subset hp)
  nodup_a := h.nodup_a.sublist (hsub.map Pair.a)
  nodup_b := h.nodup_b.sublist (hsub.map Pair.b)

theorem Assigned.of_sublist {assign assign' : List Pair} (h : Assigned a b assign)
    (hsub : assign'.Sublist assign) : Assigned a b assign' where
  oneToOne := h.oneToOne.of_sublist hsub
  cand p hp := h.cand p (hsub.subset hp)

theorem Assigned.perm {assign assign' : List Pair} (h : Assigned a b assign)
    (hperm : assign'.Perm assign) : Assigned a b assign' where
  oneToOne :=
    { range := fun p hp ↦ h.oneToOne.range p (hperm.mem_iff.mp hp)
      nodup_a := (hperm.map Pair.a).nodup_iff.mpr h.oneToOne.nodup_a
      nodup_b := (hperm.map Pair.b).nodup_iff.mpr h.oneToOne.nodup_b }
  cand p hp := h.cand p (hperm.mem_iff.mp hp)

/-- What `align` returns is one-to-one and made of candidate pairs. -/
theorem assigned_align (a b : List Node) (opts : Opts) : Assigned a b (align a b opts) := by
  rw [align_eq_filter]
  exact ((assigned_lastAssign a b _ _).of_sublist List.filter_sublist).perm (perm_sortBy _ _)

theorem Assigned.usable_a {assign : List Pair} (h : Assigned a b assign) {p : Pair}
    (hp : p ∈ assign) : p.a ∈ usableIdx a := (mem_candidatesFrom.mp (h.cand p hp)).1

theorem Assigned.usable_b {assign : List Pair} (h : Assigned a b assign) {p : Pair}
    (hp : p ∈ assign) : p.b ∈ usableIdx b :=
  (mem_pool.mp (mem_candidatesFrom.mp (h.cand p hp)).2.1).1

end Run

/-! ## The threshold -/

/-- Raising the threshold only removes pairs. -/
theorem align_filter_threshold (a b : List Node) (graphWeight : Float) (rounds : ℕ) {t₁ t₂ : Float}
    (h : t₁ ≤ t₂) : align a b ⟨t₂, graphWeight, rounds⟩ =
      (align a b ⟨t₁, graphWeight, rounds⟩).filter fun p ↦ t₂ ≤ p.score := by
  rw [align_eq_filter, align_eq_filter, filter_sortBy, List.filter_filter]
  congr 1
  apply List.filter_congr
  intro p _
  cases hp : decide (t₂ ≤ p.score) with
  | false => rfl
  | true =>
      have hle : t₁ ≤ p.score := float_le_trans h (of_decide_eq_true hp)
      rw [Bool.true_and, decide_eq_true hle]

end Fnprint
