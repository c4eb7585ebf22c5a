import Fnprint.InputOrder
import Fnprint.Rounds

/-!
# The early exit of the rounds

The loop stops when a round leaves the assignment unmoved.  From there on its
whole state repeats: the candidates already carry the scores of that
assignment and stand in the order they are sorted into.
-/

namespace Fnprint

open Binary64 StableSort

/-- The alignment with every round run. -/
def alignAllRounds (a b : List Node) (opts : Opts) : List Pair :=
  let w := weight opts
  let rounds := if 0.0 < w then opts.rounds else 0
  sortBy (acceptCmp a)
    ((afterRounds a b w rounds).2.filter fun p ↦ opts.threshold ≤ p.score)

/-- A round left the assignment as it was. -/
def Unmoved (a b : List Node) (w : Float) (s : List Cand × List Pair) : Prop :=
  ((nextRound a b w s).2 == s.2) = true

section Exit

variable {a b : List Node} {w : Float} {s : List Cand × List Pair}

theorem regraph_eq_self {assign : List Pair} {cands : List Cand}
    (h : ∀ c ∈ cands, c.graph = graphScore c.a c.b (partners a.length assign)
      (pairedB b.length assign) (graphOf a b)) : regraph a b assign cands = cands := by
  refine (List.map_congr_left fun c hc ↦ ?_).trans (List.map_id cands)
  rw [id_eq, ← h c hc]

theorem assignGreedy_sorted (cands : List Cand) :
    (assignGreedy cands a b w).1 = sortBy (candCmp a b w) cands := rfl

theorem assignGreedy_sortBy (cands : List Cand) :
    assignGreedy (sortBy (candCmp a b w) cands) a b w = assignGreedy cands a b w := by
  have hsorted : sortBy (candCmp a b w) (sortBy (candCmp a b w) cands) =
      sortBy (candCmp a b w) cands :=
    sortBy_eq_self _ (pairwise_sortBy _ cands)
  simp only [assignGreedy, hsorted]

theorem graph_of_mem_nextRound {c : Cand} (hc : c ∈ (nextRound a b w s).1) :
    c.graph = graphScore c.a c.b (partners a.length s.2) (pairedB b.length s.2)
      (graphOf a b) := by
  rw [nextRound, assignGreedy_sorted, mem_sortBy] at hc
  obtain ⟨d, -, rfl⟩ := List.mem_map.mp hc
  rfl

/-- After an unmoved round the whole state is a fixed point. -/
theorem nextRound_eq_self (h : Unmoved a b w s) :
    nextRound a b w (nextRound a b w s) = nextRound a b w s := by
  have hregraph : regraph a b (nextRound a b w s).2 (nextRound a b w s).1 =
      (nextRound a b w s).1 := by
    rw [regraph_eq_of_beq h]
    exact regraph_eq_self fun c hc ↦ graph_of_mem_nextRound hc
  calc nextRound a b w (nextRound a b w s)
      = assignGreedy (nextRound a b w s).1 a b w := by rw [nextRound, hregraph]
    _ = assignGreedy (sortBy (candCmp a b w) (regraph a b s.2 s.1)) a b w := rfl
    _ = nextRound a b w s := assignGreedy_sortBy _

theorem iterate_of_unmoved (h : Unmoved a b w s) (rounds : ℕ) :
    (nextRound a b w)^[rounds + 1] s = nextRound a b w s := by
  rw [Function.iterate_succ_apply]
  exact Function.iterate_fixed (nextRound_eq_self h) rounds

theorem propagate_eq_iterate (rounds : ℕ) (s : List Cand × List Pair) :
    propagate a b w rounds s.1 s.2 = ((nextRound a b w)^[rounds] s).2 := by
  induction rounds generalizing s with
  | zero => rfl
  | succ rounds ih =>
      have hnext : assignGreedy (regraph a b s.2 s.1) a b w = nextRound a b w s := rfl
      rw [propagate, hnext]
      dsimp only
      split
      · next h => rw [iterate_of_unmoved h]
      · rw [Function.iterate_succ_apply]
        exact ih (nextRound a b w s)

theorem lastAssign_eq_afterRounds (a b : List Node) (graphWeight : Float) (rounds : ℕ) :
    lastAssign a b graphWeight rounds = (afterRounds a b (maxNum graphWeight 0.0)
      (if 0.0 < maxNum graphWeight 0.0 then rounds else 0)).2 :=
  propagate_eq_iterate _ (afterRounds a b (maxNum graphWeight 0.0) 0)

theorem afterRounds_of_unmoved {k r : ℕ} (h : Unmoved a b w (afterRounds a b w k))
    (hkr : k < r) : afterRounds a b w r = afterRounds a b w (k + 1) := by
  obtain ⟨d, rfl⟩ := Nat.exists_eq_add_of_lt hkr
  rw [show k + d + 1 = (d + 1) + k by omega, afterRounds, Function.iterate_add_apply,
    ← afterRounds, iterate_of_unmoved h, afterRounds_succ]

end Exit

theorem align_eq_alignAllRounds (a b : List Node) (opts : Opts) :
    align a b opts = alignAllRounds a b opts := by
  rw [align_eq_filter, lastAssign_eq_afterRounds]
  rfl

/-- Runs of different lengths agree from the first unmoved round on. -/
theorem alignAllRounds_of_unmoved {a b : List Node} {opts : Opts} {k r : ℕ}
    (h : Unmoved a b (weight opts) (afterRounds a b (weight opts) k)) (hk : k < opts.rounds)
    (hr : k < r) : alignAllRounds a b { opts with rounds := r } = alignAllRounds a b opts := by
  by_cases hw : 0.0 < weight opts
  · have hw' : 0.0 < weight { opts with rounds := r } := hw
    simp only [alignAllRounds, if_pos hw, if_pos hw']
    have hend := (afterRounds_of_unmoved h hr).trans (afterRounds_of_unmoved h hk).symm
    exact congrArg (fun s : List Cand × List Pair ↦
      sortBy (acceptCmp a) (s.2.filter fun p ↦ opts.threshold ≤ p.score)) hend
  · have hw' : ¬0.0 < weight { opts with rounds := r } := hw
    simp only [alignAllRounds, if_neg hw, if_neg hw']
    rfl

/-- Stopping early changes nothing, whatever the number of rounds. -/
theorem align_stops_early (a b : List Node) (opts : Opts) :
    align a b opts = alignAllRounds a b opts ∧
      ∀ k < opts.rounds,
        ((afterRounds a b (weight opts) (k + 1)).2 == (afterRounds a b (weight opts) k).2) = true →
          ∀ r ≥ k + 1, align a b { opts with rounds := r } = align a b opts := by
  refine ⟨align_eq_alignAllRounds a b opts, fun k hk hsame r hr ↦ ?_⟩
  rw [afterRounds_succ] at hsame
  rw [align_eq_alignAllRounds, align_eq_alignAllRounds]
  exact alignAllRounds_of_unmoved hsame hk hr

end Fnprint
