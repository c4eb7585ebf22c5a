import Fnprint.Assignment

/-!
# Pruning by bands

Without the graph the score of a pair is its similarity.  Above three quarters
the band index prunes no candidate, and what it prunes below ranks after, so
it cannot change who is claimed above the threshold.
-/

namespace Fnprint

open Binary64 StableSort GreedyMatching

/-- The alignment in which every usable function is a candidate for every other. -/
def alignAllPairs (a b : List Node) (opts : Opts) : List Pair :=
  alignFrom (candidatesFrom (fun _ ↦ usableIdx b) a b) a b opts

/-- Both sides carry full signatures. -/
def FullSigs (nodes : List Node) : Prop := ∀ n ∈ nodes, n.fp.sig.length = sigLen

instance (nodes : List Node) : Decidable (FullSigs nodes) :=
  inferInstanceAs (Decidable (∀ n ∈ nodes, n.fp.sig.length = sigLen))

theorem FullSigs.nodeAt {nodes : List Node} (h : FullSigs nodes) {i : ℕ}
    (hi : i < nodes.length) : (nodeAt nodes i).fp.sig.length = sigLen :=
  h _ (nodeAt_mem hi)

/-! ## Scores without the graph -/

/-- A candidate between full prints that no neighbour has a say in. -/
structure Ungraphed (c : Cand) : Prop where
  graph : c.graph = 0.0
  sim : ∃ k ≤ 128, c.sim = share k

theorem ungraphed_of_mem {pool : Node → List ℕ} {a b : List Node} (ha : FullSigs a)
    (hb : FullSigs b) (hpool : ∀ n, ∀ j ∈ pool n, j < b.length) {c : Cand}
    (hc : c ∈ candidatesFrom pool a b) : Ungraphed c := by
  obtain ⟨hca, hcb, -, heq⟩ := mem_candidatesFrom.mp hc
  rw [heq]
  exact ⟨rfl, exists_share (ha.nodeAt (mem_usableIdx.mp hca).1) (hb.nodeAt (hpool _ _ hcb))⟩

theorem Ungraphed.rankOf_eq {c : Cand} (h : Ungraphed c) {w : Float} (hw : (w == 0.0) = true) :
    rankOf w c = c.sim := by
  obtain ⟨k, hk, hsim⟩ := h.sim
  rw [rankOf, h.graph, hsim]
  exact add_mul_zero ((bits_share_le_one hk).trans_lt one_lt_inf) hw

theorem Ungraphed.score_eq {c : Cand} (h : Ungraphed c) {w : Float} (hw : (w == 0.0) = true) :
    (toPair w c).score = c.sim := by
  obtain ⟨k, hk, hsim⟩ := h.sim
  rw [toPair, h.rankOf_eq hw, hsim, minNum_of_le_one (bits_share_le_one hk)]

theorem Ungraphed.bits_le {c : Cand} (h : Ungraphed c) : bits c.sim ≤ inf := by
  obtain ⟨k, hk, hsim⟩ := h.sim
  rw [hsim]
  exact (bits_share_le_one hk).trans one_lt_inf.le

/-- The candidates above the threshold. -/
def accepted (opts : Opts) (c : Cand) : Bool := opts.threshold ≤ (toPair (weight opts) c).score

/-- What ranks before an accepted candidate is accepted. -/
theorem accepted_of_le {a b : List Node} {opts : Opts} (hw : (weight opts == 0.0) = true)
    {x y : Cand} (hx : Ungraphed x) (hy : Ungraphed y)
    (hle : (candCmp a b (weight opts) x y).isLE = true) (h : accepted opts y = true) :
    accepted opts x = true := by
  have hrank : (totalCmp y.sim x.sim).isLE = true := by
    rcases compareLex_isLE_iff.mp hle with hlt | ⟨heq, -⟩
    · rw [byKey, descending, hx.rankOf_eq hw, hy.rankOf_eq hw] at hlt
      rw [hlt]
      rfl
    · rw [byKey, descending, hx.rankOf_eq hw, hy.rankOf_eq hw] at heq
      rw [heq]
      rfl
  rw [totalCmp_isLE_iff hy.bits_le hx.bits_le, ← le_iff_bits hy.bits_le hx.bits_le] at hrank
  rw [accepted, hy.score_eq hw, decide_eq_true_eq] at h
  rw [accepted, hx.score_eq hw, decide_eq_true_eq]
  exact float_le_trans h hrank

/-! ## The accepted candidates of both pools -/

theorem filter_accepted_pool {a b : List Node} {opts : Opts} (ha : FullSigs a) (hb : FullSigs b)
    (hw : (weight opts == 0.0) = true) (hthreshold : (0.75 : Float) < opts.threshold) :
    (candidatesFrom (pool b) a b).filter (accepted opts) =
      (candidatesFrom (fun _ ↦ usableIdx b) a b).filter (accepted opts) := by
  have hshare : ∀ i ∈ usableIdx a, ∀ j ∈ usableIdx b, accepted opts (candOf a b i j) = true →
      SharesBand (nodeAt a i).fp (nodeAt b j).fp := by
    intro i hi j hj hacc
    have hsa := ha.nodeAt (mem_usableIdx.mp hi).1
    have hsb := hb.nodeAt (mem_usableIdx.mp hj).1
    have hplain : Ungraphed (candOf a b i j) := ⟨rfl, exists_share hsa hsb⟩
    rw [accepted, hplain.score_eq hw, decide_eq_true_eq] at hacc
    exact sharesBand_of_lt_similarity hsa hsb (float_lt_of_lt_of_le hthreshold hacc)
  rw [candidatesFrom_eq, candidatesFrom_eq, List.filter_flatMap, List.filter_flatMap]
  apply List.flatMap_congr
  intro i hi
  rw [List.filter_map, List.filter_map, List.filter_filter, List.filter_filter]
  congr 1
  unfold pool
  split
  · rfl
  · rw [seen_eq, List.filter_filter]
    apply List.filter_congr
    intro j hj
    cases hacc : accepted opts (candOf a b i j) with
    | false => simp [hacc]
    | true => simp [hacc, hshare i hi j hj hacc]

/-- Without the graph the accepted pairs are those of the accepted candidates. -/
theorem alignFrom_eq {a b : List Node} {opts : Opts} {cands : List Cand}
    (hw : (weight opts == 0.0) = true) (hrange : InRange a b cands)
    (hplain : ∀ c ∈ cands, Ungraphed c) :
    alignFrom cands a b opts =
      sortBy (acceptCmp a) (pairsOf (weight opts)
        (kept a b (weight opts) (cands.filter (accepted opts)))) := by
  have hnot : ¬0.0 < weight opts := by
    rcases beq_zero_iff.mp hw with h | h <;> rw [h] <;> decide
  have hsorted := pairwise_sortBy (candCmp a b (weight opts)) cands
  have hplain' : ∀ c ∈ sortBy (candCmp a b (weight opts)) cands, Ungraphed c :=
    fun c hc ↦ hplain c ((mem_sortBy _).mp hc)
  -- the accepted candidates are a prefix of the ranking, so they are assigned first
  have hkept : (kept a b (weight opts) cands).filter (accepted opts) =
      kept a b (weight opts) (cands.filter (accepted opts)) := by
    rw [kept, kept, ← filter_sortBy]
    conv_lhs => rw [eq_filter_append_filter _ (accepted opts) hsorted fun x hx y hy hle hacc ↦
      accepted_of_le hw (hplain' x hx) (hplain' y hy) hle hacc]
    exact filter_greedy_append (accepted opts) (fun c hc ↦ (List.mem_filter.mp hc).2)
      fun c hc ↦ by simpa using (List.mem_filter.mp hc).2
  simp only [alignFrom, if_neg hnot, assignGreedy_eq hrange, propagate, pairsOf]
  rw [filter_sortBy, List.filter_map, ← hkept]
  rfl

/-- Above three quarters and without the graph, pruning by bands changes
neither the pairs nor their order. -/
theorem align_eq_alignAllPairs {a b : List Node} {opts : Opts} (ha : FullSigs a)
    (hb : FullSigs b) (hweight : (opts.graphWeight == 0.0) = true)
    (hthreshold : (0.75 : Float) < opts.threshold) : align a b opts = alignAllPairs a b opts := by
  have hw : (weight opts == 0.0) = true := by
    rcases beq_zero_iff.mp hweight with h | h <;> rw [weight, h] <;> decide
  have hpool : ∀ n, ∀ j ∈ pool b n, j < b.length := fun _ _ hj ↦ lt_of_mem_pool hj
  have hall : ∀ n : Node, ∀ j ∈ (fun _ ↦ usableIdx b) n, j < b.length :=
    fun _ _ hj ↦ (mem_usableIdx.mp hj).1
  rw [align, alignAllPairs, alignFrom_eq hw (inRange_candidatesFrom hpool)
    fun c hc ↦ ungraphed_of_mem ha hb hpool hc, alignFrom_eq hw (inRange_candidatesFrom hall)
    fun c hc ↦ ungraphed_of_mem ha hb hall hc, filter_accepted_pool ha hb hw hthreshold]

def plainNode (entry : UInt64) (fp : Fingerprint) : Node := ⟨fp, entry, [], none, ""⟩

theorem align_eq_alignAllPairs_twins :
    align [plainNode 1 (constPrint 7)] [plainNode 2 (constPrint 7), plainNode 3 (constPrint 8)]
        ⟨0.8, 0.0, 2⟩ =
      alignAllPairs [plainNode 1 (constPrint 7)]
        [plainNode 2 (constPrint 7), plainNode 3 (constPrint 8)] ⟨0.8, 0.0, 2⟩ :=
  align_eq_alignAllPairs (by decide +kernel) (by decide +kernel) (by decide +kernel)
    (by decide +kernel)

end Fnprint
