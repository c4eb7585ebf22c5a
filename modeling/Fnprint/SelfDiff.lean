import Fnprint.Accounting
import Fnprint.SelfScores

/-!
# An index against itself

Aligned with itself, an index pairs every usable function with itself: no pair
of different functions ever ranks before both of its diagonal pairs, in any
round, and a twin with the same scores loses to the function with the smaller
entry.
-/

namespace Fnprint

open Binary64 StableSort GreedyMatching KeyMap

section Ranking

variable {n : List Node} {w : Float} {G : ℕ → ℕ → Float}

/-- Candidates of a node list with itself that contain the diagonal and carry
the graph scores `G`. -/
structure SelfCands (n : List Node) (G : ℕ → ℕ → Float) (cands : List Cand) : Prop where
  usable : ∀ c ∈ cands, c.a ∈ usableIdx n ∧ c.b ∈ usableIdx n
  sim : ∀ c ∈ cands, c.sim = (nodeAt n c.a).fp.similarity (nodeAt n c.b).fp
  graph : ∀ c ∈ cands, c.graph = G c.a c.b
  nodup : (cands.map Cand.ends).Nodup
  diag : ∀ i ∈ usableIdx n, ∃ c ∈ cands, c.a = i ∧ c.b = i

/-- A weight the ranking can bear: plain and finite, or a zero that never
meets a graph score. -/
def Bearable (w : Float) (G : ℕ → ℕ → Float) : Prop :=
  bits w < inf ∨ w = -0.0 ∧ ∀ i j, G i j = 0.0

theorem SelfCands.inRange {cands : List Cand} (h : SelfCands n G cands) : InRange n n cands :=
  fun c hc ↦ ⟨(mem_usableIdx.mp (h.usable c hc).1).1, (mem_usableIdx.mp (h.usable c hc).2).1⟩

theorem IndexedNodes.sig_nodeAt (hn : IndexedNodes n) {i : ℕ} (hi : i ∈ usableIdx n) :
    (nodeAt n i).fp.sig.length = sigLen :=
  hn.sigs _ (nodeAt_mem (mem_usableIdx.mp hi).1)

theorem SelfCands.sim_diag {cands : List Cand} (h : SelfCands n G cands) (hn : IndexedNodes n)
    {d : Cand} (hd : d ∈ cands) (hdiag : d.a = d.b) : d.sim = 1.0 := by
  have hlen := hn.sig_nodeAt (h.usable d hd).2
  rw [h.sim d hd, hdiag]
  apply Fingerprint.similarity_self
  intro hnil
  rw [hnil] at hlen
  exact absurd hlen (by decide)

/-- A diagonal candidate ranks at least as high as any candidate it meets, and
at least at one. -/
theorem SelfCands.rankOf_le {cands : List Cand} (h : SelfCands n G cands) (hn : IndexedNodes n)
    (hw : Bearable w G) (hG : Dominated G) {c d : Cand} (hc : c ∈ cands) (hd : d ∈ cands)
    (hdiag : d.a = d.b) (hmeet : d.a = c.a ∨ d.a = c.b) :
    bits (rankOf w c) ≤ bits (rankOf w d) ∧ bits 1.0 ≤ bits (rankOf w d) ∧
      bits (rankOf w d) ≤ inf := by
  have hsim : d.sim = 1.0 := h.sim_diag hn hd hdiag
  have hle : bits c.sim ≤ bits 1.0 := by
    rw [h.sim c hc]
    exact Fingerprint.bits_similarity_le _ _
  rcases hw with hw | ⟨rfl, hzero⟩
  · have hgraph : bits c.graph ≤ bits d.graph := by
      rw [h.graph c hc, h.graph d hd, ← hdiag]
      exact hG.le c.a c.b d.a hmeet
    have hcase : d.graph = 0.0 ∨ d.graph = 1.0 := by
      rw [h.graph d hd, ← hdiag]
      exact hG.diag d.a
    have hfinite : bits d.graph < inf ∧ bits (w * d.graph) < inf := by
      rcases hcase with h0 | h1
      · rw [h0, mul_zero hw]
        exact ⟨zero_lt_inf, zero_lt_inf⟩
      · rw [h1, mul_one hw]
        exact ⟨one_lt_inf, hw⟩
    have hmul := mul_mono_right hw hfinite.1 hgraph
    have hone : bits (1.0 + 0.0) ≤ bits (1.0 + w * d.graph) :=
      add_mono one_lt_inf hfinite.2 (le_refl _) (by rw [bits_zero]; exact Nat.zero_le _)
    rw [add_zero one_lt_inf] at hone
    rw [rankOf, rankOf, hsim]
    exact ⟨add_mono one_lt_inf hfinite.2 hle hmul, hone, bits_add_le_inf one_lt_inf hfinite.2⟩
  · -- minus zero leaves every similarity as it is
    have hrank : ∀ e ∈ cands, rankOf (-0.0) e = e.sim := by
      intro e he
      rw [rankOf, h.graph e he, hzero, h.sim e he]
      exact add_mul_zero (Fingerprint.bits_similarity_lt_inf _ _) (by decide)
    rw [hrank c hc, hrank d hd, hsim]
    exact ⟨hle, le_refl _, one_lt_inf.le⟩

/-- Before a pair of different functions, a diagonal pair that meets it. -/
theorem SelfCands.exists_before {cands : List Cand} (h : SelfCands n G cands)
    (hn : IndexedNodes n) (hw : Bearable w G) (hG : Dominated G) {c : Cand} (hc : c ∈ cands)
    (hoff : c.a ≠ c.b) :
    ∃ d ∈ cands, d.a = d.b ∧ Meets Cand.a Cand.b d c ∧ candCmp n n w d c = .lt := by
  have hgroup : ∀ i ∈ usableIdx n, (nodeAt n i).group = "" := fun i hi ↦
    hn.group _ (nodeAt_mem (mem_usableIdx.mp hi).1)
  have hlt : ∀ d ∈ cands, d.a = d.b → (d.a = c.a ∨ d.a = c.b) →
      compareLex (byKey (fun c ↦ (nodeAt n c.a).entry) compare)
        (compareLex (byKey (fun c ↦ (nodeAt n c.b).group) compare)
          (byKey (fun c ↦ (nodeAt n c.b).entry) compare)) d c = .lt → candCmp n n w d c = .lt := by
    intro d hd hdiag hmeet hties
    obtain ⟨hrank, hone, hinf⟩ := h.rankOf_le hn hw hG hc hd hdiag hmeet
    refine compareLex_eq_lt ?_ (compareLex_eq_lt ?_ hties)
    · rw [byKey, descending, totalCmp_isLE_iff (hrank.trans hinf) hinf]
      exact hrank
    · have hsim : bits c.sim ≤ bits 1.0 := by
        rw [h.sim c hc]
        exact Fingerprint.bits_similarity_le _ _
      rw [byKey, descending, h.sim_diag hn hd hdiag,
        totalCmp_isLE_iff (hsim.trans one_lt_inf.le) one_lt_inf.le]
      exact hsim
  obtain ⟨hca, hcb⟩ := h.usable c hc
  rcases Nat.lt_or_gt_of_ne hoff with hab | hba
  · -- the smaller entry is on the left: same left entry, smaller right one
    obtain ⟨d, hd, hda, hdb⟩ := h.diag c.a hca
    refine ⟨d, hd, hda.trans hdb.symm, Or.inl hda, hlt d hd (hda.trans hdb.symm) (Or.inl hda) ?_⟩
    have hentry := entry_lt_of_lt hn.entries hab (mem_usableIdx.mp hcb).1
    refine compareLex_eq_lt ?_ (compareLex_eq_lt ?_ ?_)
    · rw [byKey, hda]
      exact Std.ReflCmp.isLE_rfl
    · rw [byKey, hdb, hgroup c.a hca, hgroup c.b hcb]
      exact Std.ReflCmp.isLE_rfl
    · rw [byKey, hdb]
      exact Std.compare_eq_lt.mpr hentry
  · -- the smaller entry is on the right: smaller left entry
    obtain ⟨d, hd, hda, hdb⟩ := h.diag c.b hcb
    refine ⟨d, hd, hda.trans hdb.symm, Or.inr hdb, hlt d hd (hda.trans hdb.symm) (Or.inr hda) ?_⟩
    have hentry := entry_lt_of_lt hn.entries hba (mem_usableIdx.mp hca).1
    refine compareLex_eq_lt_iff.mpr (Or.inl ?_)
    rw [byKey, hda]
    exact Std.compare_eq_lt.mpr hentry

/-- What is kept is the diagonal. -/
theorem SelfCands.kept_eq {cands : List Cand} (h : SelfCands n G cands) (hn : IndexedNodes n)
    (hw : Bearable w G) (hG : Dominated G) :
    kept n n w cands = (sortBy (candCmp n n w) cands).filter fun c ↦ c.a = c.b := by
  apply greedy_eq_filter
  · have hends : ((sortBy (candCmp n n w) cands).map Cand.ends).Nodup :=
      ((perm_sortBy _ cands).map Cand.ends).nodup_iff.mpr h.nodup
    rw [List.Nodup, List.pairwise_map] at hends
    refine List.Pairwise.imp_of_mem ?_ (hends.filter _)
    intro c d hc hd hne hmeet
    have hcdiag : c.a = c.b := of_decide_eq_true (List.mem_filter.mp hc).2
    have hddiag : d.a = d.b := of_decide_eq_true (List.mem_filter.mp hd).2
    apply hne
    rcases hmeet with ha | hb
    · exact Prod.ext ha (by rw [Cand.ends, Cand.ends, ← hcdiag, ← hddiag, ha])
    · exact Prod.ext (by rw [Cand.ends, Cand.ends, hcdiag, hddiag, hb]) hb
  · intro pre c suf hl hoff
    have hc : c ∈ cands := by
      rw [← mem_sortBy (candCmp n n w), hl]
      simp
    obtain ⟨d, hd, hdiag, hmeet, hlt⟩ :=
      h.exists_before hn hw hG hc (of_decide_eq_false hoff)
    have hsorted := pairwise_sortBy (candCmp n n w) cands
    rw [← mem_sortBy (candCmp n n w), hl] at hd
    rw [hl] at hsorted
    exact ⟨d, mem_of_pairwise_of_lt _ hsorted hd hlt, decide_eq_true hdiag, hmeet⟩

/-- One round: the assignment read off such candidates is the diagonal. -/
theorem SelfCands.selfPaired {cands : List Cand} (h : SelfCands n G cands) (hn : IndexedNodes n)
    (hw : Bearable w G) (hG : Dominated G) : SelfPaired n (pairsOf w (kept n n w cands)) where
  oneToOne := oneToOne_pairsOf h.inRange w
  diag p hp := by
    obtain ⟨d, hd, rfl⟩ := List.mem_map.mp ((perm_pairsOf w _).mem_iff.mp hp)
    rw [h.kept_eq hn hw hG] at hd
    obtain ⟨hd, hdiag⟩ := List.mem_filter.mp hd
    have hd := (mem_sortBy _).mp hd
    have hdiag : d.a = d.b := of_decide_eq_true hdiag
    obtain ⟨-, hone, hinf⟩ := h.rankOf_le hn hw hG hd hd hdiag (Or.inl rfl)
    exact ⟨hdiag.symm, (h.usable d hd).1, h.sim_diag hn hd hdiag, minNum_one hone hinf⟩
  all i hi := by
    obtain ⟨d, hd, hda, hdb⟩ := h.diag i hi
    refine ⟨toPair w d, (perm_pairsOf w _).mem_iff.mpr (List.mem_map_of_mem ?_), hda⟩
    rw [h.kept_eq hn hw hG, List.mem_filter, mem_sortBy]
    exact ⟨hd, decide_eq_true (hda.trans hdb.symm)⟩

/-! ## The rounds -/

theorem SelfCands.sort {cands : List Cand} (h : SelfCands n G cands)
    (cmp : Cand → Cand → Ordering) : SelfCands n G (sortBy cmp cands) where
  usable c hc := h.usable c ((mem_sortBy cmp).mp hc)
  sim c hc := h.sim c ((mem_sortBy cmp).mp hc)
  graph c hc := h.graph c ((mem_sortBy cmp).mp hc)
  nodup := ((perm_sortBy cmp cands).map Cand.ends).nodup_iff.mpr h.nodup
  diag i hi := by
    obtain ⟨c, hc, hci⟩ := h.diag i hi
    exact ⟨c, (mem_sortBy cmp).mpr hc, hci⟩

theorem SelfCands.regraph {cands : List Cand} (h : SelfCands n G cands) (hn : IndexedNodes n)
    {assign : List Pair} (hassign : SelfPaired n assign) :
    SelfCands n (overlapAt n) (regraph n n assign cands) where
  usable c hc := by
    obtain ⟨d, hd, rfl⟩ := List.mem_map.mp hc
    exact h.usable d hd
  sim c hc := by
    obtain ⟨d, hd, rfl⟩ := List.mem_map.mp hc
    exact h.sim d hd
  graph c hc := by
    obtain ⟨d, hd, rfl⟩ := List.mem_map.mp hc
    exact hassign.graphScore_eq hn d.a d.b
  nodup := by
    rw [Fnprint.regraph, List.map_map]
    exact h.nodup
  diag i hi := by
    obtain ⟨d, hd, hdi⟩ := h.diag i hi
    exact ⟨_, List.mem_map_of_mem hd, hdi⟩

/-- Every round ends on the diagonal again. -/
theorem propagate_selfPaired (hn : IndexedNodes n) (hw : bits w < inf) (rounds : ℕ)
    {cands : List Cand} (h : SelfCands n G cands) {assign : List Pair}
    (hassign : SelfPaired n assign) : SelfPaired n (propagate n n w rounds cands assign) := by
  induction rounds generalizing G cands assign with
  | zero => exact hassign
  | succ rounds ih =>
      have hcands := h.regraph hn hassign
      have hnext := hcands.selfPaired hn (w := w) (Or.inl hw) (dominated_overlapAt hn)
      rw [propagate, assignGreedy_eq hcands.inRange]
      dsimp only
      split
      · exact hnext
      · exact ih (hcands.sort _) hnext

/-- The candidates of a node list with itself contain the diagonal. -/
theorem selfCands_candidates (hn : IndexedNodes n) :
    SelfCands n (fun _ _ ↦ 0.0) (candidatesFrom (pool n) n n) where
  usable c hc := by
    obtain ⟨ha, hb, -⟩ := mem_candidatesFrom.mp hc
    exact ⟨ha, (mem_pool.mp hb).1⟩
  sim c hc := congrArg Cand.sim (mem_candidatesFrom.mp hc).2.2.2
  graph c hc := congrArg Cand.graph (mem_candidatesFrom.mp hc).2.2.2
  nodup := nodup_ends_candidatesFrom (nodup_pool n)
  diag i hi := by
    have hlen := hn.sig_nodeAt hi
    have hself : (candOf n n i i).sim = 1.0 := by
      apply Fingerprint.similarity_self
      intro hnil
      rw [hnil] at hlen
      exact absurd hlen (by decide)
    refine ⟨candOf n n i i, mem_candidatesFrom.mpr ⟨hi, ?_, ?_, rfl⟩, rfl, rfl⟩
    · exact mem_pool.mpr ⟨hi, Or.inl (sharesBand_self hlen)⟩
    · rw [hself]
      decide

end Ranking

/-! ## The report -/

/-- The alignment of an index with itself, up to the order of the pairs. -/
theorem exists_perm_align {n : List Node} (hn : IndexedNodes n) {opts : Opts}
    (hnonneg : 0.0 ≤ opts.graphWeight) (hfin : opts.graphWeight.isFinite = true)
    (hthreshold : opts.threshold ≤ 1.0) :
    ∃ assign, SelfPaired n assign ∧ (align n n opts).Perm assign := by
  have hweight : weight opts = opts.graphWeight := maxNum_zero hnonneg
  have hcands := selfCands_candidates hn
  have hbear : Bearable (weight opts) fun _ _ ↦ 0.0 := by
    rw [hweight]
    exact (bits_lt_inf_of_nonneg hnonneg hfin).imp id fun h ↦ ⟨h, fun _ _ ↦ rfl⟩
  have hfirst := hcands.selfPaired hn hbear dominated_zero
  set last := propagate n n (weight opts) (if 0.0 < weight opts then opts.rounds else 0)
    (sortBy (candCmp n n (weight opts)) (candidatesFrom (pool n) n n))
    (pairsOf (weight opts) (kept n n (weight opts) (candidatesFrom (pool n) n n))) with hlast_def
  have hlast : SelfPaired n last := by
    rw [hlast_def]
    by_cases hpos : 0.0 < weight opts
    · rw [if_pos hpos]
      refine propagate_selfPaired hn ?_ _ (hcands.sort _) hfirst
      rcases bits_lt_inf_of_nonneg hnonneg hfin with hw | hneg
      · rwa [hweight]
      · rw [hweight, hneg] at hpos
        exact absurd hpos (by decide)
    · rw [if_neg hpos]
      exact hfirst
  refine ⟨last, hlast, ?_⟩
  have haccept : ∀ p ∈ last, decide (opts.threshold ≤ p.score) = true := by
    intro p hp
    rw [(hlast.diag p hp).2.2.2]
    exact decide_eq_true hthreshold
  rw [align, alignFrom]
  simp only [assignGreedy_eq hcands.inRange, ← hlast_def, List.filter_eq_self.mpr haccept]
  exact perm_sortBy _ _

theorem SelfPaired.perm_usableIdx {n : List Node} {assign : List Pair} (h : SelfPaired n assign) :
    (assign.map Pair.a).Perm (usableIdx n) := by
  rw [List.perm_ext_iff_of_nodup h.oneToOne.nodup_a (nodup_usableIdx n)]
  intro i
  rw [List.mem_map]
  constructor
  · rintro ⟨p, hp, rfl⟩
    exact (h.diag p hp).2.1
  · exact h.all i

/-- Nothing changed: every usable function is paired with itself at similarity
one, and everything else has too little signal. -/
structure NoChange (a : List IndexedFunc) (graphWeight : Float) (rep : MatchReport) : Prop where
  paired : ∀ i f, a[i]? = some f → usable f.fp = true →
    ∃ p ∈ align (a.map Node.fromIndexed) (a.map Node.fromIndexed) ⟨0.45, graphWeight, 2⟩,
      p.a = i ∧ p.b = i ∧ p.sim = 1.0
  compared : rep.compared = a.countP fun f ↦ usable f.fp
  same : rep.same = rep.compared
  changed : rep.changed = []
  onlyA : rep.onlyA = []
  onlyB : rep.onlyB = []
  lowSignal : rep.lowSignal = a.countP fun f ↦ !usable f.fp

/-- An index diffed against itself reports no change, whatever twins it holds. -/
theorem matchAligned_self {a : List IndexedFunc} (h : Indexed a) {graphWeight : Float}
    (hnonneg : 0.0 ≤ graphWeight) (hfin : graphWeight.isFinite = true) :
    NoChange a graphWeight (matchAligned a a graphWeight) := by
  obtain ⟨assign, hassign, hperm⟩ := @exists_perm_align _ h.nodes ⟨0.45, graphWeight, 2⟩ hnonneg
    hfin (show (0.45 : Float) ≤ 1.0 by decide)
  generalize hpairs : align (a.map Node.fromIndexed) (a.map Node.fromIndexed)
    ⟨0.45, graphWeight, 2⟩ = pairs at hperm
  have hdiag : ∀ p ∈ pairs, p.b = p.a ∧ p.sim = 1.0 := by
    intro p hp
    obtain ⟨hb, -, hsim, -⟩ := hassign.diag p (hperm.mem_iff.mp hp)
    exact ⟨hb, hsim⟩
  have hside : (pairs.map Pair.a).Perm (signalIdx a) := by
    rw [← usableIdx_fromIndexed]
    exact (hperm.map Pair.a).trans hassign.perm_usableIdx
  have hsides : pairs.map Pair.b = pairs.map Pair.a :=
    List.map_congr_left fun p hp ↦ (hdiag p hp).1
  have hsame : ∀ p ∈ pairs, decide (sameThresh ≤ p.sim) = true := by
    intro p hp
    rw [(hdiag p hp).2]
    decide
  have hall : leftOver a (pairs.map Pair.a) = [] :=
    leftOver_eq_nil fun i hi ↦ hside.mem_iff.mpr hi
  have hchanged : (pairs.filter fun p ↦ !decide (sameThresh ≤ p.sim)) = [] := by
    apply List.filter_eq_nil_iff.mpr
    intro p hp
    simp [hsame p hp]
  have hrep : matchAligned a a graphWeight =
      { same := pairs.length, changed := [], onlyA := [], onlyB := [], compared := pairs.length,
        lowSignal := a.countP fun f ↦ lowSignal f.fp } := by
    simp only [matchAligned_eq, comparedPairs, hpairs, List.countP_eq_length.mpr hsame, hchanged,
      hsides, hall, List.map_nil, sortBy_nil]
  rw [hrep]
  exact
    { paired := by
        intro i f hf hu
        obtain ⟨hlt, hget⟩ := List.getElem?_eq_some_iff.mp hf
        have hi : i ∈ signalIdx a := by
          rw [signalIdx, List.mem_filter, List.mem_range, funcAt,
            List.getD_eq_getElem a default hlt, hget]
          exact ⟨hlt, hu⟩
        obtain ⟨p, hp, hpi⟩ := List.mem_map.mp (hside.mem_iff.mpr hi)
        rw [hpairs]
        exact ⟨p, hp, hpi, (hdiag p hp).1.trans hpi, (hdiag p hp).2⟩
      compared := by rw [← length_signalIdx, ← hside.length_eq, List.length_map]
      same := rfl
      changed := rfl
      onlyA := rfl
      onlyB := rfl
      lowSignal := by simp only [not_usable] }

/-- Two behavioural twins, the first of which calls the second. -/
def twins : List IndexedFunc :=
  [⟨none, 0x10, .ehFrame, constPrint 7, 1.0, [0x20]⟩, ⟨none, 0x20, .ehFrame, constPrint 7, 1.0, []⟩]

theorem matchAligned_self_twins : NoChange twins 1.0 (matchAligned twins twins 1.0) :=
  matchAligned_self ⟨by decide, by decide, by decide +kernel⟩ (by decide +kernel)
    (by decide +kernel)

end Fnprint
