import Fnprint.Lib.Overlap
import Fnprint.Neighbours
import Fnprint.Rounds

/-!
# How far the graph lifts

The graph score counts a callee once for each time it is listed.  It is a
fraction as long as no paired callee is listed more often by the target than
its partner is on the other side, and then no pair is accepted that its
similarity and the whole weight together would not carry over the threshold.
-/

namespace Fnprint

open Binary64 StableSort KeyMap GreedyMatching Search Overlap

/-! ## Counting along an assignment -/

section Counts

variable {a b : List Node} {assign : List Pair}

theorem OneToOne.countP_partners (h : OneToOne a b assign) (l : List ℕ) :
    (l.countP fun x ↦ ((partners a.length assign).getD x none).isSome) =
      (assign.map fun p ↦ l.count p.a).sum := by
  rw [← countP_mem_keys h.nodup_a]
  refine List.countP_congr fun x _ ↦ ?_
  rw [isSome_partners_iff h, decide_eq_true_eq, List.mem_map]

theorem OneToOne.countP_pairedB (h : OneToOne a b assign) (l : List ℕ) :
    (l.countP fun y ↦ (pairedB b.length assign).getD y false) =
      (assign.map fun p ↦ l.count p.b).sum := by
  rw [← countP_mem_keys h.nodup_b]
  refine List.countP_congr fun y _ ↦ ?_
  rw [pairedB_iff h, decide_eq_true_eq, List.mem_map]

theorem OneToOne.hits_eq (h : OneToOne a b assign) (ours theirs : List ℕ) :
    hits (partners a.length assign) ours theirs =
      (assign.map fun p ↦ if (binarySearch theirs p.b).isSome then ours.count p.a else 0).sum := by
  rw [← countP_any_keys h.nodup_a]
  apply List.countP_congr
  intro x _
  rw [List.any_eq_true]
  cases hx : (partners a.length assign).getD x none with
  | none =>
      refine ⟨fun hfalse ↦ absurd hfalse Bool.false_ne_true, ?_⟩
      rintro ⟨p, hp, hmem⟩
      have hpartner : (partners a.length assign).getD x none = some p.b :=
        (partners_eq_some_iff h).mpr
          ⟨p, hp, of_decide_eq_true (Bool.and_eq_true_iff.mp hmem).2, rfl⟩
      rw [hx] at hpartner
      cases hpartner
  | some y =>
      obtain ⟨p, hp, rfl, rfl⟩ := (partners_eq_some_iff h).mp hx
      constructor
      · intro hfound
        exact ⟨p, hp, Bool.and_eq_true_iff.mpr ⟨hfound, decide_eq_true rfl⟩⟩
      · rintro ⟨q, hq, hmem⟩
        obtain ⟨hfound, hqa⟩ := Bool.and_eq_true_iff.mp hmem
        have hqb : (partners a.length assign).getD p.a none = some q.b :=
          (partners_eq_some_iff h).mpr ⟨q, hq, of_decide_eq_true hqa, rfl⟩
        rw [hx] at hqb
        rwa [Option.some.inj hqb]

end Counts

/-! ## Repeated callees -/

/-- A list of nodes that a process can hold: every length is a machine word. -/
structure InMemory (nodes : List Node) : Prop where
  length_lt : nodes.length < 2 ^ 64
  callees_lt : ∀ n ∈ nodes, n.callees.length < 2 ^ 64

theorem length_callees_lt {nodes : List Node} (h : InMemory nodes) {callees : List (List ℕ)}
    (f : Node → UInt64 → Option ℕ) (hmap : callees = nodes.map fun n ↦ n.callees.filterMap (f n))
    (i : ℕ) : (callees.getD i []).length < 2 ^ 64 := by
  rw [hmap, List.getD_eq_getElem?_getD, List.getElem?_map]
  cases hi : nodes[i]? with
  | none => exact Nat.two_pow_pos _
  | some n =>
      exact (List.length_filterMap_le _ _).trans_lt (h.callees_lt n (List.mem_of_getElem? hi))

theorem length_callers_le {callees : List (List ℕ)} {n : ℕ} (hn : callees.length = n) (i : ℕ) :
    ((reverse callees n).getD i []).length ≤ n := by
  have hsub : (reverse callees n).getD i [] ⊆ List.range n := by
    intro j hj
    rcases Nat.lt_or_ge i n with hi | hi
    · have hmem := (mem_reverse hi).mp hj
      refine List.mem_range.mpr ?_
      by_contra hge
      rw [List.getD_eq_default _ _ (by omega)] at hmem
      exact List.not_mem_nil hmem
    · rw [reverse_of_le hi] at hj
      exact absurd hj List.not_mem_nil
  have hnodup : ((reverse callees n).getD i []).Nodup :=
    (increasing_reverse callees n i).imp fun h ↦ h.ne
  have hle := (hnodup.subperm hsub).length_le
  rwa [List.length_range] at hle

/-- What the graph score of a pair counts: the hits, and the paired neighbours
of either side. -/
structure Counts where
  hit : ℕ
  na : ℕ
  nb : ℕ

def countsOf (a b : List Node) (assign : List Pair) (m n : ℕ) : Counts :=
  let partner := partners a.length assign
  let bPaired := pairedB b.length assign
  let g := graphOf a b
  { hit := hits partner (g.aCallees.getD m []) (g.bCallees.getD n []) +
      hits partner (g.aCallers.getD m []) (g.bCallers.getD n [])
    na := ((g.aCallees.getD m []).countP fun x ↦ (partner.getD x none).isSome) +
      (g.aCallers.getD m []).countP fun x ↦ (partner.getD x none).isSome
    nb := ((g.bCallees.getD n []).countP fun y ↦ bPaired.getD y false) +
      (g.bCallers.getD n []).countP fun y ↦ bPaired.getD y false }

theorem graphScore_eq_dice (a b : List Node) (assign : List Pair) (m n : ℕ) :
    graphScore m n (partners a.length assign) (pairedB b.length assign) (graphOf a b) =
      dice (countsOf a b assign m n).hit (countsOf a b assign m n).na
        (countsOf a b assign m n).nb := rfl

/-- One more call is made up for by a partner that is a caller on one side only. -/
def slack (aRs bRs : List ℕ) (p : Pair) : ℕ :=
  if decide (p.a ∈ aRs) = decide (p.b ∈ bRs) then 0 else 1

/-- Where two candidates list a paired callee, the target lists it no more
often than its partner is listed. -/
def RepeatsMatched (a b : List Node) (assign : List Pair) : Prop :=
  ∀ c ∈ candidatesFrom (pool b) a b, ∀ p ∈ assign,
    (binarySearch ((graphOf a b).bCallees.getD c.b []) p.b).isSome →
      ((graphOf a b).aCallees.getD c.a []).count p.a ≤
        ((graphOf a b).bCallees.getD c.b []).count p.b +
          slack ((graphOf a b).aCallers.getD c.a []) ((graphOf a b).bCallers.getD c.b []) p

instance (a b : List Node) (assign : List Pair) : Decidable (RepeatsMatched a b assign) :=
  inferInstanceAs (Decidable (∀ c ∈ _, ∀ p ∈ _, _ → _))

/-- What one pair of an assignment adds to them. -/
def countsAt (a b : List Node) (m n : ℕ) (p : Pair) : Counts :=
  let g := graphOf a b
  { hit := (if (binarySearch (g.bCallees.getD n []) p.b).isSome then
        (g.aCallees.getD m []).count p.a else 0) +
      if (binarySearch (g.bCallers.getD n []) p.b).isSome then
        (g.aCallers.getD m []).count p.a else 0
    na := (g.aCallees.getD m []).count p.a + (g.aCallers.getD m []).count p.a
    nb := (g.bCallees.getD n []).count p.b + (g.bCallers.getD n []).count p.b }

section Bound

variable {a b : List Node} {assign : List Pair}

theorem OneToOne.countsOf_eq (h : OneToOne a b assign) (m n : ℕ) :
    countsOf a b assign m n =
      { hit := (assign.map fun p ↦ (countsAt a b m n p).hit).sum
        na := (assign.map fun p ↦ (countsAt a b m n p).na).sum
        nb := (assign.map fun p ↦ (countsAt a b m n p).nb).sum } := by
  simp only [countsOf, countsAt, h.countP_partners, h.countP_pairedB, h.hits_eq, List.sum_map_add]

/-- A pair adds no more than its share to the hits unless it repeats. -/
theorem two_mul_hit_countsAt_le_iff (m n : ℕ) (p : Pair) :
    2 * (countsAt a b m n p).hit ≤ (countsAt a b m n p).na + (countsAt a b m n p).nb ↔
      ((binarySearch ((graphOf a b).bCallees.getD n []) p.b).isSome →
        ((graphOf a b).aCallees.getD m []).count p.a ≤
          ((graphOf a b).bCallees.getD n []).count p.b +
            slack ((graphOf a b).aCallers.getD m []) ((graphOf a b).bCallers.getD n []) p) := by
  have hcallers : ((graphOf a b).aCallers.getD m []).Pairwise (· < ·) := increasing_reverse _ _ m
  have hcallers' : ((graphOf a b).bCallers.getD n []).Pairwise (· < ·) := increasing_reverse _ _ n
  have hnodup : ((graphOf a b).aCallers.getD m []).Nodup := hcallers.imp fun h ↦ h.ne
  have hnodup' : ((graphOf a b).bCallers.getD n []).Nodup := hcallers'.imp fun h ↦ h.ne
  simp only [countsAt, slack, hnodup.count, hnodup'.count,
    binarySearch_isSome_iff (hcallers'.imp fun h ↦ h.le), decide_eq_decide]
  by_cases hfound : (binarySearch ((graphOf a b).bCallees.getD n []) p.b).isSome = true
  · simp only [hfound, if_true, true_implies]
    by_cases ha : p.a ∈ (graphOf a b).aCallers.getD m [] <;>
      by_cases hb : p.b ∈ (graphOf a b).bCallers.getD n [] <;>
        simp only [ha, hb, if_true, if_false, iff_true, iff_false, not_true] <;>
          omega
  · simp only [hfound, Bool.false_eq_true, if_false, false_implies, iff_true]
    split_ifs <;> omega

theorem two_mul_sum_le {f g : Pair → ℕ} (h : ∀ p ∈ assign, 2 * f p ≤ g p) :
    2 * (assign.map f).sum ≤ (assign.map g).sum := by
  rw [← List.sum_map_mul_left]
  exact List.sum_le_sum h

/-- The fraction of an assignment and of all its parts stays within one exactly
when that of each pair alone does. -/
theorem repeatsMatched_iff (h : OneToOne a b assign) :
    RepeatsMatched a b assign ↔ ∀ part, part.Sublist assign →
      ∀ c ∈ candidatesFrom (pool b) a b, 2 * (countsOf a b part c.a c.b).hit ≤
        (countsOf a b part c.a c.b).na + (countsOf a b part c.a c.b).nb := by
  constructor
  · intro hmatched part hsub c hc
    rw [(h.of_sublist hsub).countsOf_eq, ← List.sum_map_add]
    exact two_mul_sum_le fun p hp ↦
      (two_mul_hit_countsAt_le_iff c.a c.b p).mpr (hmatched c hc p (hsub.subset hp))
  · intro hparts c hc p hp
    have hsub : [p].Sublist assign := List.singleton_sublist.mpr hp
    have hle := hparts [p] hsub c hc
    rw [(h.of_sublist hsub).countsOf_eq] at hle
    simp only [List.map_singleton, List.sum_singleton] at hle
    exact (two_mul_hit_countsAt_le_iff c.a c.b p).mp hle

theorem na_le (ha : InMemory a) (b : List Node) (assign : List Pair) (m n : ℕ) :
    (countsOf a b assign m n).na ≤ 2 ^ 127 := by
  have hcallees : ((aCallees a).getD m []).length < 2 ^ 64 :=
    length_callees_lt ha (fun _ ↦ (aIdx a).lookup) rfl m
  have hcallers : ((reverse (aCallees a) a.length).getD m []).length ≤ a.length :=
    length_callers_le (List.length_map _) m
  have hlen := ha.length_lt
  calc (countsOf a b assign m n).na
      ≤ ((aCallees a).getD m []).length + ((reverse (aCallees a) a.length).getD m []).length :=
        Nat.add_le_add List.countP_le_length List.countP_le_length
    _ ≤ 2 ^ 127 := by omega

theorem nb_le (hb : InMemory b) (a : List Node) (assign : List Pair) (m n : ℕ) :
    (countsOf a b assign m n).nb ≤ 2 ^ 127 := by
  have hcallees : ((bCallees b).getD n []).length < 2 ^ 64 :=
    length_callees_lt hb (fun x e ↦ (bIdx b).lookup (x.group, e)) rfl n
  have hcallers : ((reverse (bCallees b) b.length).getD n []).length ≤ b.length :=
    length_callers_le (List.length_map _) n
  have hlen := hb.length_lt
  calc (countsOf a b assign m n).nb
      ≤ ((bCallees b).getD n []).length + ((reverse (bCallees b) b.length).getD n []).length :=
        Nat.add_le_add List.countP_le_length List.countP_le_length
    _ ≤ 2 ^ 127 := by omega

theorem bits_graphScore_le_one (ha : InMemory a) (hb : InMemory b) (h : OneToOne a b assign)
    (hmatched : RepeatsMatched a b assign) {m n : ℕ}
    (hc : candOf a b m n ∈ candidatesFrom (pool b) a b) :
    bits (graphScore m n (partners a.length assign) (pairedB b.length assign) (graphOf a b)) ≤
      bits 1.0 := by
  have hcounts := (repeatsMatched_iff h).mp hmatched assign (List.Sublist.refl _)
    (candOf a b m n) hc
  rw [graphScore_eq_dice]
  exact bits_dice_le_one (na_le ha b assign m n) (nb_le hb a assign m n) hcounts

/-- A run keeps its graph scores within one as long as the assignments it scores
by have no unmatched repetition. -/
theorem graph_afterRounds (ha : InMemory a) (hb : InMemory b) {w : Float} {k : ℕ}
    (hmatched : ∀ j < k, 0.0 < w ∧ RepeatsMatched a b (afterRounds a b w j).2) :
    ∀ c ∈ (afterRounds a b w k).1, c.graph = 0.0 ∨ 0.0 < w ∧ bits c.graph ≤ bits 1.0 := by
  intro c hc
  cases k with
  | zero =>
      have hmem : c ∈ candidatesFrom (pool b) a b := (mem_sortBy _).mp hc
      exact Or.inl (congrArg Cand.graph (mem_candidatesFrom.mp hmem).2.2.2)
  | succ k =>
      -- the scores are those of the round before
      have hstate := runState_afterRounds a b w k
      obtain ⟨hw, hrepeats⟩ := hmatched k (Nat.lt_succ_self k)
      rw [afterRounds_succ] at hc
      obtain ⟨d, hd, rfl⟩ := List.mem_map.mp ((mem_sortBy _).mp hc)
      exact Or.inr ⟨hw, bits_graphScore_le_one ha hb hstate.assigned.oneToOne hrepeats
        (hstate.round.cand d hd)⟩

end Bound

/-! ## The lift -/

/-- What a returned pair owes to the graph; the sum is the last bound without
the rounding of `threshold - graphWeight`. -/
structure Lifted (opts : Opts) (p : Pair) : Prop where
  graph_nonneg : 0.0 ≤ p.graph
  graph_le : p.graph ≤ 1.0
  floor_le : floor ≤ p.sim
  score_eq : p.score = minNum (p.sim + opts.graphWeight * p.graph) 1.0
  threshold_le : opts.threshold ≤ p.score
  threshold_le_add : opts.threshold ≤ p.sim + opts.graphWeight

theorem le_of_le_minNum {t x : Float} (h : t ≤ minNum x 1.0) (hx : bits x ≤ inf) : t ≤ x := by
  unfold minNum at h
  have hnan : ¬x.isNaN = true := fun hn ↦ not_nan_of_le hx (isNaN_iff.mp hn)
  have hnan1 : ¬(1.0 : Float).isNaN = true := by decide
  rw [if_neg hnan, if_neg hnan1] at h
  split at h
  · next hlt =>
      rw [lt_iff_bits one_lt_inf.le hx] at hlt
      exact float_le_trans h ((le_iff_bits one_lt_inf.le hx).mpr hlt.le)
  · exact h

theorem le_add_weight {t w sim graph : Float} (hw : 0.0 ≤ w) (hfin : w.isFinite = true)
    (hsim : bits sim < inf) (hgraph : graph = 0.0 ∨ 0.0 < w ∧ bits graph ≤ bits 1.0)
    (h : t ≤ minNum (sim + w * graph) 1.0) : t ≤ sim + w := by
  rcases bits_lt_inf_of_nonneg hw hfin with hlt | rfl
  · have hle : bits graph ≤ bits 1.0 := by
      rcases hgraph with rfl | ⟨-, hle⟩
      · rw [bits_zero]
        exact Nat.zero_le _
      · exact hle
    have hmul : bits (w * graph) ≤ bits w := by
      have hmono := mul_mono_right hlt one_lt_inf hle
      rwa [Binary64.mul_one hlt] at hmono
    have hrank := bits_add_le_inf hsim (hmul.trans_lt hlt)
    have hsum := bits_add_le_inf hsim hlt
    have hadd : sim + w * graph ≤ sim + w :=
      (le_iff_bits hrank hsum).mpr (add_mono hsim hlt (le_refl _) hmul)
    exact float_le_trans (le_of_le_minNum h hrank) hadd
  · -- minus zero has no rounds, and `-0.0 * 0.0` is `-0.0` again
    have hzero : (-0.0 : Float) * 0.0 = -0.0 := by decide
    have hnot : ¬(0.0 : Float) < -0.0 := by decide
    rcases hgraph with rfl | ⟨hpos, -⟩
    · rw [hzero, add_neg_zero hsim] at h
      rw [add_neg_zero hsim]
      exact le_of_le_minNum h hsim.le
    · exact absurd hpos hnot

/-- A pair that passes the threshold is lifted no further than the weight. -/
theorem RunState.lifted {a b : List Node} {opts : Opts} {s : List Cand × List Pair}
    (h : RunState a b opts.graphWeight s) (hw : 0.0 ≤ opts.graphWeight)
    (hfin : opts.graphWeight.isFinite = true)
    (hbound : ∀ c ∈ s.1, c.graph = 0.0 ∨ 0.0 < opts.graphWeight ∧ bits c.graph ≤ bits 1.0)
    {p : Pair} (hp : p ∈ s.2) (haccepted : opts.threshold ≤ p.score) : Lifted opts p := by
  obtain ⟨c, hc, rfl⟩ := h.pairs p hp
  have hsim : bits c.sim < inf := by
    rw [h.round.sim c hc]
    exact Fingerprint.bits_similarity_lt_inf _ _
  have hgraph : bits c.graph ≤ bits 1.0 := by
    rcases hbound c hc with heq | ⟨-, hle⟩
    · rw [heq, bits_zero]
      exact Nat.zero_le _
    · exact hle
  refine ⟨?_, ?_, ?_, rfl, haccepted, le_add_weight hw hfin hsim (hbound c hc) haccepted⟩
  · have hzero : bits 0.0 ≤ bits c.graph := by
      rw [bits_zero]
      exact Nat.zero_le _
    exact (le_iff_bits zero_lt_inf.le (hgraph.trans_lt one_lt_inf).le).mpr hzero
  · exact (le_iff_bits (hgraph.trans_lt one_lt_inf).le one_lt_inf.le).mpr hgraph
  · have hfloor := (mem_candidatesFrom.mp (h.round.cand c hc)).2.2.1
    rwa [← h.round.sim c hc] at hfloor

/-- When no round scores by an assignment that pairs a callee repeated more
often by the target, every returned pair is lifted by at most the weight. -/
theorem align_lifted {a b : List Node} {opts : Opts} (ha : InMemory a) (hb : InMemory b)
    (hw : 0.0 ≤ opts.graphWeight) (hfin : opts.graphWeight.isFinite = true)
    (hmatched : 0.0 < opts.graphWeight → ∀ k < opts.rounds,
      RepeatsMatched a b (afterRounds a b opts.graphWeight k).2) :
    ∀ p ∈ align a b opts, Lifted opts p := by
  intro p hp
  rw [align_eq_filter, mem_sortBy, List.mem_filter] at hp
  obtain ⟨hp, haccepted⟩ := hp
  obtain ⟨k, hk, heq⟩ := exists_lastAssign_eq a b opts.graphWeight opts.rounds
  rw [maxNum_zero hw] at hk heq
  rw [heq] at hp
  have hsteps : ∀ j < k, 0.0 < opts.graphWeight ∧
      RepeatsMatched a b (afterRounds a b opts.graphWeight j).2 := by
    intro j hj
    by_cases hpos : 0.0 < opts.graphWeight
    · rw [if_pos hpos] at hk
      exact ⟨hpos, hmatched hpos j (by omega)⟩
    · rw [if_neg hpos] at hk
      omega
  exact (runState_afterRounds a b _ k).lifted hw hfin (graph_afterRounds ha hb hsteps) hp
    (of_decide_eq_true haccepted)

/-- A function that lists its one callee `k` times. -/
def listing (k : ℕ) (fp : Fingerprint) : List Node :=
  [⟨fp, 0x10, List.replicate k 0x20, none, ""⟩, ⟨constPrint 2, 0x20, [], none, ""⟩]

theorem inMemory_listing {k : ℕ} (hk : k < 2 ^ 64) (fp : Fingerprint) :
    InMemory (listing k fp) where
  length_lt := by
    change 2 < 2 ^ 64
    norm_num
  callees_lt n hn := by
    rcases List.mem_cons.mp hn with rfl | hn
    · rwa [List.length_replicate]
    · rw [List.mem_singleton.mp hn]
      exact Nat.two_pow_pos _

/-- The same repetition on both sides is matched in every round. -/
theorem align_lifted_listing :
    (align (listing 3 (constPrint 7)) (listing 3 (constPrint 7)) ⟨0.9, 0.3, 2⟩).length = 2 ∧
      ∀ p ∈ align (listing 3 (constPrint 7)) (listing 3 (constPrint 7)) ⟨0.9, 0.3, 2⟩,
        Lifted ⟨0.9, 0.3, 2⟩ p :=
  ⟨by decide +kernel, align_lifted (inMemory_listing (by norm_num) _)
    (inMemory_listing (by norm_num) _) (by decide +kernel) (by decide +kernel)
    fun _ ↦ by decide +kernel⟩

/-- Half of the slots of `constPrint 7`. -/
def halfPrint : Fingerprint :=
  ⟨List.replicate 64 7 ++ List.replicate 64 8, 5, 9, false,
    by rw [List.length_append, List.length_replicate, List.length_replicate]; decide⟩

/-- Three listings of the callee that the other side lists once: the graph score
is 1.5, and a pair is accepted that the whole weight would not lift. -/
theorem repeated_callee_overlifts :
    InMemory (listing 3 (constPrint 7)) ∧ InMemory (listing 1 halfPrint) ∧
      (0.0 : Float) ≤ 0.3 ∧ (0.3 : Float).isFinite = true ∧
      ∃ p ∈ align (listing 3 (constPrint 7)) (listing 1 halfPrint) ⟨0.9, 0.3, 2⟩,
        p.graph = 1.5 ∧ ¬(0.9 : Float) ≤ p.sim + 0.3 ∧ ¬Lifted ⟨0.9, 0.3, 2⟩ p := by
  have hrun : ∃ p ∈ align (listing 3 (constPrint 7)) (listing 1 halfPrint) ⟨0.9, 0.3, 2⟩,
      p.graph = 1.5 ∧ ¬(0.9 : Float) ≤ p.sim + 0.3 := by
    decide +kernel
  obtain ⟨p, hp, hgraph, hsum⟩ := hrun
  exact ⟨inMemory_listing (by norm_num) _, inMemory_listing (by norm_num) _, by decide,
    by decide, p, hp, hgraph, hsum, fun h ↦ hsum h.threshold_le_add⟩

theorem repeatsMatched_of_nodup {a b : List Node} (h : ∀ n ∈ a, n.callees.Nodup)
    (assign : List Pair) : RepeatsMatched a b assign := by
  intro c _ p _ hfound
  have hnodup : ((aCallees a).getD c.a []).Nodup := by
    rw [aCallees, List.getD_eq_getElem?_getD, List.getElem?_map]
    cases hi : a[c.a]? with
    | none => exact List.nodup_nil
    | some n =>
        refine (h n (List.mem_of_getElem? hi)).filterMap fun e e' j hj hj' ↦ ?_
        obtain ⟨⟨y, hy, rfl⟩, -⟩ := lookup_indexBy_eq_some_iff.mp hj
        obtain ⟨⟨y', hy', rfl⟩, -⟩ := lookup_indexBy_eq_some_iff.mp hj'
        rw [hy] at hy'
        rw [Option.some.inj hy']
  have hmem : p.b ∈ (bCallees b).getD c.b [] := mem_of_binarySearch hfound
  calc ((aCallees a).getD c.a []).count p.a ≤ 1 := List.nodup_iff_count_le_one.mp hnodup p.a
    _ ≤ ((bCallees b).getD c.b []).count p.b := List.count_pos_iff.mpr hmem
    _ ≤ _ := Nat.le_add_right _ _

end Fnprint
