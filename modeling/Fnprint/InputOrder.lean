import Fnprint.Rounds
import Fnprint.Stable

/-!
# The order of the inputs

Two runs of the alignment over the same nodes in different orders go through
the same rankings, read by nodes.  They agree as long as the graph scores do,
and these depend on the order only where a round looks up the partner of a
callee in an unsorted list and misses it.
-/

namespace Fnprint

open Binary64 StableSort KeyMap GreedyMatching Search

/-! ## Candidates by node -/

structure NodeCand where
  m : Node
  n : Node
  sim : Float
  graph : Float

def view (a b : List Node) (c : Cand) : NodeCand := ⟨nodeAt a c.a, nodeAt b c.b, c.sim, c.graph⟩

def nodeRank (w : Float) (c : NodeCand) : Float := c.sim + w * c.graph

def nodeCmp (w : Float) : NodeCand → NodeCand → Ordering :=
  compareLex (byKey (nodeRank w) (descending totalCmp))
    (compareLex (byKey NodeCand.sim (descending totalCmp))
      (compareLex (byKey (fun c ↦ c.m.entry) compare)
        (compareLex (byKey (fun c ↦ c.n.group) compare) (byKey (fun c ↦ c.n.entry) compare))))

instance (w : Float) : Std.TransCmp (nodeCmp w) :=
  inferInstanceAs (Std.TransCmp (compareLex _ _))

/-- The two nodes are a candidate pair. -/
structure CandPair (b : List Node) (m n : Node) : Prop where
  usable_m : usable m.fp = true
  mem : n ∈ b
  usable_n : usable n.fp = true
  near : SharesBand m.fp n.fp ∨ ∀ k ∈ b, usable k.fp = true → ¬SharesBand m.fp k.fp
  floor_le : floor ≤ m.fp.similarity n.fp

theorem CandPair.congr {b b' : List Node} (hb : SameUsable b' b) {m n : Node}
    (h : CandPair b m n) : CandPair b' m n where
  usable_m := h.usable_m
  mem := (hb.mem_iff h.usable_n).mpr h.mem
  usable_n := h.usable_n
  near := h.near.imp_right fun hnone k hk hu ↦ hnone k ((hb.mem_iff hu).mp hk) hu
  floor_le := h.floor_le

/-- Candidates of distinct positions inside the lists, all of candidate pairs. -/
structure Proper (a b : List Node) (cands : List Cand) : Prop where
  range : InRange a b cands
  nodup : (cands.map Cand.ends).Nodup
  pair : ∀ c ∈ cands, CandPair b (nodeAt a c.a) (nodeAt b c.b)

section Views

variable {a b : List Node} {w : Float} {cands : List Cand}

theorem Proper.sort (h : Proper a b cands) (cmp : Cand → Cand → Ordering) :
    Proper a b (sortBy cmp cands) where
  range := h.range.sort cmp
  nodup := ((perm_sortBy cmp cands).map Cand.ends).nodup_iff.mpr h.nodup
  pair c hc := h.pair c ((mem_sortBy cmp).mp hc)

theorem Proper.regraph (h : Proper a b cands) (assign : List Pair) :
    Proper a b (regraph a b assign cands) where
  range := h.range.regraph assign
  nodup := by
    rw [Fnprint.regraph, List.map_map]
    exact h.nodup
  pair c hc := by
    obtain ⟨d, hd, rfl⟩ := List.mem_map.mp hc
    exact h.pair d hd

theorem Proper.eq_of_keys (h : Proper a b cands) (hk : Keyed a b) {c d : Cand} (hc : c ∈ cands)
    (hd : d ∈ cands) (hm : (nodeAt a c.a).entry = (nodeAt a d.a).entry)
    (hn : ((nodeAt b c.b).group, (nodeAt b c.b).entry) =
      ((nodeAt b d.b).group, (nodeAt b d.b).entry)) : c = d :=
  cand_eq_of_keys hk h.range h.nodup hc hd hm hn

theorem Proper.eq_of_tie (h : Proper a b cands) (hk : Keyed a b) {c d : Cand} (hc : c ∈ cands)
    (hd : d ∈ cands) (htie : nodeCmp w (view a b c) (view a b d) = .eq) : c = d :=
  cand_eq_of_tie hk h.range h.nodup hc hd htie

/-- What is kept, read by nodes. -/
def nodeKept (w : Float) (l : List NodeCand) : List NodeCand :=
  greedy NodeCand.m NodeCand.n (sortBy (nodeCmp w) l)

theorem Proper.kept_view (h : Proper a b cands) (hk : Keyed a b) :
    (kept a b w cands).map (view a b) = nodeKept w (cands.map (view a b)) := by
  rw [nodeKept, ← @map_sortBy _ _ (candCmp a b w) (nodeCmp w) (view a b) cands fun _ _ _ _ ↦ rfl]
  refine map_greedy (view a b) fun c hc d hd ↦ or_congr ?_ ?_
  · have hc := h.range c ((mem_sortBy _).mp hc)
    have hd := h.range d ((mem_sortBy _).mp hd)
    exact ⟨fun heq ↦ nodeAt_injOn hk.a_nodup hc.1 hd.1 (congrArg Node.entry heq),
      fun heq ↦ congrArg (nodeAt a) heq⟩
  · have hc := h.range c ((mem_sortBy _).mp hc)
    have hd := h.range d ((mem_sortBy _).mp hd)
    exact ⟨fun heq ↦ nodeAt_injOn hk.b_nodup hc.2 hd.2
      (congrArg (fun n ↦ (n.group, n.entry)) heq), fun heq ↦ congrArg (nodeAt b) heq⟩

/-- The candidates kept depend on the candidates only, not on their order. -/
theorem Proper.nodeKept_congr (h : Proper a b cands) (hk : Keyed a b) {l : List NodeCand}
    (hperm : (cands.map (view a b)).Perm l) :
    nodeKept w (cands.map (view a b)) = nodeKept w l := by
  rw [nodeKept, nodeKept, sortBy_eq_of_perm (nodeCmp w) hperm]
  intro x hx y hy htie
  obtain ⟨c, hc, rfl⟩ := List.mem_map.mp hx
  obtain ⟨d, hd, rfl⟩ := List.mem_map.mp hy
  rw [h.eq_of_tie hk hc hd htie]

theorem Proper.kept_congr (h : Proper a b cands) (hk : Keyed a b) {cands' : List Cand}
    (hperm : cands.Perm cands') : kept a b w cands = kept a b w cands' :=
  (kept_perm hk h.range h.nodup hperm.symm).symm

end Views

/-! ## The rounds without the early exit -/

/-- The candidates of the next round. -/
def nextCands (a b : List Node) (w : Float) (cands : List Cand) : List Cand :=
  regraph a b (pairsOf w (kept a b w cands)) (sortBy (candCmp a b w) cands)

def rescored (a b : List Node) (w : Float) : ℕ → List Cand → List Cand
  | 0, cands => cands
  | rounds + 1, cands => rescored a b w rounds (nextCands a b w cands)

theorem Proper.next {a b : List Node} {w : Float} {cands : List Cand} (h : Proper a b cands) :
    Proper a b (nextCands a b w cands) := (h.sort _).regraph _

section Rounds

variable {a b : List Node} {w : Float} {cands : List Cand}

/-- Equal assignments have equal positions, so they re-score alike. -/
theorem regraph_eq_of_beq {assign assign' : List Pair} (h : (assign == assign') = true) :
    regraph a b assign = regraph a b assign' := by
  have hends : assign.map (fun p ↦ (p.a, p.b)) = assign'.map fun p ↦ (p.a, p.b) := by
    induction assign generalizing assign' with
    | nil =>
        cases assign' with
        | nil => rfl
        | cons q assign' => cases h
    | cons p assign ih =>
        cases assign' with
        | nil => cases h
        | cons q assign' =>
            rw [List.cons_beq_cons, Bool.and_eq_true] at h
            have hpq : (p.a == q.a && p.b == q.b && p.sim == q.sim && p.graph == q.graph &&
                p.score == q.score) = true := h.1
            simp only [Bool.and_eq_true, beq_iff_eq] at hpq
            rw [List.map_cons, List.map_cons, ih h.2, hpq.1.1.1.1, hpq.1.1.1.2]
  have hpartners : partners a.length assign = partners a.length assign' := by
    have hmap := congrArg (List.map fun e : ℕ × ℕ ↦ (e.1, some e.2)) hends
    simp only [List.map_map] at hmap
    exact congrArg (fill a.length none) hmap
  have hpaired : pairedB b.length assign = pairedB b.length assign' := by
    have hmap := congrArg (List.map fun e : ℕ × ℕ ↦ (e.2, true)) hends
    simp only [List.map_map] at hmap
    exact congrArg (fill b.length false) hmap
  funext cands
  rw [regraph, regraph, hpartners, hpaired]

theorem regraph_regraph (assign assign' : List Pair) (cands : List Cand) :
    regraph a b assign (regraph a b assign' cands) = regraph a b assign cands := by
  simp only [regraph, List.map_map]
  rfl

theorem regraph_perm (assign : List Pair) {cands cands' : List Cand} (h : cands.Perm cands') :
    (regraph a b assign cands).Perm (regraph a b assign cands') := h.map _

/-- Candidates that their own assignment scores as they are stay put. -/
theorem kept_rescored_of_stable (hk : Keyed a b) (rounds : ℕ) (h : Proper a b cands)
    (hstable : (regraph a b (pairsOf w (kept a b w cands)) cands).Perm cands) :
    kept a b w (rescored a b w rounds cands) = kept a b w cands := by
  induction rounds generalizing cands with
  | zero => rfl
  | succ rounds ih =>
      have hnext : (nextCands a b w cands).Perm cands :=
        (regraph_perm _ (perm_sortBy _ cands)).trans hstable
      have hkept : kept a b w (nextCands a b w cands) = kept a b w cands :=
        h.next.kept_congr hk hnext
      rw [rescored, ih h.next, hkept]
      rw [hkept]
      exact (regraph_perm _ hnext).trans (hstable.trans hnext.symm)

/-- The early exit changes nothing: an assignment that did not move would not
move in the rounds left out either. -/
theorem propagate_eq (hk : Keyed a b) (rounds : ℕ) (h : Proper a b cands) :
    propagate a b w rounds (sortBy (candCmp a b w) cands) (pairsOf w (kept a b w cands)) =
      pairsOf w (kept a b w (rescored a b w rounds cands)) := by
  induction rounds generalizing cands with
  | zero => rfl
  | succ rounds ih =>
      have hnext : Proper a b (nextCands a b w cands) := h.next
      rw [propagate, ← nextCands, assignGreedy_eq hnext.range]
      dsimp only
      split
      · next heq =>
          have hsame := regraph_eq_of_beq (a := a) (b := b) heq
          have hstable : regraph a b (pairsOf w (kept a b w (nextCands a b w cands)))
              (nextCands a b w cands) = nextCands a b w cands := by
            rw [hsame, nextCands, regraph_regraph]
          rw [rescored, kept_rescored_of_stable hk rounds hnext (by rw [hstable])]
      · exact ih hnext

end Rounds

/-! ## The first candidates -/

section Initial

variable {a b : List Node}

theorem mem_of_nodeAt_usable {x : Node} (hx : x ∈ b) (hu : usable x.fp = true) :
    ∃ j ∈ usableIdx b, nodeAt b j = x := by
  obtain ⟨j, hj, rfl⟩ := List.mem_iff_getElem.mp hx
  have hnode := nodeAt_eq_getElem hj
  exact ⟨j, mem_usableIdx.mpr ⟨hj, by rw [hnode]; exact hu⟩, hnode⟩

theorem candPair_iff_mem_pool {m : Node} {j : ℕ} (hm : usable m.fp = true) :
    j ∈ pool b m ∧ floor ≤ m.fp.similarity (nodeAt b j).fp ↔
      j < b.length ∧ CandPair b m (nodeAt b j) := by
  rw [mem_pool]
  constructor
  · rintro ⟨⟨hj, hnear⟩, hfloor⟩
    obtain ⟨hlt, hu⟩ := mem_usableIdx.mp hj
    refine ⟨hlt, hm, nodeAt_mem hlt, hu, hnear.imp_right fun hnone k hk huk ↦ ?_, hfloor⟩
    obtain ⟨l, hl, rfl⟩ := mem_of_nodeAt_usable hk huk
    exact hnone l hl
  · rintro ⟨hlt, hpair⟩
    refine ⟨⟨mem_usableIdx.mpr ⟨hlt, hpair.usable_n⟩, hpair.near.imp_right fun hnone k hk ↦ ?_⟩,
      hpair.floor_le⟩
    obtain ⟨hklt, huk⟩ := mem_usableIdx.mp hk
    exact hnone _ (nodeAt_mem hklt) huk

theorem proper_candidates (a b : List Node) : Proper a b (candidatesFrom (pool b) a b) where
  range := inRange_candidatesFrom fun _ _ hj ↦ lt_of_mem_pool hj
  nodup := nodup_ends_candidatesFrom (nodup_pool b)
  pair c hc := by
    obtain ⟨ha, hb, hfloor, heq⟩ := mem_candidatesFrom.mp hc
    rw [heq] at hfloor
    exact ((candPair_iff_mem_pool (mem_usableIdx.mp ha).2).mp ⟨hb, hfloor⟩).2

theorem mem_view_candidates {v : NodeCand} :
    v ∈ (candidatesFrom (pool b) a b).map (view a b) ↔
      v.m ∈ a ∧ CandPair b v.m v.n ∧ v = ⟨v.m, v.n, v.m.fp.similarity v.n.fp, 0.0⟩ := by
  constructor
  · intro hv
    obtain ⟨c, hc, rfl⟩ := List.mem_map.mp hv
    obtain ⟨ha, -, -, heq⟩ := mem_candidatesFrom.mp hc
    refine ⟨nodeAt_mem (mem_usableIdx.mp ha).1, (proper_candidates a b).pair c hc, ?_⟩
    rw [heq]
    rfl
  · rintro ⟨hm, hpair, hv⟩
    obtain ⟨i, hi, hmi⟩ := mem_of_nodeAt_usable hm hpair.usable_m
    obtain ⟨j, hj, hnj⟩ := mem_of_nodeAt_usable hpair.mem hpair.usable_n
    have hpair' : CandPair b (nodeAt a i) (nodeAt b j) := by rwa [hmi, hnj]
    obtain ⟨hpool, hfloor⟩ := (candPair_iff_mem_pool (mem_usableIdx.mp hi).2).mpr
      ⟨(mem_usableIdx.mp hj).1, hpair'⟩
    refine List.mem_map.mpr ⟨candOf a b i j, mem_candidatesFrom.mpr ⟨hi, hpool, hfloor, rfl⟩, ?_⟩
    rw [hv, view, candOf, hmi, hnj]

/-- The candidates are those of the nodes with signal, read by nodes. -/
theorem view_candidates_congr {a' b' : List Node} (hk : Keyed a b) (hk' : Keyed a' b')
    (ha : SameUsable a' a) (hb : SameUsable b' b) :
    ((candidatesFrom (pool b') a' b').map (view a' b')).Perm
      ((candidatesFrom (pool b) a b).map (view a b)) := by
  have hnodup : ∀ {a b : List Node}, Keyed a b →
      ((candidatesFrom (pool b) a b).map (view a b)).Nodup := by
    intro a b hk
    have h := proper_candidates a b
    refine (List.Nodup.of_map Cand.ends h.nodup).map_on fun c hc d hd hcd ↦ ?_
    exact h.eq_of_keys hk hc hd (congrArg (fun v ↦ v.m.entry) hcd)
      (congrArg (fun v ↦ (v.n.group, v.n.entry)) hcd)
  rw [List.perm_ext_iff_of_nodup (hnodup hk') (hnodup hk)]
  intro v
  rw [mem_view_candidates, mem_view_candidates]
  constructor
  · rintro ⟨hm, hpair, heq⟩
    exact ⟨(ha.mem_iff hpair.usable_m).mp hm, hpair.congr hb.symm, heq⟩
  · rintro ⟨hm, hpair, heq⟩
    exact ⟨(ha.mem_iff hpair.usable_m).mpr hm, hpair.congr hb, heq⟩

/-- The candidates of reordered inputs are the same, read by nodes. -/
theorem view_candidates_perm {a' b' : List Node} (hk : Keyed a b) (ha : a'.Perm a)
    (hb : b'.Perm b) :
    ((candidatesFrom (pool b') a' b').map (view a' b')).Perm
      ((candidatesFrom (pool b) a b).map (view a b)) :=
  view_candidates_congr hk (hk.perm ha hb) (.of_perm ha) (.of_perm hb)

end Initial

/-! ## Safe searches -/

/-- The search over the resolved callees of `n` finds `y`. -/
def Finds (b : List Node) (n y : Node) : Prop :=
  ∀ i j, b[i]? = some n → b[j]? = some y →
    (binarySearch ((bCallees b).getD i []) j).isSome = true

/-- Whatever a candidate pair looks up in a round that starts from the pairs `K`
is found, in whatever order the corpus comes. -/
def SearchSafe (a b : List Node) (K : List (Node × Node)) : Prop :=
  ∀ m ∈ a, ∀ n, CandPair b m n → ∀ q ∈ K, q.1.entry ∈ m.callees → CallsInGroup n q.2 →
    ∀ b', b'.Perm b → Finds b' n q.2

/-- The same for the order in which the corpus comes. -/
def Searching (a b : List Node) (K : List (Node × Node)) : Prop :=
  ∀ m ∈ a, ∀ n, CandPair b m n → ∀ q ∈ K, q.1.entry ∈ m.callees → CallsInGroup n q.2 →
    Finds b n q.2

theorem SearchSafe.searching {a b a' b' : List Node} {K K' : List (Node × Node)}
    (h : SearchSafe a b K) (ha : a'.Perm a) (hb : b'.Perm b) (hK : K'.Perm K) :
    Searching a' b' K' := by
  intro m hm n hmn q hq he hcalls
  have hback : SameUsable b b' := .of_perm hb.symm
  exact h m (ha.mem_iff.mp hm) n (hmn.congr hback) q (hK.mem_iff.mp hq) he hcalls b' hb

theorem searchSafe_of_searching {a b : List Node} {K : List (Node × Node)}
    (h : ∀ b', b'.Perm b → ∃ K', K'.Perm K ∧ Searching a b' K') : SearchSafe a b K := by
  intro m hm n hmn q hq he hcalls b' hb
  obtain ⟨K', hK, hsearch⟩ := h b' hb
  exact hsearch m hm n (hmn.congr (.of_perm hb)) q (hK.mem_iff.mpr hq) he hcalls

theorem finds_of_single {a b : List Node} (hk : Keyed a b) {n y : Node}
    (hsingle : ∀ z ∈ b, CallsInGroup n z → z = y) (hcalls : CallsInGroup n y) : Finds b n y := by
  intro i j hi hj
  obtain ⟨hilt, hin⟩ := List.getElem?_eq_some_iff.mp hi
  obtain ⟨hjlt, hjy⟩ := List.getElem?_eq_some_iff.mp hj
  rw [← nodeAt_eq_getElem hilt] at hin
  rw [← nodeAt_eq_getElem hjlt] at hjy
  have hall : ∀ k ∈ (bCallees b).getD i [], k = j := by
    intro k hmem
    obtain ⟨hklt, hck⟩ := (mem_bCallees_iff hk hilt).mp hmem
    rw [hin] at hck
    have hkey : nodeAt b k = nodeAt b j := (hsingle _ (nodeAt_mem hklt) hck).trans hjy.symm
    exact nodeAt_injOn hk.b_nodup hklt hjlt (congrArg (fun n ↦ (n.group, n.entry)) hkey)
  have hsorted : ((bCallees b).getD i []).Pairwise (· ≤ ·) := by
    rw [List.pairwise_iff_getElem]
    intro k l hk' hl' _
    rw [hall _ (List.getElem_mem hk'), hall _ (List.getElem_mem hl')]
  rw [binarySearch_isSome_iff hsorted, mem_bCallees_iff hk hilt, hin, hjy]
  exact ⟨hjlt, hcalls⟩

/-- A caller with one known callee finds it in any order. -/
theorem searchSafe_of_single {a b : List Node} (hk : Keyed a b) {K : List (Node × Node)}
    (h : ∀ m ∈ a, ∀ n ∈ b, ∀ q ∈ K, q.1.entry ∈ m.callees → CallsInGroup n q.2 →
      ∀ z ∈ b, CallsInGroup n z → z = q.2) : SearchSafe a b K := by
  intro m hm n hmn q hq he hcalls b' hb'
  refine finds_of_single (hk.perm (List.Perm.refl a) hb') (fun z hz hnz ↦ ?_) hcalls
  exact h m hm n hmn.mem q hq he hcalls z (hb'.mem_iff.mp hz) hnz

/-! ## The rounds of two runs -/

/-- A candidate with the graph score of some pairs. -/
def regraphNode (a b : List Node) (K : List (Node × Node)) (v : NodeCand) : NodeCand :=
  { v with graph := nodeGraph a b K v.m v.n }

section Runs

variable {a b : List Node} {w : Float} {cands : List Cand}

/-- The pairs of nodes that a round starts from. -/
def keptPairs (a b : List Node) (w : Float) (cands : List Cand) : List (Node × Node) :=
  nodePairs a b (pairsOf w (kept a b w cands))

theorem view_nextCands (hk : Keyed a b) (h : Proper a b cands)
    (hsearch : Searching a b (keptPairs a b w cands)) :
    (nextCands a b w cands).map (view a b) = ((sortBy (candCmp a b w) cands).map (view a b)).map
      (regraphNode a b (keptPairs a b w cands)) := by
  have hone := oneToOne_pairsOf h.range w
  rw [nextCands, regraph, List.map_map, List.map_map]
  apply List.map_congr_left
  intro c hc
  have hc := (mem_sortBy _).mp hc
  obtain ⟨hca, hcb⟩ := h.range c hc
  have hscore := graphScore_eq_nodeGraph hk hone hca hcb fun p hp hpa hpb ↦ ?_
  · simp only [Function.comp_apply, view, regraphNode, keptPairs, hscore]
  · obtain ⟨-, he⟩ := (mem_aCallees_iff hk hca).mp hpa
    obtain ⟨hpblt, hcalls⟩ := (mem_bCallees_iff hk hcb).mp hpb
    exact hsearch _ (nodeAt_mem hca) _ (h.pair c hc) _ (List.mem_map_of_mem hp) he hcalls
      c.b p.b (by rw [nodeAt_eq_getElem hcb, List.getElem?_eq_getElem hcb])
      (by rw [nodeAt_eq_getElem hpblt, List.getElem?_eq_getElem hpblt])

theorem nodePairs_perm (w : Float) (l : List Cand) :
    (nodePairs a b (pairsOf w l)).Perm ((l.map (view a b)).map fun v ↦ (v.m, v.n)) := by
  have hperm := (perm_pairsOf w l).map fun p ↦ (nodeAt a p.a, nodeAt b p.b)
  rw [List.map_map] at hperm ⊢
  exact hperm

variable {a' b' : List Node} {cands' : List Cand}

/-- The same candidates leave the same pairs. -/
theorem keptPairs_congr (hk : Keyed a b) (hk' : Keyed a' b') (h : Proper a b cands)
    (h' : Proper a' b' cands') (hviews : (cands'.map (view a' b')).Perm (cands.map (view a b))) :
    (keptPairs a' b' w cands').Perm (keptPairs a b w cands) := by
  have hkept : (kept a' b' w cands').map (view a' b') = (kept a b w cands).map (view a b) := by
    rw [h'.kept_view hk', h.kept_view hk, h'.nodeKept_congr hk' hviews]
  refine (nodePairs_perm w _).trans ?_
  rw [hkept]
  exact (nodePairs_perm w _).symm

theorem view_nextCands_congr (hk : Keyed a b) (hk' : Keyed a' b') (ha : SameUsable a' a)
    (hb : SameUsable b' b) (hsearch : Searching a b (keptPairs a b w cands))
    (hsearch' : Searching a' b' (keptPairs a' b' w cands')) (h : Proper a b cands)
    (h' : Proper a' b' cands') (hviews : (cands'.map (view a' b')).Perm (cands.map (view a b))) :
    ((nextCands a' b' w cands').map (view a' b')).Perm
      ((nextCands a b w cands).map (view a b)) := by
  have hpairs : (keptPairs a' b' w cands').Perm (keptPairs a b w cands) :=
    keptPairs_congr hk hk' h h' hviews
  have husable : ∀ q ∈ keptPairs a b w cands, usable q.1.fp = true ∧ usable q.2.fp = true := by
    intro q hq
    obtain ⟨v, hv, rfl⟩ := List.mem_map.mp ((nodePairs_perm w _).mem_iff.mp hq)
    obtain ⟨c, hc, rfl⟩ := List.mem_map.mp hv
    have hpair := h.pair c (mem_kept hc)
    exact ⟨hpair.usable_m, hpair.usable_n⟩
  have hscore : regraphNode a' b' (keptPairs a' b' w cands') =
      regraphNode a b (keptPairs a b w cands) := by
    funext v
    rw [regraphNode, regraphNode, nodeGraph_congr ha hb hpairs husable]
  rw [view_nextCands hk' h' hsearch', view_nextCands hk h hsearch, hscore]
  apply List.Perm.map
  exact ((perm_sortBy _ cands').map _).trans (hviews.trans ((perm_sortBy _ cands).map _).symm)

/-- Two runs over the same nodes with signal go through the same candidates. -/
theorem view_rescored_congr (hk : Keyed a b) (hk' : Keyed a' b') (ha : SameUsable a' a)
    (hb : SameUsable b' b) (rounds : ℕ)
    (hsearch : ∀ k < rounds, Searching a b (keptPairs a b w (rescored a b w k cands)))
    (hsearch' : ∀ k < rounds,
      (keptPairs a' b' w (rescored a' b' w k cands')).Perm
        (keptPairs a b w (rescored a b w k cands)) →
      Searching a' b' (keptPairs a' b' w (rescored a' b' w k cands')))
    (h : Proper a b cands) (h' : Proper a' b' cands')
    (hviews : (cands'.map (view a' b')).Perm (cands.map (view a b))) :
    ((rescored a' b' w rounds cands').map (view a' b')).Perm
      ((rescored a b w rounds cands).map (view a b)) := by
  induction rounds generalizing cands cands' with
  | zero => exact hviews
  | succ rounds ih =>
      have hfirst := hsearch 0 (Nat.succ_pos rounds)
      have hfirst' := hsearch' 0 (Nat.succ_pos rounds) (keptPairs_congr hk hk' h h' hviews)
      exact ih (fun k hlt ↦ hsearch (k + 1) (Nat.succ_lt_succ hlt))
        (fun k hlt ↦ hsearch' (k + 1) (Nat.succ_lt_succ hlt)) h.next h'.next
        (view_nextCands_congr hk hk' ha hb hfirst hfirst' h h' hviews)

theorem Proper.rescored (h : Proper a b cands) (rounds : ℕ) :
    Proper a b (rescored a b w rounds cands) := by
  induction rounds generalizing cands with
  | zero => exact h
  | succ rounds ih => exact ih h.next

/-- Two runs over the same nodes with signal keep the same candidates. -/
theorem kept_rescored_congr (hk : Keyed a b) (hk' : Keyed a' b') (h : Proper a b cands)
    (h' : Proper a' b' cands') (rounds : ℕ)
    (hviews : ((rescored a' b' w rounds cands').map (view a' b')).Perm
      ((rescored a b w rounds cands).map (view a b))) :
    (kept a' b' w (rescored a' b' w rounds cands')).map (view a' b') =
      (kept a b w (rescored a b w rounds cands)).map (view a b) := by
  rw [(h'.rescored rounds).kept_view hk', (h.rescored rounds).kept_view hk,
    (h'.rescored rounds).nodeKept_congr hk' hviews]

theorem iterate_nextRound (h : Proper a b cands) (k : ℕ) :
    (nextRound a b w)^[k] (sortBy (candCmp a b w) cands, pairsOf w (kept a b w cands)) =
      (sortBy (candCmp a b w) (rescored a b w k cands),
        pairsOf w (kept a b w (rescored a b w k cands))) := by
  induction k generalizing cands with
  | zero => rfl
  | succ k ih =>
      have hnext : nextRound a b w (sortBy (candCmp a b w) cands, pairsOf w (kept a b w cands)) =
          (sortBy (candCmp a b w) (nextCands a b w cands),
            pairsOf w (kept a b w (nextCands a b w cands))) :=
        assignGreedy_eq h.next.range w
      rw [Function.iterate_succ_apply, hnext]
      exact ih h.next

end Runs

/-! ## The pairs each round starts from -/

/-- The pairs of nodes made before a round, the first one being round 0. -/
def pairsBefore (a b : List Node) (w : Float) (k : ℕ) : List (Node × Node) :=
  nodePairs a b (afterRounds a b w k).2

section Before

variable {a b a' b' : List Node} {w : Float}

theorem pairsBefore_eq (a b : List Node) (w : Float) (k : ℕ) : pairsBefore a b w k =
    keptPairs a b w (rescored a b w k (candidatesFrom (pool b) a b)) := by
  have h := proper_candidates a b
  rw [pairsBefore, afterRounds, assignGreedy_eq h.range, iterate_nextRound h k]
  rfl

/-- As long as no round can miss, both runs have the same candidates. -/
theorem view_run_perm (hk : Keyed a b) (ha : a'.Perm a) (hb : b'.Perm b) (rounds : ℕ)
    (hsafe : ∀ k < rounds, SearchSafe a b (pairsBefore a b w k)) :
    ((rescored a' b' w rounds (candidatesFrom (pool b') a' b')).map (view a' b')).Perm
      ((rescored a b w rounds (candidatesFrom (pool b) a b)).map (view a b)) := by
  refine view_rescored_congr hk (hk.perm ha hb) (.of_perm ha) (.of_perm hb) rounds ?_ ?_
    (proper_candidates a b) (proper_candidates a' b') (view_candidates_perm hk ha hb)
  · intro k hlt
    rw [← pairsBefore_eq]
    exact (hsafe k hlt).searching (List.Perm.refl a) (List.Perm.refl b) (List.Perm.refl _)
  · intro k hlt hpairs
    rw [← pairsBefore_eq, ← pairsBefore_eq] at hpairs
    rw [← pairsBefore_eq]
    exact (hsafe k hlt).searching ha hb hpairs

theorem pairsBefore_perm (hk : Keyed a b) (ha : a'.Perm a) (hb : b'.Perm b) (k : ℕ)
    (hsafe : ∀ j < k, SearchSafe a b (pairsBefore a b w j)) :
    (pairsBefore a' b' w k).Perm (pairsBefore a b w k) := by
  rw [pairsBefore_eq, pairsBefore_eq]
  exact keptPairs_congr hk (hk.perm ha hb) ((proper_candidates a b).rescored k)
    ((proper_candidates a' b').rescored k) (view_run_perm hk ha hb k hsafe)

/-- The condition on one run is exact: it fails only where some order of the
inputs has a round that misses what it looks up. -/
theorem searchSafe_rounds_iff (hk : Keyed a b) (rounds : ℕ) :
    (∀ k < rounds, SearchSafe a b (pairsBefore a b w k)) ↔
      ∀ a' b', a'.Perm a → b'.Perm b →
        ∀ k < rounds, Searching a' b' (pairsBefore a' b' w k) := by
  constructor
  · intro hsafe a' b' ha hb k hlt
    have hpairs := pairsBefore_perm hk ha hb k fun j hj ↦ hsafe j (hj.trans hlt)
    exact (hsafe k hlt).searching ha hb hpairs
  · intro hfound k
    induction k using Nat.strong_induction_on with
    | _ k ih =>
        intro hlt
        have hsafe : ∀ j < k, SearchSafe a b (pairsBefore a b w j) :=
          fun j hj ↦ ih j hj (hj.trans hlt)
        refine searchSafe_of_searching fun b' hb ↦ ?_
        exact ⟨pairsBefore a b' w k, pairsBefore_perm hk (List.Perm.refl a) hb k hsafe,
          hfound a b' (List.Perm.refl a) hb k hlt⟩

end Before

/-! ## The accepted pairs -/

/-- A pair as it is reported: by the entry of `a`, the group and the entry of `b`. -/
structure Readout where
  aEntry : UInt64
  bGroup : String
  bEntry : UInt64
  sim : Float
  graph : Float
  score : Float
  deriving DecidableEq

def readout (a b : List Node) (p : Pair) : Readout :=
  { aEntry := (nodeAt a p.a).entry
    bGroup := (nodeAt b p.b).group
    bEntry := (nodeAt b p.b).entry
    sim := p.sim
    graph := p.graph
    score := p.score }

def readNode (w : Float) (v : NodeCand) : Readout :=
  { aEntry := v.m.entry
    bGroup := v.n.group
    bEntry := v.n.entry
    sim := v.sim
    graph := v.graph
    score := minNum (nodeRank w v) 1.0 }

/-- The rounds that are run: none without a positive weight. -/
def activeRounds (opts : Opts) : ℕ := if 0.0 < weight opts then opts.rounds else 0

/-- The accepted pairs, read in any way that only looks at their nodes. -/
theorem map_align_perm {a b : List Node} (hk : Keyed a b) (opts : Opts) {β : Type*}
    {read : Pair → β} {readView : NodeCand → β}
    (hread : ∀ c, read (toPair (weight opts) c) = readView (view a b c)) :
    ((align a b opts).map read).Perm
      ((((kept a b (weight opts) (rescored a b (weight opts) (activeRounds opts)
        (candidatesFrom (pool b) a b))).map (view a b)).filter
          fun v ↦ opts.threshold ≤ minNum (nodeRank (weight opts) v) 1.0).map readView) := by
  have h := proper_candidates a b
  have hrun : align a b opts = sortBy (acceptCmp a) ((pairsOf (weight opts) (kept a b (weight opts)
      (rescored a b (weight opts) (activeRounds opts) (candidatesFrom (pool b) a b)))).filter
        fun p ↦ opts.threshold ≤ p.score) := by
    rw [← propagate_eq hk _ h, align, alignFrom]
    simp only [assignGreedy_eq h.range]
    rfl
  rw [hrun]
  refine ((perm_sortBy _ _).map _).trans ?_
  have hperm := ((perm_pairsOf (weight opts) (kept a b (weight opts) (rescored a b (weight opts)
    (activeRounds opts) (candidatesFrom (pool b) a b)))).filter
      fun p ↦ opts.threshold ≤ p.score).map read
  refine hperm.trans ?_
  rw [List.filter_map, List.map_map, List.filter_map, List.map_map]
  exact List.Perm.of_eq (List.map_congr_left fun c _ ↦ hread c)

theorem readout_align_perm {a b : List Node} (hk : Keyed a b) (opts : Opts) :
    ((align a b opts).map (readout a b)).Perm
      ((((kept a b (weight opts) (rescored a b (weight opts) (activeRounds opts)
        (candidatesFrom (pool b) a b))).map (view a b)).map (readNode (weight opts))).filter
          fun r ↦ opts.threshold ≤ r.score) := by
  rw [List.filter_map]
  exact map_align_perm hk opts fun _ ↦ rfl

/-- The accepted pairs, with their scores, do not depend on the order of the
inputs when no round can miss what it looks up. -/
theorem align_order_independent {a b a' b' : List Node} {opts : Opts}
    (ha_keys : (a.map Node.entry).Nodup) (hb_keys : (b.map fun n ↦ (n.group, n.entry)).Nodup)
    (ha : a'.Perm a) (hb : b'.Perm b)
    (hsafe : 0.0 < opts.graphWeight →
      ∀ k < opts.rounds, SearchSafe a b (pairsBefore a b (weight opts) k)) :
    ((align a' b' opts).map (readout a' b')).Perm ((align a b opts).map (readout a b)) := by
  have hk : Keyed a b := ⟨ha_keys, hb_keys⟩
  have hactive : ∀ k < activeRounds opts, SearchSafe a b (pairsBefore a b (weight opts) k) := by
    intro k hlt
    unfold activeRounds at hlt
    split at hlt
    · next hpos => exact hsafe (pos_of_maxNum_pos hpos) k hlt
    · exact absurd hlt (Nat.not_lt_zero k)
  have hkept := kept_rescored_congr hk (hk.perm ha hb) (proper_candidates a b)
    (proper_candidates a' b') (activeRounds opts) (view_run_perm hk ha hb _ hactive)
  refine (readout_align_perm (hk.perm ha hb) opts).trans ?_
  rw [hkept]
  exact (readout_align_perm hk opts).symm

def callNode (entry : UInt64) (fp : Fingerprint) (callees : List UInt64) : Node :=
  ⟨fp, entry, callees, none, ""⟩

/-- A print that agrees with the second one in the first half of its slots. -/
def halfAs (v w : UInt64) : Fingerprint :=
  ⟨List.replicate 64 v ++ List.replicate 64 w, 5, 9, false,
    by rw [List.length_append, List.length_replicate, List.length_replicate]; decide⟩

/-- Of the two calls, the first is of a function that finds no partner. -/
def mixedTarget : List Node :=
  [callNode 0x10 (constPrint 1) [0x20], callNode 0x20 (halfAs 2 9) [],
    callNode 0x40 (constPrint 2) [], callNode 0x50 (constPrint 5) [0x60],
    callNode 0x60 (constPrint 6) []]

def mixedCorpus : List Node :=
  [callNode 0x10 (constPrint 1) [0x20, 0x30], callNode 0x20 (constPrint 2) [],
    callNode 0x30 (constPrint 3) [], callNode 0x50 (constPrint 5) [0x60],
    callNode 0x60 (constPrint 6) []]

theorem align_order_independent_mixed :
    ((align mixedTarget.reverse mixedCorpus.reverse ⟨0.7, 0.3, 2⟩).map
        (readout mixedTarget.reverse mixedCorpus.reverse)).Perm
      ((align mixedTarget mixedCorpus ⟨0.7, 0.3, 2⟩).map (readout mixedTarget mixedCorpus)) := by
  have hsingle : ∀ k < 2, ∀ m ∈ mixedTarget, ∀ n ∈ mixedCorpus,
      ∀ q ∈ pairsBefore mixedTarget mixedCorpus (weight ⟨0.7, 0.3, 2⟩) k,
        q.1.entry ∈ m.callees → CallsInGroup n q.2 →
          ∀ z ∈ mixedCorpus, CallsInGroup n z → z = q.2 := by
    decide +kernel
  exact align_order_independent (by decide) (by decide) (List.reverse_perm _)
    (List.reverse_perm _) fun _ k hk ↦
      searchSafe_of_single ⟨by decide, by decide⟩ (hsingle k hk)

/-- A function that calls two others. -/
def twoCalls : List Node :=
  [callNode 0x10 (constPrint 1) [0x20, 0x30], callNode 0x20 (constPrint 2) [],
    callNode 0x30 (constPrint 3) []]

/-- Listed backwards, the corpus puts the two callees in descending order, one
of the searches misses, and the caller's graph score is halved. -/
theorem graph_depends_on_order :
    (twoCalls.map Node.entry).Nodup ∧ (twoCalls.map fun n ↦ (n.group, n.entry)).Nodup ∧
      twoCalls.reverse.Perm twoCalls ∧
      ¬((align twoCalls twoCalls.reverse ⟨0.7, 1.0, 2⟩).map
          (readout twoCalls twoCalls.reverse)).Perm
        ((align twoCalls twoCalls ⟨0.7, 1.0, 2⟩).map (readout twoCalls twoCalls)) := by
  refine ⟨by decide, by decide, List.reverse_perm _, fun h ↦ ?_⟩
  have hforward : (⟨0x10, "", 0x10, 1.0, 1.0, 1.0⟩ : Readout) ∈
      (align twoCalls twoCalls ⟨0.7, 1.0, 2⟩).map (readout twoCalls twoCalls) := by
    decide +kernel
  have hbackward : (⟨0x10, "", 0x10, 1.0, 1.0, 1.0⟩ : Readout) ∉
      (align twoCalls twoCalls.reverse ⟨0.7, 1.0, 2⟩).map
        (readout twoCalls twoCalls.reverse) := by
    decide +kernel
  exact hbackward (h.mem_iff.mpr hforward)

end Fnprint
