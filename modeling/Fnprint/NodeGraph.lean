import Fnprint.Lib.Overlap
import Fnprint.Assignment
import Fnprint.Neighbours

/-!
# The graph score without positions

Where no two nodes of a side share their key, the neighbour lists say the same
as the callee entries of the nodes.  The graph score then depends on the nodes
and on the pairs made, not on the order in which the nodes are listed, as long
as every search over a callee list finds what is there.
-/

namespace Fnprint

open Binary64 StableSort KeyMap Search Overlap

/-- Entries on the left, and binaries with entries on the right, are unique. -/
structure Keyed (a b : List Node) : Prop where
  a_nodup : (a.map Node.entry).Nodup
  b_nodup : (b.map fun n ↦ (n.group, n.entry)).Nodup

theorem Keyed.perm {a b a' b' : List Node} (h : Keyed a b) (ha : a'.Perm a) (hb : b'.Perm b) :
    Keyed a' b' where
  a_nodup := (ha.map _).nodup_iff.mpr h.a_nodup
  b_nodup := (hb.map _).nodup_iff.mpr h.b_nodup

/-! ## Positions and keys -/

section Positions

variable {κ : Type*} {f : Node → κ} {l : List Node}

theorem nodeAt_injOn (hl : (l.map f).Nodup) {i j : ℕ} (hi : i < l.length) (hj : j < l.length)
    (h : f (nodeAt l i) = f (nodeAt l j)) : i = j := by
  have hi' : i < (l.map f).length := by rwa [List.length_map]
  have hj' : j < (l.map f).length := by rwa [List.length_map]
  apply (@List.Nodup.getElem_inj_iff _ _ hl i hi' j hj').mp
  rw [List.getElem_map, List.getElem_map]
  rwa [nodeAt_eq_getElem hi, nodeAt_eq_getElem hj] at h

variable [DecidableEq κ]

theorem lookup_indexBy_nodeAt (hl : (l.map f).Nodup) {k : κ} {i : ℕ} :
    (indexBy f l).lookup k = some i ↔ i < l.length ∧ f (nodeAt l i) = k := by
  rw [lookup_indexBy_eq_some_iff]
  constructor
  · rintro ⟨⟨x, hx, rfl⟩, -⟩
    obtain ⟨hi, hget⟩ := List.getElem?_eq_some_iff.mp hx
    exact ⟨hi, by rw [nodeAt_eq_getElem hi, hget]⟩
  · rintro ⟨hi, rfl⟩
    refine ⟨⟨l[i], List.getElem?_eq_getElem hi, by
      rw [nodeAt_eq_getElem hi]⟩, fun j x hij hx heq ↦ ?_⟩
    obtain ⟨hj, hget⟩ := List.getElem?_eq_some_iff.mp hx
    have hkey : f (nodeAt l j) = f (nodeAt l i) := by
      rw [← heq, nodeAt_eq_getElem hj, hget]
    exact absurd (nodeAt_injOn hl hj hi hkey) hij.ne'

/-- Counting resolved positions is counting the keys of suitable nodes. -/
theorem countP_positions (hl : (l.map f).Nodup) {P : ℕ → Bool} {Q : Node → Bool} {keys : List κ}
    (hPQ : ∀ k ∈ keys, ∀ i < l.length, f (nodeAt l i) = k → P i = Q (nodeAt l i)) :
    (keys.filterMap (indexBy f l).lookup).countP P =
      keys.countP fun k ↦ decide (∃ x ∈ l, f x = k ∧ Q x = true) := by
  rw [List.countP_filterMap]
  apply List.countP_congr
  intro k hk
  rw [decide_eq_true_eq]
  cases hi : (indexBy f l).lookup k with
  | none =>
      simp only [Option.map_none, Option.getD_none, Bool.false_eq_true, false_iff]
      rintro ⟨x, hx, hfx, -⟩
      obtain ⟨i, hi', hget⟩ := List.mem_iff_getElem.mp hx
      have hnode : f (nodeAt l i) = k := by
        rw [nodeAt_eq_getElem hi', hget, hfx]
      rw [(lookup_indexBy_nodeAt hl).mpr ⟨hi', hnode⟩] at hi
      cases hi
  | some i =>
      obtain ⟨hlt, hkey⟩ := (lookup_indexBy_nodeAt hl).mp hi
      rw [Option.map_some, Option.getD_some, hPQ k hk i hlt hkey]
      constructor
      · intro hQ
        exact ⟨nodeAt l i, nodeAt_mem hlt, hkey, hQ⟩
      · rintro ⟨x, hx, hfx, hQ⟩
        obtain ⟨j, hj, hget⟩ := List.mem_iff_getElem.mp hx
        have hnode : nodeAt l j = x := by rw [nodeAt_eq_getElem hj, hget]
        have hij : i = j := nodeAt_injOn hl hlt hj (by rw [hkey, hnode, hfx])
        rwa [hij, hnode]

theorem countP_callers {cs : List (List ℕ)} {i : ℕ} (hi : i < l.length) {calls : Node → Prop}
    [DecidablePred calls] {P : ℕ → Bool} {Q : Node → Bool}
    (hcalls : ∀ j, i ∈ cs.getD j [] ↔ j < l.length ∧ calls (nodeAt l j))
    (hPQ : ∀ j < l.length, calls (nodeAt l j) → P j = Q (nodeAt l j)) :
    ((reverse cs l.length).getD i []).countP P =
      l.countP fun x ↦ decide (calls x) && Q x := by
  have hlist : (reverse cs l.length).getD i [] =
      (List.range l.length).filter fun j ↦ decide (calls (nodeAt l j)) := by
    apply eq_of_mem_iff compare (pairwise_reverse cs l.length i)
    · exact (List.pairwise_lt_range.imp fun h ↦ Nat.compare_eq_lt.mpr h).filter _
    · intro j
      rw [mem_reverse hi, hcalls, List.mem_filter, List.mem_range, decide_eq_true_eq]
  conv_rhs => rw [← map_nodeAt_range l, List.countP_map]
  rw [hlist, List.countP_filter]
  apply List.countP_congr
  intro j hj
  by_cases hc : calls (nodeAt l j)
  · simp [hc, hPQ j (List.mem_range.mp hj) hc]
  · simp [hc]

end Positions

/-! ## Neighbours by entry -/

section Neighbours

variable {a b : List Node}

theorem getD_aCallees {i : ℕ} (hi : i < a.length) :
    (aCallees a).getD i [] = (nodeAt a i).callees.filterMap (indexBy Node.entry a).lookup := by
  rw [aCallees, List.getD_eq_getElem _ [] (by rwa [List.length_map]), List.getElem_map,
    nodeAt_eq_getElem hi]
  rfl

theorem getD_bCallees {j : ℕ} (hj : j < b.length) :
    (bCallees b).getD j [] = ((nodeAt b j).callees.map fun e ↦ ((nodeAt b j).group, e)).filterMap
      (indexBy (fun n ↦ (n.group, n.entry)) b).lookup := by
  rw [bCallees, List.getD_eq_getElem _ [] (by rwa [List.length_map]), List.getElem_map,
    List.filterMap_map, nodeAt_eq_getElem hj]
  rfl

theorem mem_aCallees_iff (h : Keyed a b) {i j : ℕ} (hi : i < a.length) :
    j ∈ (aCallees a).getD i [] ↔
      j < a.length ∧ (nodeAt a j).entry ∈ (nodeAt a i).callees := by
  rw [getD_aCallees hi, List.mem_filterMap]
  simp only [lookup_indexBy_nodeAt h.a_nodup]
  constructor
  · rintro ⟨e, he, hj, rfl⟩
    exact ⟨hj, he⟩
  · rintro ⟨hj, he⟩
    exact ⟨_, he, hj, rfl⟩

/-- `n` calls `y` inside their binary. -/
def CallsInGroup (n y : Node) : Prop := y.group = n.group ∧ y.entry ∈ n.callees

instance (n y : Node) : Decidable (CallsInGroup n y) :=
  inferInstanceAs (Decidable (_ ∧ _))

theorem mem_bCallees_iff (h : Keyed a b) {i j : ℕ} (hi : i < b.length) :
    j ∈ (bCallees b).getD i [] ↔ j < b.length ∧ CallsInGroup (nodeAt b i) (nodeAt b j) := by
  rw [getD_bCallees hi, List.mem_filterMap]
  simp only [lookup_indexBy_nodeAt h.b_nodup, List.mem_map]
  constructor
  · rintro ⟨-, ⟨e, he, rfl⟩, hj, heq⟩
    obtain ⟨hgroup, rfl⟩ := Prod.mk.inj heq
    exact ⟨hj, hgroup, he⟩
  · rintro ⟨hj, hgroup, he⟩
    exact ⟨_, ⟨_, he, rfl⟩, hj, by rw [hgroup]⟩

theorem lt_of_mem_getD {cs : List (List ℕ)} {i j : ℕ} (h : j ∈ cs.getD i []) : i < cs.length := by
  by_contra hle
  rw [List.getD_eq_default _ _ (not_lt.mp hle)] at h
  exact absurd h List.not_mem_nil

/-- The same edges, seen from the callee. -/
theorem caller_aCallees_iff (h : Keyed a b) {i x : ℕ} (hi : i < a.length) :
    i ∈ (aCallees a).getD x [] ↔ x < a.length ∧ (nodeAt a i).entry ∈ (nodeAt a x).callees := by
  constructor
  · intro hmem
    have hx := lt_of_mem_getD hmem
    rw [aCallees, List.length_map] at hx
    exact ⟨hx, ((mem_aCallees_iff h hx).mp hmem).2⟩
  · rintro ⟨hx, he⟩
    exact (mem_aCallees_iff h hx).mpr ⟨hi, he⟩

theorem caller_bCallees_iff (h : Keyed a b) {j y : ℕ} (hj : j < b.length) :
    j ∈ (bCallees b).getD y [] ↔ y < b.length ∧ CallsInGroup (nodeAt b y) (nodeAt b j) := by
  constructor
  · intro hmem
    have hy := lt_of_mem_getD hmem
    rw [bCallees, List.length_map] at hy
    exact ⟨hy, ((mem_bCallees_iff h hy).mp hmem).2⟩
  · rintro ⟨hy, hcalls⟩
    exact (mem_bCallees_iff h hy).mpr ⟨hj, hcalls⟩

end Neighbours

/-! ## The score of two nodes -/

/-- The callees and the callers of a left node that count. -/
def leftCount (a : List Node) (m : Node) (Q Q' : Node → Bool) : ℕ :=
  m.callees.countP (fun e ↦ decide (∃ x ∈ a, x.entry = e ∧ Q x = true)) +
    a.countP fun x ↦ decide (m.entry ∈ x.callees) && Q' x

/-- The callees and the callers of a right node that count. -/
def rightCount (b : List Node) (n : Node) (Q : Node → Bool) : ℕ :=
  n.callees.countP
      (fun e ↦ decide (∃ y ∈ b, (y.group, y.entry) = (n.group, e) ∧ Q y = true)) +
    b.countP fun y ↦ decide (CallsInGroup y n) && Q y

def pairedLeft (K : List (Node × Node)) (x : Node) : Bool := decide (∃ q ∈ K, q.1 = x)

def pairedRight (K : List (Node × Node)) (y : Node) : Bool := decide (∃ q ∈ K, q.2 = y)

/-- The partner of `x` is a callee of `n`. -/
def partnerCalled (K : List (Node × Node)) (n x : Node) : Bool :=
  decide (∃ q ∈ K, q.1 = x ∧ CallsInGroup n q.2)

/-- The partner of `x` is a caller of `n`. -/
def partnerCalls (K : List (Node × Node)) (n x : Node) : Bool :=
  decide (∃ q ∈ K, q.1 = x ∧ CallsInGroup q.2 n)

/-- The graph score of two nodes under the pairs `K`. -/
def nodeGraph (a b : List Node) (K : List (Node × Node)) (m n : Node) : Float :=
  dice (leftCount a m (partnerCalled K n) (partnerCalls K n))
    (leftCount a m (pairedLeft K) (pairedLeft K)) (rightCount b n (pairedRight K))

/-! ## Nodes that take no part -/

/-- The same nodes with signal, in whatever order, and any without. -/
def SameUsable (l l' : List Node) : Prop :=
  (l.filter fun x ↦ usable x.fp).Perm (l'.filter fun x ↦ usable x.fp)

namespace SameUsable

variable {l l' : List Node}

theorem of_perm (h : l.Perm l') : SameUsable l l' := h.filter _

theorem mem_iff (h : SameUsable l l') {x : Node} (hx : usable x.fp = true) : x ∈ l ↔ x ∈ l' := by
  have hmem : x ∈ l.filter (fun x ↦ usable x.fp) ↔ x ∈ l'.filter fun x ↦ usable x.fp :=
    List.Perm.mem_iff h
  rwa [List.mem_filter, List.mem_filter, and_iff_left hx, and_iff_left hx] at hmem

theorem countP_eq (h : SameUsable l l') {P : Node → Bool}
    (hP : ∀ x, P x = true → usable x.fp = true) : l.countP P = l'.countP P := by
  have hcount : ∀ m : List Node, (m.filter fun x ↦ usable x.fp).countP P = m.countP P := by
    intro m
    rw [List.countP_filter]
    refine List.countP_congr fun x _ ↦ ?_
    rw [Bool.and_eq_true]
    exact ⟨And.left, fun hx ↦ ⟨hx, hP x hx⟩⟩
  rw [← hcount l, ← hcount l', List.Perm.countP_eq P h]

end SameUsable

theorem leftCount_congr {a a' : List Node} (h : SameUsable a' a) (m : Node) {Q Q' : Node → Bool}
    (hQ : ∀ x, Q x = true → usable x.fp = true) (hQ' : ∀ x, Q' x = true → usable x.fp = true) :
    leftCount a' m Q Q' = leftCount a m Q Q' := by
  have hcallee : ∀ e, (∃ x ∈ a', x.entry = e ∧ Q x = true) ↔ ∃ x ∈ a, x.entry = e ∧ Q x = true :=
    fun e ↦ exists_congr fun x ↦ and_congr_left fun hx ↦ h.mem_iff (hQ x hx.2)
  have hcaller : ∀ x, (decide (m.entry ∈ x.callees) && Q' x) = true → usable x.fp = true :=
    fun x hx ↦ hQ' x (Bool.and_eq_true_iff.mp hx).2
  rw [leftCount, leftCount, h.countP_eq hcaller]
  simp only [hcallee]

theorem rightCount_congr {b b' : List Node} (h : SameUsable b' b) (n : Node) {Q : Node → Bool}
    (hQ : ∀ y, Q y = true → usable y.fp = true) : rightCount b' n Q = rightCount b n Q := by
  have hcallee : ∀ e, (∃ y ∈ b', (y.group, y.entry) = (n.group, e) ∧ Q y = true) ↔
      ∃ y ∈ b, (y.group, y.entry) = (n.group, e) ∧ Q y = true :=
    fun e ↦ exists_congr fun y ↦ and_congr_left fun hy ↦ h.mem_iff (hQ y hy.2)
  have hcaller : ∀ y, (decide (CallsInGroup y n) && Q y) = true → usable y.fp = true :=
    fun y hy ↦ hQ y (Bool.and_eq_true_iff.mp hy).2
  rw [rightCount, rightCount, h.countP_eq hcaller]
  simp only [hcallee]

/-- Nodes without signal add nothing to a graph score, and the order of the others
does not matter. -/
theorem nodeGraph_congr {a b a' b' : List Node} (ha : SameUsable a' a) (hb : SameUsable b' b)
    {K K' : List (Node × Node)} (hK : K'.Perm K)
    (hu : ∀ q ∈ K, usable q.1.fp = true ∧ usable q.2.fp = true) (m n : Node) :
    nodeGraph a' b' K' m n = nodeGraph a b K m n := by
  have hleft : pairedLeft K' = pairedLeft K := by
    funext x
    simp only [pairedLeft, hK.mem_iff]
  have hright : pairedRight K' = pairedRight K := by
    funext x
    simp only [pairedRight, hK.mem_iff]
  have hcalled : partnerCalled K' n = partnerCalled K n := by
    funext x
    simp only [partnerCalled, hK.mem_iff]
  have hcalls : partnerCalls K' n = partnerCalls K n := by
    funext x
    simp only [partnerCalls, hK.mem_iff]
  have huleft : ∀ x, pairedLeft K x = true → usable x.fp = true := by
    intro x hx
    obtain ⟨q, hq, rfl⟩ := of_decide_eq_true hx
    exact (hu q hq).1
  have huright : ∀ y, pairedRight K y = true → usable y.fp = true := by
    intro y hy
    obtain ⟨q, hq, rfl⟩ := of_decide_eq_true hy
    exact (hu q hq).2
  have hucalled : ∀ x, partnerCalled K n x = true → usable x.fp = true := by
    intro x hx
    obtain ⟨q, hq, rfl, -⟩ := of_decide_eq_true hx
    exact (hu q hq).1
  have hucalls : ∀ x, partnerCalls K n x = true → usable x.fp = true := by
    intro x hx
    obtain ⟨q, hq, rfl, -⟩ := of_decide_eq_true hx
    exact (hu q hq).1
  rw [nodeGraph, nodeGraph, hleft, hright, hcalled, hcalls, leftCount_congr ha m hucalled hucalls,
    leftCount_congr ha m huleft huleft, rightCount_congr hb n huright]

/-- The nodes of the pairs of an assignment. -/
def nodePairs (a b : List Node) (assign : List Pair) : List (Node × Node) :=
  assign.map fun p ↦ (nodeAt a p.a, nodeAt b p.b)

section Score

variable {a b : List Node} {assign : List Pair}

theorem isSome_search_partner (hone : OneToOne a b assign) (theirs : List ℕ) (x : ℕ) :
    (match (partners a.length assign).getD x none with
      | some y => (binarySearch theirs y).isSome
      | none => false) = true ↔
      ∃ p ∈ assign, p.a = x ∧ (binarySearch theirs p.b).isSome = true := by
  cases hx : (partners a.length assign).getD x none with
  | some y =>
      obtain ⟨p, hp, hpx, rfl⟩ := (partners_eq_some_iff hone).mp hx
      constructor
      · intro hfound
        exact ⟨p, hp, hpx, hfound⟩
      · rintro ⟨q, hq, hqx, hfound⟩
        have hqy := (partners_eq_some_iff hone).mpr ⟨q, hq, hqx, rfl⟩
        rw [hx] at hqy
        rw [Option.some.inj hqy]
        exact hfound
  | none =>
      simp only [Bool.false_eq_true, false_iff]
      rintro ⟨p, hp, hpx, -⟩
      rw [(partners_eq_some_iff hone).mpr ⟨p, hp, hpx, rfl⟩] at hx
      cases hx

/-- Inside the lists, a pair is known by the left node it has. -/
theorem exists_nodePairs_iff (h : Keyed a b) (hone : OneToOne a b assign) {x : ℕ}
    (hx : x < a.length) {R : Node → Prop} :
    (∃ q ∈ nodePairs a b assign, q.1 = nodeAt a x ∧ R q.2) ↔
      ∃ p ∈ assign, p.a = x ∧ R (nodeAt b p.b) := by
  constructor
  · rintro ⟨q, hq, hqx, hR⟩
    obtain ⟨p, hp, rfl⟩ := List.mem_map.mp hq
    exact ⟨p, hp, nodeAt_injOn h.a_nodup (hone.range p hp).1 hx (congrArg Node.entry hqx), hR⟩
  · rintro ⟨p, hp, rfl, hR⟩
    exact ⟨_, List.mem_map_of_mem hp, rfl, hR⟩

theorem countP_left (h : Keyed a b) {i : ℕ} (hi : i < a.length) {P P' : ℕ → Bool}
    {Q Q' : Node → Bool}
    (hPQ : ∀ x ∈ (aCallees a).getD i [], P x = Q (nodeAt a x))
    (hPQ' : ∀ x < a.length, P' x = Q' (nodeAt a x)) :
    ((aCallees a).getD i []).countP P +
        ((reverse (aCallees a) a.length).getD i []).countP P' =
      leftCount a (nodeAt a i) Q Q' := by
  rw [leftCount]
  congr 1
  · rw [getD_aCallees hi]
    refine countP_positions h.a_nodup fun e he x hx hxe ↦ hPQ x ?_
    rw [mem_aCallees_iff h hi, hxe]
    exact ⟨hx, he⟩
  · exact countP_callers hi (fun x ↦ caller_aCallees_iff h hi) fun x hx _ ↦ hPQ' x hx

theorem countP_right (h : Keyed a b) {j : ℕ} (hj : j < b.length) {P : ℕ → Bool}
    {Q : Node → Bool} (hPQ : ∀ y < b.length, P y = Q (nodeAt b y)) :
    ((bCallees b).getD j []).countP P +
        ((reverse (bCallees b) b.length).getD j []).countP P =
      rightCount b (nodeAt b j) Q := by
  rw [rightCount]
  congr 1
  · rw [getD_bCallees hj, countP_positions h.b_nodup fun _ _ y hy _ ↦ hPQ y hy, List.countP_map]
    rfl
  · exact countP_callers hj (fun y ↦ caller_bCallees_iff h hj) fun y hy _ ↦ hPQ y hy

/-- Where the searches over a callee list find what is there, the graph score
of two positions is that of their nodes. -/
theorem graphScore_eq_nodeGraph (h : Keyed a b) (hone : OneToOne a b assign) {i j : ℕ}
    (hi : i < a.length) (hj : j < b.length)
    (hsearch : ∀ p ∈ assign, p.a ∈ (aCallees a).getD i [] → p.b ∈ (bCallees b).getD j [] →
      (binarySearch ((bCallees b).getD j []) p.b).isSome = true) :
    graphScore i j (partners a.length assign) (pairedB b.length assign) (graphOf a b) =
      nodeGraph a b (nodePairs a b assign) (nodeAt a i) (nodeAt b j) := by
  have hleft : ∀ x < a.length, ((partners a.length assign).getD x none).isSome =
      pairedLeft (nodePairs a b assign) (nodeAt a x) := by
    intro x hx
    have hiff := @exists_nodePairs_iff a b assign h hone x hx fun _ ↦ True
    simp only [and_true] at hiff
    rw [Bool.eq_iff_iff, isSome_partners_iff hone, pairedLeft, decide_eq_true_eq, hiff]
  have hright : ∀ y < b.length, (pairedB b.length assign).getD y false =
      pairedRight (nodePairs a b assign) (nodeAt b y) := by
    intro y hy
    rw [Bool.eq_iff_iff, pairedB_iff hone, pairedRight, decide_eq_true_eq]
    constructor
    · rintro ⟨p, hp, rfl⟩
      exact ⟨_, List.mem_map_of_mem hp, rfl⟩
    · rintro ⟨q, hq, hqy⟩
      obtain ⟨p, hp, rfl⟩ := List.mem_map.mp hq
      have hkey := congrArg (fun n ↦ (n.group, n.entry)) hqy
      exact ⟨p, hp, nodeAt_injOn h.b_nodup (hone.range p hp).2 hy hkey⟩
  have hcallee : ∀ x ∈ (aCallees a).getD i [],
      (match (partners a.length assign).getD x none with
        | some y => (binarySearch ((bCallees b).getD j []) y).isSome
        | none => false) = partnerCalled (nodePairs a b assign) (nodeAt b j) (nodeAt a x) := by
    intro x hx
    have hxlt := ((mem_aCallees_iff h hi).mp hx).1
    rw [Bool.eq_iff_iff, isSome_search_partner hone, partnerCalled, decide_eq_true_eq,
      exists_nodePairs_iff h hone hxlt]
    refine exists_congr fun p ↦ and_congr_right fun hp ↦ and_congr_right fun hpx ↦ ?_
    constructor
    · intro hfound
      exact ((mem_bCallees_iff h hj).mp (mem_of_binarySearch hfound)).2
    · intro hcalls
      exact hsearch p hp (by rwa [hpx])
        ((mem_bCallees_iff h hj).mpr ⟨(hone.range p hp).2, hcalls⟩)
  have hcaller : ∀ x < a.length,
      (match (partners a.length assign).getD x none with
        | some y => (binarySearch ((reverse (bCallees b) b.length).getD j []) y).isSome
        | none => false) = partnerCalls (nodePairs a b assign) (nodeAt b j) (nodeAt a x) := by
    intro x hx
    have hsorted : ((reverse (bCallees b) b.length).getD j []).Pairwise (· ≤ ·) :=
      (increasing_reverse _ _ _).imp fun hlt ↦ hlt.le
    rw [Bool.eq_iff_iff, isSome_search_partner hone, partnerCalls, decide_eq_true_eq,
      @exists_nodePairs_iff a b assign h hone x hx fun y ↦ CallsInGroup y (nodeAt b j)]
    refine exists_congr fun p ↦ and_congr_right fun hp ↦ and_congr_right fun _ ↦ ?_
    rw [binarySearch_isSome_iff hsorted, mem_reverse hj,
      mem_bCallees_iff h (hone.range p hp).2, and_iff_right hj]
  rw [nodeGraph, ← countP_left h hi hcallee hcaller,
    ← countP_left h hi (fun x hx ↦ hleft x ((mem_aCallees_iff h hi).mp hx).1) hleft,
    ← countP_right h hj hright]
  rfl

end Score

end Fnprint
