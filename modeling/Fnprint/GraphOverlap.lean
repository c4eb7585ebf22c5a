import Fnprint.Lib.PartialMatching
import Fnprint.NodeGraph

/-!
# The graph score as an overlap

Where entries and callee lists increase, the counts of the graph score are the
sizes of sets of neighbours, and its searches find what is there.  The score
is then the dice overlap of two neighbourhoods under the matching, and it does
not matter which side comes first as long as no call leaves its group.
-/

namespace Fnprint

open Binary64 StableSort KeyMap Search Overlap PartialMatching

/-- Entries increase along the list, and so does every callee list. -/
structure Increasing (nodes : List Node) : Prop where
  entries : nodes.Pairwise fun x y ↦ x.entry < y.entry
  callees : ∀ x ∈ nodes, x.callees.Pairwise (· < ·)

/-- Callees that are listed belong to the group of their caller. -/
def StayInGroup (nodes : List Node) : Prop :=
  ∀ m ∈ nodes, ∀ n ∈ nodes, n.entry ∈ m.callees → n.group = m.group

/-- The two kinds of neighbours. -/
inductive NeighbourKind
  | callee
  | caller
  deriving DecidableEq

instance : Fintype NeighbourKind where
  elems := {.callee, .caller}
  complete k := by cases k <;> decide

/-- The neighbours of a position on the left, where entries are unique. -/
def leftNeighbours (a : List Node) (i : ℕ) : NeighbourKind → Finset ℕ
  | .callee => (Finset.range a.length).filter fun x ↦ (nodeAt a x).entry ∈ (nodeAt a i).callees
  | .caller => (Finset.range a.length).filter fun x ↦ (nodeAt a i).entry ∈ (nodeAt a x).callees

/-- The neighbours of a position on the right, which stay inside its group. -/
def rightNeighbours (b : List Node) (j : ℕ) : NeighbourKind → Finset ℕ
  | .callee => (Finset.range b.length).filter fun y ↦ CallsInGroup (nodeAt b j) (nodeAt b y)
  | .caller => (Finset.range b.length).filter fun y ↦ CallsInGroup (nodeAt b y) (nodeAt b j)

/-! ## The matching of an assignment -/

def Pair.swap (p : Pair) : Pair := { p with a := p.b, b := p.a }

section Matching

variable {a b : List Node} {assign : List Pair}

theorem OneToOne.swap (h : OneToOne a b assign) : OneToOne b a (assign.map Pair.swap) where
  range p hp := by
    obtain ⟨q, hq, rfl⟩ := List.mem_map.mp hp
    exact (h.range q hq).symm
  nodup_a := by
    rw [List.map_map]
    exact h.nodup_b
  nodup_b := by
    rw [List.map_map]
    exact h.nodup_a

theorem partners_swap_iff (h : OneToOne a b assign) {x y : ℕ} :
    (partners b.length (assign.map Pair.swap)).getD y none = some x ↔
      (partners a.length assign).getD x none = some y := by
  rw [partners_eq_some_iff h.swap, partners_eq_some_iff h]
  constructor
  · rintro ⟨p, hp, rfl, rfl⟩
    obtain ⟨q, hq, rfl⟩ := List.mem_map.mp hp
    exact ⟨q, hq, rfl, rfl⟩
  · rintro ⟨p, hp, rfl, rfl⟩
    exact ⟨p.swap, List.mem_map_of_mem hp, rfl, rfl⟩

/-- The partners of either side, as the partner vector gives them. -/
def matchingOf (h : OneToOne a b assign) : ℕ ≃. ℕ where
  toFun x := (partners a.length assign).getD x none
  invFun y := (partners b.length (assign.map Pair.swap)).getD y none
  inv _ _ := partners_swap_iff h

theorem matchingOf_swap (h : OneToOne a b assign) : matchingOf h.swap = (matchingOf h).symm :=
  PEquiv.ext fun _ ↦ rfl

theorem matchingOf_symm_eq_some_iff (h : OneToOne a b assign) {y : ℕ} :
    ((matchingOf h).symm y).isSome = true ↔ (pairedB b.length assign).getD y false = true := by
  rw [pairedB_iff h]
  refine (isSome_partners_iff h.swap).trans ?_
  constructor
  · rintro ⟨p, hp, rfl⟩
    obtain ⟨q, hq, rfl⟩ := List.mem_map.mp hp
    exact ⟨q, hq, rfl⟩
  · rintro ⟨p, hp, rfl⟩
    exact ⟨p.swap, List.mem_map_of_mem hp, rfl⟩

/-! ## Counting over the neighbour lists -/

/-- A list that enumerates a set in increasing order. -/
structure Enumerates (l : List ℕ) (S : Finset ℕ) : Prop where
  increasing : l.Pairwise (· < ·)
  mem_iff : ∀ x, x ∈ l ↔ x ∈ S

theorem Enumerates.countP_eq {l : List ℕ} {S T : Finset ℕ} (h : Enumerates l S) {P : ℕ → Bool}
    (hT : ∀ x, x ∈ T ↔ x ∈ S ∧ P x = true) : l.countP P = T.card := by
  have hnodup : (l.filter P).Nodup := (h.increasing.imp fun hlt ↦ hlt.ne).filter P
  rw [List.countP_eq_length_filter, ← List.toFinset_card_of_nodup hnodup]
  congr 1
  ext x
  rw [List.mem_toFinset, List.mem_filter, hT, h.mem_iff]

theorem Enumerates.countP_partners {l : List ℕ} {S : Finset ℕ} (h : Enumerates l S)
    (hone : OneToOne a b assign) :
    (l.countP fun x ↦ ((partners a.length assign).getD x none).isSome) =
      (paired (matchingOf hone) S).card :=
  h.countP_eq fun _ ↦ Finset.mem_filter

theorem Enumerates.countP_pairedB {l : List ℕ} {T : Finset ℕ} (h : Enumerates l T)
    (hone : OneToOne a b assign) :
    (l.countP fun y ↦ (pairedB b.length assign).getD y false) =
      (paired (matchingOf hone).symm T).card :=
  h.countP_eq fun y ↦ by
    rw [paired, Finset.mem_filter, matchingOf_symm_eq_some_iff]

theorem Enumerates.hits_eq {ours theirs : List ℕ} {S T : Finset ℕ} (h : Enumerates ours S)
    (h' : Enumerates theirs T) (hone : OneToOne a b assign) :
    hits (partners a.length assign) ours theirs = (matched (matchingOf hone) S T).card := by
  refine h.countP_eq fun x ↦ ?_
  have hle : theirs.Pairwise (· ≤ ·) := h'.increasing.imp fun hlt ↦ hlt.le
  rw [mem_matched]
  refine and_congr_right fun _ ↦ ?_
  change (∃ y ∈ T, (partners a.length assign).getD x none = some y) ↔ _
  cases (partners a.length assign).getD x none with
  | none => simp
  | some y => simp [binarySearch_isSome_iff hle, h'.mem_iff]

end Matching

/-! ## The neighbour lists -/

section Lists

variable {a b : List Node}

theorem keyed_of_increasing (ha : Increasing a) (hb : Increasing b) : Keyed a b where
  a_nodup := List.pairwise_map.mpr (ha.entries.imp fun hlt ↦ UInt64.ne_of_lt hlt)
  b_nodup := List.pairwise_map.mpr (hb.entries.imp fun hlt heq ↦
    UInt64.ne_of_lt hlt (congrArg Prod.snd heq))

theorem enumerates_aCallees (hk : Keyed a b) (ha : Increasing a) {i : ℕ} (hi : i < a.length) :
    Enumerates ((aCallees a).getD i []) (leftNeighbours a i .callee) where
  increasing := by
    rw [getD_aCallees hi]
    exact pairwise_filterMap_position ha.entries (ha.callees _ (nodeAt_mem hi)) fun hx ↦
      (lookup_indexBy_nodeAt hk.a_nodup).mp hx
  mem_iff x := by
    rw [mem_aCallees_iff hk hi, leftNeighbours, Finset.mem_filter, Finset.mem_range]

theorem enumerates_bCallees (hk : Keyed a b) (hb : Increasing b) {j : ℕ} (hj : j < b.length) :
    Enumerates ((bCallees b).getD j []) (rightNeighbours b j .callee) where
  increasing := by
    rw [getD_bCallees hj, List.filterMap_map]
    refine pairwise_filterMap_position hb.entries (hb.callees _ (nodeAt_mem hj)) fun hx ↦ ?_
    obtain ⟨hlt, hkey⟩ := (lookup_indexBy_nodeAt hk.b_nodup).mp hx
    exact ⟨hlt, congrArg Prod.snd hkey⟩
  mem_iff y := by
    rw [mem_bCallees_iff hk hj, rightNeighbours, Finset.mem_filter, Finset.mem_range]

theorem enumerates_aCallers (hk : Keyed a b) {i : ℕ} (hi : i < a.length) :
    Enumerates ((reverse (aCallees a) a.length).getD i []) (leftNeighbours a i .caller) where
  increasing := increasing_reverse _ _ i
  mem_iff x := by
    rw [mem_reverse hi, caller_aCallees_iff hk hi, leftNeighbours, Finset.mem_filter,
      Finset.mem_range]

theorem enumerates_bCallers (hk : Keyed a b) {j : ℕ} (hj : j < b.length) :
    Enumerates ((reverse (bCallees b) b.length).getD j []) (rightNeighbours b j .caller) where
  increasing := increasing_reverse _ _ j
  mem_iff y := by
    rw [mem_reverse hj, caller_bCallees_iff hk hj, rightNeighbours, Finset.mem_filter,
      Finset.mem_range]

theorem sum_neighbourKind (f : NeighbourKind → ℕ) : ∑ k, f k = f .callee + f .caller :=
  Finset.sum_pair (by decide)

theorem graphScore_eq_overlap (ha : Increasing a) (hb : Increasing b) {assign : List Pair}
    (h : OneToOne a b assign) {m n : ℕ} (hm : m < a.length) (hn : n < b.length) :
    graphScore m n (partners a.length assign) (pairedB b.length assign) (graphOf a b) =
      dice (hitCount (matchingOf h) (leftNeighbours a m) (rightNeighbours b n))
        (pairedCount (matchingOf h) (leftNeighbours a m))
        (pairedCount (matchingOf h).symm (rightNeighbours b n)) := by
  have hk := keyed_of_increasing ha hb
  have hac := enumerates_aCallees hk ha hm
  have har := enumerates_aCallers hk hm
  have hbc := enumerates_bCallees hk hb hn
  have hbr := enumerates_bCallers hk hn
  simp only [graphScore, graphOf, hac.countP_partners h, har.countP_partners h,
    hbc.countP_pairedB h, hbr.countP_pairedB h, hac.hits_eq hbc h, har.hits_eq hbr h,
    hitCount, pairedCount, sum_neighbourKind]
  rfl

theorem rightNeighbours_eq_left (h : StayInGroup a) {i : ℕ} (hi : i < a.length) :
    rightNeighbours a i = leftNeighbours a i := by
  have hcalls : ∀ x < a.length, ∀ y < a.length,
      CallsInGroup (nodeAt a x) (nodeAt a y) ↔ (nodeAt a y).entry ∈ (nodeAt a x).callees :=
    fun x hx y hy ↦ and_iff_right_of_imp (h _ (nodeAt_mem hx) _ (nodeAt_mem hy))
  funext k
  cases k with
  | callee =>
      refine Finset.filter_congr fun x hx ↦ hcalls i hi x (Finset.mem_range.mp hx)
  | caller =>
      refine Finset.filter_congr fun x hx ↦ hcalls x (Finset.mem_range.mp hx) i hi

/-- No side has more paired neighbours than nodes of either kind. -/
theorem pairedCount_le {nodes : List Node} (hnodes : Increasing nodes) (e : ℕ ≃. ℕ)
    {N : NeighbourKind → Finset ℕ} (hN : ∀ k, N k ⊆ Finset.range nodes.length) :
    pairedCount e N ≤ 2 ^ 127 := by
  have hlen := length_le_of_entries hnodes.entries
  have hkind : ∀ k, (paired e (N k)).card ≤ nodes.length := fun k ↦
    (Finset.card_le_card ((Finset.filter_subset _ _).trans (hN k))).trans_eq
      (Finset.card_range nodes.length)
  have hcallee := hkind .callee
  have hcaller := hkind .caller
  rw [pairedCount, sum_neighbourKind]
  omega

theorem leftNeighbours_subset (a : List Node) (i : ℕ) (k : NeighbourKind) :
    leftNeighbours a i k ⊆ Finset.range a.length := by
  cases k <;> exact Finset.filter_subset _ _

theorem rightNeighbours_subset (b : List Node) (j : ℕ) (k : NeighbourKind) :
    rightNeighbours b j k ⊆ Finset.range b.length := by
  cases k <;> exact Finset.filter_subset _ _

end Lists

/-! ## The documented overlap -/

/-- A score that is twice the hits over the paired neighbours of both sides.
Up to the precision of a double it tells full agreement from anything less. -/
structure IsOverlap (score : Float) (hit na nb : ℕ) (consistent : Prop) : Prop where
  eq_div : score = if na + nb = 0 then 0.0 else natCast (2 * hit) / natCast (na + nb)
  nonneg : 0.0 ≤ score
  le_one : score ≤ 1.0
  eq_one : na + nb ≠ 0 → consistent → score = 1.0
  of_eq_one : na + nb ≤ 2 ^ 53 → score = 1.0 → na + nb ≠ 0 ∧ consistent

theorem isOverlap_dice {hit na nb : ℕ} {consistent : Prop} (hna : na ≤ 2 ^ 127)
    (hnb : nb ≤ 2 ^ 127) (hle : 2 * hit ≤ na + nb)
    (hiff : 2 * hit = na + nb ↔ consistent) : IsOverlap (dice hit na nb) hit na nb consistent where
  eq_div := rfl
  nonneg := by
    have hbits := bits_dice_le_one hna hnb hle
    rw [le_iff_bits zero_lt_inf.le (hbits.trans one_lt_inf.le), bits_zero]
    exact Nat.zero_le _
  le_one := by
    have hbits := bits_dice_le_one hna hnb hle
    exact (le_iff_bits (hbits.trans one_lt_inf.le) one_lt_inf.le).mpr hbits
  eq_one hpos hcons := dice_eq_one_of_eq hna hnb hpos (hiff.mpr hcons)
  of_eq_one hfew hone := by
    obtain ⟨hpos, heq⟩ := eq_of_dice_eq_one hfew hle hone
    exact ⟨hpos, hiff.mp heq⟩

/-- The graph score is the documented overlap, and it is symmetric. -/
theorem graphScore_overlap {a b : List Node} (ha : Increasing a) (hb : Increasing b)
    {assign : List Pair} (h : OneToOne a b assign) {m n : ℕ} (hm : m < a.length)
    (hn : n < b.length) :
    IsOverlap
        (graphScore m n (partners a.length assign) (pairedB b.length assign) (graphOf a b))
        (hitCount (matchingOf h) (leftNeighbours a m) (rightNeighbours b n))
        (pairedCount (matchingOf h) (leftNeighbours a m))
        (pairedCount (matchingOf h).symm (rightNeighbours b n))
        (Consistent (matchingOf h) (leftNeighbours a m) (rightNeighbours b n) ∧
          Consistent (matchingOf h).symm (rightNeighbours b n) (leftNeighbours a m)) ∧
      (StayInGroup a → StayInGroup b →
        graphScore n m (partners b.length (assign.map Pair.swap))
            (pairedB a.length (assign.map Pair.swap)) (graphOf b a) =
          graphScore m n (partners a.length assign) (pairedB b.length assign) (graphOf a b)) := by
  rw [graphScore_eq_overlap ha hb h hm hn]
  have hleft := hitCount_le (matchingOf h) (leftNeighbours a m) (rightNeighbours b n)
  have hright := hitCount_le_symm (matchingOf h) (leftNeighbours a m) (rightNeighbours b n)
  refine ⟨isOverlap_dice (pairedCount_le ha _ (leftNeighbours_subset a m))
    (pairedCount_le hb _ (rightNeighbours_subset b n)) (by omega)
    (two_mul_hitCount_eq_iff _ _ _), fun hstay_a hstay_b ↦ ?_⟩
  rw [graphScore_eq_overlap hb ha h.swap hn hm, matchingOf_swap, PEquiv.symm_symm,
    rightNeighbours_eq_left hstay_a hm, ← rightNeighbours_eq_left hstay_b hn, hitCount_symm]
  exact dice_comm _ _ _

/-! ## Two functions that call one another -/

def groupNode (group : String) (entry : UInt64) (callees : List UInt64) : Node :=
  { (default : Node) with group := group, entry := entry, callees := callees }

/-- A function of one binary that calls the entry of the next one. -/
def callInto (group : String) : List Node :=
  [groupNode "" 0x10 [0x20], groupNode group 0x20 []]

def bothPaired : List Pair := [⟨0, 0, 1.0, 0.0, 1.0⟩, ⟨1, 1, 1.0, 0.0, 1.0⟩]

theorem increasing_callInto (group : String) : Increasing (callInto group) where
  entries := by simp [callInto, groupNode]
  callees := by simp [callInto, groupNode]

theorem oneToOne_bothPaired (group group' : String) :
    OneToOne (callInto group) (callInto group') bothPaired :=
  ⟨by simp [callInto, bothPaired], by decide, by decide⟩

theorem stayInGroup_callInto : StayInGroup (callInto "") := by
  simp [StayInGroup, callInto, groupNode]

theorem graphScore_overlap_callInto :
    graphScore 0 0 (partners 2 bothPaired) (pairedB 2 bothPaired)
        (graphOf (callInto "") (callInto "")) ≤ 1.0 ∧
      graphScore 0 0 (partners 2 (bothPaired.map Pair.swap))
          (pairedB 2 (bothPaired.map Pair.swap)) (graphOf (callInto "") (callInto "")) =
        graphScore 0 0 (partners 2 bothPaired) (pairedB 2 bothPaired)
          (graphOf (callInto "") (callInto "")) := by
  have hoverlap := graphScore_overlap (increasing_callInto "") (increasing_callInto "")
    (oneToOne_bothPaired "" "") (show 0 < (callInto "").length by decide)
    (show 0 < (callInto "").length by decide)
  exact ⟨hoverlap.1.le_one, hoverlap.2 stayInGroup_callInto stayInGroup_callInto⟩

/-- A call into another group counts on the left only, and two leaves score
zero although no neighbour of theirs disagrees. -/
theorem graphScore_not_overlap :
    (Increasing (callInto "other") ∧ Increasing (callInto "") ∧
      OneToOne (callInto "other") (callInto "") bothPaired ∧
      graphScore 0 0 (partners 2 (bothPaired.map Pair.swap))
          (pairedB 2 (bothPaired.map Pair.swap)) (graphOf (callInto "") (callInto "other")) ≠
        graphScore 0 0 (partners 2 bothPaired) (pairedB 2 bothPaired)
          (graphOf (callInto "other") (callInto ""))) ∧
    ∃ h : OneToOne (callInto "") (callInto "") [],
      Consistent (matchingOf h) (leftNeighbours (callInto "") 1)
          (rightNeighbours (callInto "") 1) ∧
        Consistent (matchingOf h).symm (rightNeighbours (callInto "") 1)
          (leftNeighbours (callInto "") 1) ∧
        graphScore 1 1 (partners 2 []) (pairedB 2 []) (graphOf (callInto "") (callInto "")) ≠
          1.0 := by
  have hnone : OneToOne (callInto "") (callInto "") [] := ⟨by simp, by simp, by simp⟩
  refine ⟨⟨increasing_callInto _, increasing_callInto _, oneToOne_bothPaired _ _, ?_⟩, hnone,
    fun k x _ y hy ↦ ?_, fun k y _ x hx ↦ ?_, ?_⟩
  · decide +kernel
  · obtain ⟨p, hp, -⟩ := (partners_eq_some_iff hnone).mp hy
    cases hp
  · obtain ⟨p, hp, -⟩ := (partners_eq_some_iff hnone.swap).mp hx
    cases hp
  · decide +kernel

end Fnprint
