import Fnprint.Lib.GreedyMatching
import Fnprint.Align

/-!
# The candidates and the greedy assignment

Closed forms of the two halves of a round: the candidate pairs are a filter of
the index pairs, and the assignment is a greedy matching of the ranked
candidates.
-/

namespace Fnprint

open Binary64 StableSort KeyMap GreedyMatching

/-! ## Nodes by position -/

theorem nodeAt_eq_getElem {nodes : List Node} {i : ℕ} (hi : i < nodes.length) :
    nodeAt nodes i = nodes[i] := List.getD_eq_getElem nodes default hi

theorem nodeAt_mem {nodes : List Node} {i : ℕ} (hi : i < nodes.length) :
    nodeAt nodes i ∈ nodes := by
  rw [nodeAt_eq_getElem hi]
  exact List.getElem_mem hi

theorem map_nodeAt_range (nodes : List Node) :
    (List.range nodes.length).map (nodeAt nodes) = nodes :=
  map_getD_range nodes default

theorem zipIdx_eq_map (nodes : List Node) :
    nodes.zipIdx = (List.range nodes.length).map fun i ↦ (nodeAt nodes i, i) :=
  zipIdx_eq_map_range nodes default

/-! ## Nodes by entry -/

section Entries

variable {nodes : List Node} (hnodes : nodes.Pairwise fun x y ↦ x.entry < y.entry)

include hnodes

theorem entry_lt_of_lt {i j : ℕ} (hij : i < j) (hj : j < nodes.length) :
    (nodeAt nodes i).entry < (nodeAt nodes j).entry := by
  have hi := hij.trans hj
  rw [nodeAt_eq_getElem hi, nodeAt_eq_getElem hj]
  exact List.pairwise_iff_getElem.mp hnodes i j hi hj hij

/-- Increasing 64-bit entries bound the number of functions. -/
theorem length_le_of_entries : nodes.length ≤ 2 ^ 64 := by
  have hnodup : (nodes.map fun x ↦ x.entry.toNat).Nodup := by
    rw [List.Nodup, List.pairwise_map]
    exact hnodes.imp fun hlt ↦ (UInt64.lt_iff_toNat_lt.mp hlt).ne
  have hsub : (nodes.map fun x ↦ x.entry.toNat) ⊆ List.range (2 ^ 64) := by
    intro e he
    obtain ⟨x, -, rfl⟩ := List.mem_map.mp he
    exact List.mem_range.mpr x.entry.toNat_lt
  have hle := (hnodup.subperm hsub).length_le
  rwa [List.length_map, List.length_range] at hle

/-- Increasing entries are found at increasing positions. -/
theorem pairwise_filterMap_position {entries : List UInt64} (hentries : entries.Pairwise (· < ·))
    {find : UInt64 → Option ℕ}
    (hfind : ∀ {e i}, find e = some i → i < nodes.length ∧ (nodeAt nodes i).entry = e) :
    (entries.filterMap find).Pairwise (· < ·) := by
  refine hentries.filterMap _ fun e e' hlt y hy z hz ↦ ?_
  obtain ⟨hyn, rfl⟩ := hfind hy
  obtain ⟨-, rfl⟩ := hfind hz
  rcases Nat.lt_trichotomy y z with hyz | rfl | hzy
  · exact hyz
  · exact absurd hlt (UInt64.lt_irrefl _)
  · exact absurd (entry_lt_of_lt hnodes hzy hyn) (UInt64.not_lt.mpr (UInt64.le_of_lt hlt))

end Entries

/-! ## Candidates -/

theorem usableIdx_eq (nodes : List Node) :
    usableIdx nodes = (List.range nodes.length).filter fun i ↦ usable (nodeAt nodes i).fp := by
  rw [usableIdx, usableNodes, zipIdx_eq_map, List.filter_map, List.map_map]
  exact List.map_id _

theorem usableNodes_eq (nodes : List Node) :
    usableNodes nodes = (usableIdx nodes).map fun i ↦ (nodeAt nodes i, i) := by
  rw [usableIdx_eq, usableNodes, zipIdx_eq_map, List.filter_map]
  rfl

theorem mem_usableIdx {nodes : List Node} {i : ℕ} :
    i ∈ usableIdx nodes ↔ i < nodes.length ∧ usable (nodeAt nodes i).fp = true := by
  rw [usableIdx_eq, List.mem_filter, List.mem_range]

theorem nodup_usableIdx (nodes : List Node) : (usableIdx nodes).Nodup := by
  rw [usableIdx_eq]
  exact List.nodup_range.filter _

/-- The band index finds the usable positions that share a band. -/
theorem seen_eq (b : List Node) (fp : Fingerprint) :
    seen b fp = (usableIdx b).filter fun j ↦ SharesBand fp (nodeAt b j).fp := by
  have hmem : ∀ j, j ∈ bandHits (bandIndex ((usableNodes b).map fun p ↦ (p.1.fp, p.2))) fp ↔
      j ∈ usableIdx b ∧ SharesBand fp (nodeAt b j).fp := by
    intro j
    rw [mem_bandHits, usableNodes_eq, List.map_map]
    constructor
    · rintro ⟨y, hy, hshare⟩
      obtain ⟨i, hi, heq⟩ := List.mem_map.mp hy
      obtain ⟨rfl, rfl⟩ := Prod.mk.inj heq
      exact ⟨hi, hshare⟩
    · rintro ⟨hj, hshare⟩
      exact ⟨(nodeAt b j).fp, List.mem_map.mpr ⟨j, hj, rfl⟩, hshare⟩
  rw [seen, sortDedup_eq_filter_range fun j hj ↦ (mem_usableIdx.mp ((hmem j).mp hj).1).1,
    usableIdx_eq, List.filter_filter]
  apply List.filter_congr
  intro j hj
  rw [Bool.and_comm, Bool.eq_iff_iff, Bool.and_eq_true, decide_eq_true_eq, decide_eq_true_eq,
    hmem, mem_usableIdx, and_iff_right (List.mem_range.mp hj)]

theorem mem_pool {b : List Node} {n : Node} {j : ℕ} :
    j ∈ pool b n ↔ j ∈ usableIdx b ∧
      (SharesBand n.fp (nodeAt b j).fp ∨
        ∀ k ∈ usableIdx b, ¬SharesBand n.fp (nodeAt b k).fp) := by
  have hempty : (seen b n.fp).isEmpty = true ↔
      ∀ k ∈ usableIdx b, ¬SharesBand n.fp (nodeAt b k).fp := by
    rw [seen_eq, List.isEmpty_iff, List.filter_eq_nil_iff]
    simp only [decide_eq_true_eq]
  unfold pool
  by_cases h : (seen b n.fp).isEmpty = true
  · rw [if_pos h]
    exact ⟨fun hj ↦ ⟨hj, Or.inr (hempty.mp h)⟩, fun hj ↦ hj.1⟩
  · rw [if_neg h, seen_eq, List.mem_filter, decide_eq_true_eq]
    constructor
    · exact fun hj ↦ ⟨hj.1, Or.inl hj.2⟩
    · rintro ⟨hj, hshare | hnone⟩
      · exact ⟨hj, hshare⟩
      · exact absurd (hempty.mpr hnone) h

theorem nodup_pool (b : List Node) (n : Node) : (pool b n).Nodup := by
  unfold pool
  split
  · exact nodup_usableIdx b
  · rw [seen_eq]
    exact (nodup_usableIdx b).filter _

/-- The candidate of two positions, before any graph score. -/
def candOf (a b : List Node) (i j : ℕ) : Cand :=
  { a := i, b := j, sim := (nodeAt a i).fp.similarity (nodeAt b j).fp, graph := 0.0 }

theorem candidatesFrom_eq (pool : Node → List ℕ) (a b : List Node) :
    candidatesFrom pool a b = (usableIdx a).flatMap fun i ↦
      ((pool (nodeAt a i)).filter fun j ↦ floor ≤ (candOf a b i j).sim).map (candOf a b i) := by
  rw [candidatesFrom, usableNodes_eq, List.flatMap_map]
  apply List.flatMap_congr
  intro i _
  rw [← List.filterMap_eq_map, List.filterMap_filter]
  apply List.filterMap_congr
  intro j _
  by_cases hfloor : floor ≤ (nodeAt a i).fp.similarity (nodeAt b j).fp
  · simp [candOf, hfloor]
  · simp [candOf, hfloor]

theorem mem_candidatesFrom {pool : Node → List ℕ} {a b : List Node} {c : Cand} :
    c ∈ candidatesFrom pool a b ↔
      c.a ∈ usableIdx a ∧ c.b ∈ pool (nodeAt a c.a) ∧ floor ≤ c.sim ∧ c = candOf a b c.a c.b := by
  rw [candidatesFrom_eq]
  constructor
  · intro hc
    obtain ⟨i, hi, hc⟩ := List.mem_flatMap.mp hc
    obtain ⟨j, hj, rfl⟩ := List.mem_map.mp hc
    obtain ⟨hpool, hfloor⟩ := List.mem_filter.mp hj
    exact ⟨hi, hpool, of_decide_eq_true hfloor, rfl⟩
  · rintro ⟨ha, hb, hfloor, hc⟩
    rw [hc] at hfloor
    rw [hc]
    exact List.mem_flatMap.mpr ⟨c.a, ha, List.mem_map.mpr
      ⟨c.b, List.mem_filter.mpr ⟨hb, decide_eq_true hfloor⟩, rfl⟩⟩

/-- The two positions of a candidate. -/
def Cand.ends (c : Cand) : ℕ × ℕ := (c.a, c.b)

theorem nodup_ends_candidatesFrom {pool : Node → List ℕ} {a b : List Node}
    (hpool : ∀ n, (pool n).Nodup) : ((candidatesFrom pool a b).map Cand.ends).Nodup := by
  rw [candidatesFrom_eq, List.map_flatMap, List.nodup_flatMap]
  constructor
  · intro i _
    rw [List.map_map]
    exact ((hpool _).filter _).map fun j k hjk ↦ (Prod.mk.inj hjk).2
  · refine (nodup_usableIdx a).imp fun {i k} hik ↦ ?_
    rw [Function.onFun, List.disjoint_left]
    intro e he he'
    rw [List.map_map] at he he'
    obtain ⟨j, -, rfl⟩ := List.mem_map.mp he
    obtain ⟨l, -, hl⟩ := List.mem_map.mp he'
    exact hik (Prod.mk.inj hl).1.symm

end Fnprint
