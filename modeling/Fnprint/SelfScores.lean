import Fnprint.Lib.Overlap
import Fnprint.Assignment
import Fnprint.Match
import Fnprint.Neighbours

/-!
# The graph scores of an index against itself

When every usable function is paired with itself, the graph score of two
functions is the overlap of their usable neighbours, and no pair of different
functions exceeds either of its two diagonal pairs.
-/

namespace Fnprint

open Binary64 StableSort GreedyMatching KeyMap Search Overlap

/-- What indexing a binary guarantees. -/
structure Indexed (a : List IndexedFunc) : Prop where
  entries : a.Pairwise fun f g ↦ f.entry < g.entry
  callees : ∀ f ∈ a, f.callees.Pairwise (· < ·)
  sigs : ∀ f ∈ a, f.fp.sig.length = sigLen

/-- The same of the nodes, none of which has a group. -/
structure IndexedNodes (n : List Node) : Prop where
  entries : n.Pairwise fun x y ↦ x.entry < y.entry
  callees : ∀ x ∈ n, x.callees.Pairwise (· < ·)
  sigs : ∀ x ∈ n, x.fp.sig.length = sigLen
  group : ∀ x ∈ n, x.group = ""

theorem Indexed.nodes {a : List IndexedFunc} (h : Indexed a) :
    IndexedNodes (a.map Node.fromIndexed) where
  entries := List.pairwise_map.mpr h.entries
  callees x hx := by
    obtain ⟨f, hf, rfl⟩ := List.mem_map.mp hx
    exact h.callees f hf
  sigs x hx := by
    obtain ⟨f, hf, rfl⟩ := List.mem_map.mp hx
    exact h.sigs f hf
  group x hx := by
    obtain ⟨f, -, rfl⟩ := List.mem_map.mp hx
    rfl

section Nodes

variable {n : List Node}

theorem IndexedNodes.length_le (h : IndexedNodes n) : n.length ≤ 2 ^ 64 :=
  length_le_of_entries h.entries

/-! ## The neighbour lists -/

theorem lookup_bIdx_of_group {g : String} (h : ∀ x ∈ n, x.group = g) (e : UInt64) :
    (bIdx n).lookup (g, e) = (aIdx n).lookup e := by
  have hkeys : (n.zipIdx.map fun p ↦ ((p.1.group, p.1.entry), p.2)) =
      (n.zipIdx.map fun p ↦ (p.1.entry, p.2)).map fun q ↦ ((g, q.1), q.2) := by
    rw [List.map_map]
    apply List.map_congr_left
    rintro ⟨x, i⟩ hp
    simp only [Function.comp_apply, h x (List.fst_mem_of_mem_zipIdx hp)]
  rw [bIdx, indexBy, hkeys, lookup_collect_map (Prod.mk_right_injective g)]
  rfl

/-- In one group the callees are those of the entries alone. -/
theorem bCallees_of_group {g : String} (h : ∀ x ∈ n, x.group = g) : bCallees n = aCallees n := by
  apply List.map_congr_left
  intro x hx
  rw [h x hx]
  exact List.filterMap_congr fun e _ ↦ lookup_bIdx_of_group h e

theorem IndexedNodes.pairwise_aCallees (h : IndexedNodes n) (i : ℕ) :
    ((aCallees n).getD i []).Pairwise (· < ·) := by
  have hentry : ∀ {e x}, (aIdx n).lookup e = some x → x < n.length ∧ (nodeAt n x).entry = e := by
    intro e x hx
    obtain ⟨⟨y, hy, rfl⟩, -⟩ := lookup_indexBy_eq_some_iff.mp hx
    obtain ⟨hlt, hget⟩ := List.getElem?_eq_some_iff.mp hy
    exact ⟨hlt, by rw [nodeAt_eq_getElem hlt, hget]⟩
  rw [aCallees, List.getD_eq_getElem?_getD, List.getElem?_map]
  cases hi : n[i]? with
  | none => exact List.Pairwise.nil
  | some x =>
      exact pairwise_filterMap_position h.entries (h.callees x (List.mem_of_getElem? hi)) hentry

/-! ## Scores under the diagonal assignment -/

/-- Every usable function is paired with itself, at similarity and score one. -/
structure SelfPaired (n : List Node) (assign : List Pair) : Prop where
  oneToOne : OneToOne n n assign
  diag : ∀ p ∈ assign, p.b = p.a ∧ p.a ∈ usableIdx n ∧ p.sim = 1.0 ∧ p.score = 1.0
  all : ∀ i ∈ usableIdx n, ∃ p ∈ assign, p.a = i

theorem SelfPaired.partners_iff {assign : List Pair} (h : SelfPaired n assign) {x y : ℕ} :
    (partners n.length assign).getD x none = some y ↔ x = y ∧ x ∈ usableIdx n := by
  rw [partners_eq_some_iff h.oneToOne]
  constructor
  · rintro ⟨p, hp, rfl, rfl⟩
    obtain ⟨hb, hu, -⟩ := h.diag p hp
    exact ⟨hb.symm, hu⟩
  · rintro ⟨rfl, hx⟩
    obtain ⟨p, hp, rfl⟩ := h.all x hx
    exact ⟨p, hp, rfl, (h.diag p hp).1⟩

/-- A position that has a partner under the diagonal assignment. -/
def isUsable (n : List Node) (x : ℕ) : Bool := decide (x ∈ usableIdx n)

theorem SelfPaired.countP_partners {assign : List Pair} (h : SelfPaired n assign) (l : List ℕ) :
    (l.countP fun x ↦ ((partners n.length assign).getD x none).isSome) = l.countP (isUsable n) := by
  apply List.countP_congr
  intro x _
  rw [Option.isSome_iff_exists, isUsable, decide_eq_true_eq]
  simp only [h.partners_iff]
  exact ⟨fun ⟨y, _, hx⟩ ↦ hx, fun hx ↦ ⟨x, rfl, hx⟩⟩

theorem SelfPaired.countP_pairedB {assign : List Pair} (h : SelfPaired n assign) (l : List ℕ) :
    (l.countP fun y ↦ (pairedB n.length assign).getD y false) = l.countP (isUsable n) := by
  apply List.countP_congr
  intro y _
  rw [pairedB_iff h.oneToOne, isUsable, decide_eq_true_eq]
  constructor
  · rintro ⟨p, hp, rfl⟩
    obtain ⟨hb, hu, -⟩ := h.diag p hp
    rwa [hb]
  · intro hy
    obtain ⟨p, hp, rfl⟩ := h.all y hy
    exact ⟨p, hp, (h.diag p hp).1⟩

theorem SelfPaired.hits_eq {assign : List Pair} (h : SelfPaired n assign) (ours : List ℕ)
    {theirs : List ℕ} (hsorted : theirs.Pairwise (· < ·)) :
    hits (partners n.length assign) ours theirs = common (isUsable n) ours theirs := by
  apply List.countP_congr
  intro x _
  cases hx : (partners n.length assign).getD x none with
  | some y =>
      obtain ⟨rfl, hu⟩ := h.partners_iff.mp hx
      have hle : theirs.Pairwise (· ≤ ·) := hsorted.imp fun hlt ↦ hlt.le
      simp [isUsable, hu, binarySearch_isSome_iff hle]
  | none =>
      have hnot : x ∉ usableIdx n := by
        intro hu
        rw [h.partners_iff.mpr ⟨rfl, hu⟩] at hx
        cases hx
      simp [isUsable, hnot]

/-- The overlap of two neighbourhoods when everything usable is paired. -/
def overlapAt (n : List Node) (i j : ℕ) : Float :=
  let callees := fun k ↦ (aCallees n).getD k []
  let callers := fun k ↦ (reverse (aCallees n) n.length).getD k []
  dice (common (isUsable n) (callees i) (callees j) + common (isUsable n) (callers i) (callers j))
    ((callees i).countP (isUsable n) + (callers i).countP (isUsable n))
    ((callees j).countP (isUsable n) + (callers j).countP (isUsable n))

theorem SelfPaired.graphScore_eq {assign : List Pair} (h : SelfPaired n assign)
    (hn : IndexedNodes n) (i j : ℕ) :
    graphScore i j (partners n.length assign) (pairedB n.length assign) (graphOf n n) =
      overlapAt n i j := by
  have hb := bCallees_of_group hn.group
  simp only [graphScore, graphOf, hb, h.countP_partners, h.countP_pairedB,
    h.hits_eq _ (hn.pairwise_aCallees j), h.hits_eq _ (increasing_reverse _ _ j)]
  rfl

/-- Graph scores in which a pair never exceeds its two diagonal pairs. -/
structure Dominated (G : ℕ → ℕ → Float) : Prop where
  le : ∀ i j k, k = i ∨ k = j → bits (G i j) ≤ bits (G k k)
  diag : ∀ i, G i i = 0.0 ∨ G i i = 1.0

theorem dominated_zero : Dominated fun _ _ ↦ 0.0 := ⟨fun _ _ _ _ ↦ le_refl _, fun _ ↦ Or.inl rfl⟩

theorem length_le_of_increasing {l : List ℕ} (hl : l.Pairwise (· < ·)) {u : ℕ → Bool}
    (hu : ∀ x, u x = true → x < n.length) : l.countP u ≤ n.length := by
  have hsub : l.filter u ⊆ List.range n.length := fun x hx ↦
    List.mem_range.mpr (hu x (List.mem_filter.mp hx).2)
  have hnodup : (l.filter u).Nodup := (hl.imp fun h ↦ h.ne).filter u
  have hle := (hnodup.subperm hsub).length_le
  rwa [List.length_range, ← List.countP_eq_length_filter] at hle

theorem dominated_overlapAt (hn : IndexedNodes n) : Dominated (overlapAt n) := by
  have hlt : ∀ x, isUsable n x = true → x < n.length := fun x hx ↦
    (mem_usableIdx.mp (of_decide_eq_true hx)).1
  have hlen := hn.length_le
  have hcallees := hn.pairwise_aCallees
  have hcallers := increasing_reverse (aCallees n) n.length
  have hfits : ∀ k, ((aCallees n).getD k []).countP (isUsable n) +
      ((reverse (aCallees n) n.length).getD k []).countP (isUsable n) ≤ 2 ^ 127 := by
    intro k
    have h₁ := length_le_of_increasing (hcallees k) hlt
    have h₂ := length_le_of_increasing (hcallers k) hlt
    omega
  have hself : ∀ k, overlapAt n k k =
      dice (((aCallees n).getD k []).countP (isUsable n) +
          ((reverse (aCallees n) n.length).getD k []).countP (isUsable n))
        (((aCallees n).getD k []).countP (isUsable n) +
          ((reverse (aCallees n) n.length).getD k []).countP (isUsable n))
        (((aCallees n).getD k []).countP (isUsable n) +
          ((reverse (aCallees n) n.length).getD k []).countP (isUsable n)) := by
    intro k
    simp only [overlapAt, common_self]
  refine ⟨fun i j k hk ↦ ?_, fun i ↦ ?_⟩
  · rw [hself k]
    apply bits_dice_le ?_ (hfits i) (hfits j)
    · exact Nat.add_le_add (common_le_left _ _ _) (common_le_left _ _ _)
    · exact Nat.add_le_add (common_le_right _ ((hcallees i).imp fun h ↦ h.ne) _)
        (common_le_right _ ((hcallers i).imp fun h ↦ h.ne) _)
    · rcases hk with rfl | rfl
      · exact Or.inl rfl
      · exact Or.inr rfl
  · rw [hself i]
    exact dice_self (hfits i)

end Nodes

end Fnprint
