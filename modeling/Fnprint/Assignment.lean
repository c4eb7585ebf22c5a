import Fnprint.Candidates

/-!
# One round of the assignment

The claim vectors of the source stand for the kept candidates, so the
assignment is the greedy matching of the ranked candidates, and the partner
vectors of the next round are read off it.
-/

namespace Fnprint

open Binary64 StableSort GreedyMatching KeyMap

instance (a b : List Node) (w : Float) : Std.TransCmp (candCmp a b w) :=
  inferInstanceAs (Std.TransCmp (compareLex _ _))

instance (a : List Node) : Std.TransCmp (acceptCmp a) :=
  inferInstanceAs (Std.TransCmp (compareLex _ _))

/-- The positions of the candidates lie inside the two lists. -/
def InRange (a b : List Node) (cands : List Cand) : Prop :=
  ∀ c ∈ cands, c.a < a.length ∧ c.b < b.length

theorem inRange_candidatesFrom {pool : Node → List ℕ} {a b : List Node}
    (hpool : ∀ n, ∀ j ∈ pool n, j < b.length) : InRange a b (candidatesFrom pool a b) := by
  intro c hc
  obtain ⟨ha, hb, -⟩ := mem_candidatesFrom.mp hc
  exact ⟨(mem_usableIdx.mp ha).1, hpool _ _ hb⟩

theorem lt_of_mem_pool {b : List Node} {n : Node} {j : ℕ} (h : j ∈ pool b n) : j < b.length :=
  (mem_usableIdx.mp (mem_pool.mp h).1).1

theorem InRange.sort {a b : List Node} {cands : List Cand} (h : InRange a b cands)
    (cmp : Cand → Cand → Ordering) : InRange a b (sortBy cmp cands) :=
  fun c hc ↦ h c ((mem_sortBy cmp).mp hc)

theorem InRange.regraph {a b : List Node} {cands : List Cand} (h : InRange a b cands)
    (assign : List Pair) : InRange a b (regraph a b assign cands) := by
  intro c hc
  obtain ⟨d, hd, rfl⟩ := List.mem_map.mp hc
  exact h d hd

/-! ## The claim vectors -/

/-- Marks written into a vector of claims. -/
theorem getD_fill_true {n : ℕ} {l : List ℕ} {i : ℕ} (hi : i < n) :
    (fill n false (l.map fun k ↦ (k, true))).getD i false = true ↔ i ∈ l := by
  rw [getD_fill false _ hi]
  cases h : (collect (l.map fun k ↦ (k, true))).lookup i with
  | none =>
      rw [lookup_collect_eq_none_iff] at h
      simp only [Option.getD_none, Bool.false_eq_true, false_iff]
      exact fun hmem ↦ h (i, true) (List.mem_map_of_mem hmem) rfl
  | some v =>
      obtain ⟨k, hk, heq⟩ := List.mem_map.mp (mem_of_lookup_collect h)
      obtain ⟨rfl, rfl⟩ := Prod.mk.inj heq
      simpa using hk

/-- The state that stands for some kept candidates. -/
def claimsOf (a b : List Node) (w : Float) (kept : List Cand) : Claims :=
  { aTaken := fill a.length false ((kept.map Cand.a).map fun k ↦ (k, true))
    bTaken := fill b.length false ((kept.map Cand.b).map fun k ↦ (k, true))
    out := kept.map (toPair w) }

theorem claim_claimsOf {a b : List Node} (w : Float) {kept : List Cand} {c : Cand}
    (ha : c.a < a.length) (hb : c.b < b.length) :
    claim w (claimsOf a b w kept) c = claimsOf a b w (keep Cand.a Cand.b kept c) := by
  have htaken : ((claimsOf a b w kept).aTaken.getD c.a false ||
      (claimsOf a b w kept).bTaken.getD c.b false) = true ↔
        ∃ d ∈ kept, Meets Cand.a Cand.b d c := by
    rw [Bool.or_eq_true, claimsOf, getD_fill_true ha, getD_fill_true hb, List.mem_map,
      List.mem_map]
    constructor
    · rintro (⟨d, hd, hdc⟩ | ⟨d, hd, hdc⟩)
      · exact ⟨d, hd, Or.inl hdc⟩
      · exact ⟨d, hd, Or.inr hdc⟩
    · rintro ⟨d, hd, hdc | hdc⟩
      · exact Or.inl ⟨d, hd, hdc⟩
      · exact Or.inr ⟨d, hd, hdc⟩
  by_cases h : ∃ d ∈ kept, Meets Cand.a Cand.b d c
  · rw [claim, if_pos (htaken.mpr h), keep, if_pos h]
  · rw [claim, if_neg (fun hh ↦ h (htaken.mp hh)), keep, if_neg h]
    simp [claimsOf, fill_append_singleton]

theorem foldl_claim {a b : List Node} (w : Float) {cands : List Cand} (h : InRange a b cands)
    (kept : List Cand) : cands.foldl (claim w) (claimsOf a b w kept) =
      claimsOf a b w (greedyFrom Cand.a Cand.b kept cands) := by
  induction cands generalizing kept with
  | nil => rfl
  | cons c cands ih =>
      obtain ⟨ha, hb⟩ := h c List.mem_cons_self
      rw [List.foldl_cons, claim_claimsOf w ha hb, greedyFrom_cons]
      exact ih (fun d hd ↦ h d (List.mem_cons_of_mem c hd)) _

/-- The candidates kept in a round. -/
def kept (a b : List Node) (w : Float) (cands : List Cand) : List Cand :=
  greedy Cand.a Cand.b (sortBy (candCmp a b w) cands)

/-- The assignment made of kept candidates. -/
def pairsOf (w : Float) (kept : List Cand) : List Pair :=
  sortBy (byKey Pair.a compare) (kept.map (toPair w))

theorem assignGreedy_eq {a b : List Node} {cands : List Cand} (h : InRange a b cands)
    (w : Float) : assignGreedy cands a b w =
      (sortBy (candCmp a b w) cands, pairsOf w (kept a b w cands)) := by
  have hrun := foldl_claim w (h.sort (candCmp a b w)) []
  simp only [claimsOf, List.map_nil, fill_nil] at hrun
  simp only [assignGreedy, hrun]
  rfl

theorem perm_pairsOf (w : Float) (kept : List Cand) :
    (pairsOf w kept).Perm (kept.map (toPair w)) := perm_sortBy _ _

theorem mem_kept {a b : List Node} {w : Float} {cands : List Cand} {c : Cand}
    (h : c ∈ kept a b w cands) : c ∈ cands :=
  (mem_sortBy _).mp (mem_of_mem_greedy h)

/-! ## What the next round reads -/

/-- An assignment is one-to-one. -/
structure OneToOne (a b : List Node) (assign : List Pair) : Prop where
  range : ∀ p ∈ assign, p.a < a.length ∧ p.b < b.length
  nodup_a : (assign.map Pair.a).Nodup
  nodup_b : (assign.map Pair.b).Nodup

theorem oneToOne_pairsOf {a b : List Node} {cands : List Cand} (h : InRange a b cands)
    (w : Float) : OneToOne a b (pairsOf w (kept a b w cands)) where
  range p hp := by
    obtain ⟨c, hc, rfl⟩ := List.mem_map.mp ((perm_pairsOf w _).mem_iff.mp hp)
    exact h c (mem_kept hc)
  nodup_a := by
    rw [((perm_pairsOf w _).map Pair.a).nodup_iff, List.map_map]
    exact nodup_left_greedy _
  nodup_b := by
    rw [((perm_pairsOf w _).map Pair.b).nodup_iff, List.map_map]
    exact nodup_right_greedy _

theorem partners_eq_some_iff {a b : List Node} {assign : List Pair} (h : OneToOne a b assign)
    {x y : ℕ} : (partners a.length assign).getD x none = some y ↔
      ∃ p ∈ assign, p.a = x ∧ p.b = y := by
  rcases Nat.lt_or_ge x a.length with hx | hx
  · have hnodup : ((assign.map fun p ↦ (p.a, some p.b)).map Prod.fst).Nodup := by
      rw [List.map_map]
      exact h.nodup_a
    have hlookup : ((collect (assign.map fun p ↦ (p.a, some p.b))).lookup x).getD none = some y ↔
        (collect (assign.map fun p ↦ (p.a, some p.b))).lookup x = some (some y) := by
      cases (collect (assign.map fun p ↦ (p.a, some p.b))).lookup x <;> simp
    rw [partners, getD_fill none _ hx, hlookup, lookup_collect_of_nodup hnodup, List.mem_map]
    simp
  · rw [partners, getD_fill_of_le none _ hx]
    simp only [reduceCtorEq, false_iff]
    rintro ⟨p, hp, rfl, -⟩
    exact absurd (h.range p hp).1 (not_lt.mpr hx)

theorem isSome_partners_iff {a b : List Node} {assign : List Pair} (h : OneToOne a b assign)
    {x : ℕ} : ((partners a.length assign).getD x none).isSome = true ↔
      ∃ p ∈ assign, p.a = x := by
  rw [Option.isSome_iff_exists]
  simp only [partners_eq_some_iff h]
  exact ⟨fun ⟨y, p, hp, hx, _⟩ ↦ ⟨p, hp, hx⟩, fun ⟨p, hp, hx⟩ ↦ ⟨p.b, p, hp, hx, rfl⟩⟩

theorem pairedB_iff {a b : List Node} {assign : List Pair} (h : OneToOne a b assign) {y : ℕ} :
    (pairedB b.length assign).getD y false = true ↔ ∃ p ∈ assign, p.b = y := by
  have hmap : (assign.map fun p ↦ (p.b, true)) = (assign.map Pair.b).map fun k ↦ (k, true) := by
    rw [List.map_map]
    rfl
  rcases Nat.lt_or_ge y b.length with hy | hy
  · rw [pairedB, hmap, getD_fill_true hy, List.mem_map]
  · rw [pairedB, getD_fill_of_le false _ hy]
    simp only [Bool.false_eq_true, false_iff]
    rintro ⟨p, hp, rfl⟩
    exact absurd (h.range p hp).2 (not_lt.mpr hy)

end Fnprint
