import Mathlib

/-!
# Intervals by start and length

How many numbers a list of half-open intervals holds.  Counting lengths counts
each number once exactly when no two intervals meet.
-/

namespace Intervals

def points (i : ℕ × ℕ) : Finset ℕ := Finset.Ico i.1 (i.1 + i.2)

@[simp] theorem mem_points {i : ℕ × ℕ} {b : ℕ} : b ∈ points i ↔ i.1 ≤ b ∧ b < i.1 + i.2 :=
  Finset.mem_Ico

@[simp] theorem card_points (i : ℕ × ℕ) : (points i).card = i.2 := by
  rw [points, Nat.card_Ico, Nat.add_sub_cancel_left]

@[simp] theorem points_zero (a : ℕ) : points (a, 0) = ∅ := by
  simp [points]

/-- The numbers some interval of a list holds. -/
def union : List (ℕ × ℕ) → Finset ℕ
  | [] => ∅
  | i :: l => points i ∪ union l

@[simp] theorem mem_union {l : List (ℕ × ℕ)} {b : ℕ} :
    b ∈ union l ↔ ∃ i ∈ l, b ∈ points i := by
  induction l with
  | nil => simp [union]
  | cons i l ih =>
      rw [union, Finset.mem_union, ih]
      simp only [List.mem_cons, exists_eq_or_imp]

theorem points_subset_union {l : List (ℕ × ℕ)} {i : ℕ × ℕ} (h : i ∈ l) :
    points i ⊆ union l := fun _ hb ↦ mem_union.mpr ⟨i, h, hb⟩

theorem union_subset_iff {l : List (ℕ × ℕ)} {s : Finset ℕ} :
    union l ⊆ s ↔ ∀ i ∈ l, points i ⊆ s := by
  refine ⟨fun h i hi ↦ (points_subset_union hi).trans h, fun h b hb ↦ ?_⟩
  obtain ⟨i, hi, hbi⟩ := mem_union.mp hb
  exact h i hi hbi

theorem union_mono {l l' : List (ℕ × ℕ)} (h : l ⊆ l') : union l ⊆ union l' :=
  union_subset_iff.mpr fun _ hi ↦ points_subset_union (h hi)

def total (l : List (ℕ × ℕ)) : ℕ := (l.map Prod.snd).sum

@[simp] theorem total_cons (i : ℕ × ℕ) (l : List (ℕ × ℕ)) : total (i :: l) = i.2 + total l := by
  simp [total]

/-- Lengths of intervals that do not meet count their numbers. -/
theorem card_union {l : List (ℕ × ℕ)}
    (h : l.Pairwise fun i j ↦ Disjoint (points i) (points j)) : (union l).card = total l := by
  induction l with
  | nil => rfl
  | cons i l ih =>
      obtain ⟨hi, hl⟩ := List.pairwise_cons.mp h
      have hdisj : Disjoint (points i) (union l) := by
        rw [Finset.disjoint_right]
        intro b hb hbi
        obtain ⟨j, hj, hbj⟩ := mem_union.mp hb
        exact Finset.disjoint_left.mp (hi j hj) hbi hbj
      rw [union, Finset.card_union_of_disjoint hdisj, ih hl, card_points, total_cons]

end Intervals
