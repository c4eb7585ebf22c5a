import Mathlib

/-!
# Round-robin shards of a list

The elements at the positions congruent to `i` modulo `n`.  The shards of a
list partition it.
-/

namespace Sharding

variable {α : Type*}

/-- The elements at the positions that leave remainder `i`. -/
def shard (n i : ℕ) (l : List α) : List α :=
  (l.zipIdx.filter fun p ↦ p.2 % n == i).map Prod.fst

@[simp] theorem shard_one_zero (l : List α) : shard 1 0 l = l := by
  have hall : (l.zipIdx.filter fun p ↦ p.2 % 1 == 0) = l.zipIdx := by
    apply List.filter_eq_self.mpr
    intro p _
    simp [Nat.mod_one]
  rw [shard, hall, List.zipIdx_map_fst]

/-- Filtering by every value of a label below `n` keeps what is labelled below `n`. -/
theorem perm_flatMap_filter (g : α → ℕ) (l : List α) (n : ℕ) :
    ((List.range n).flatMap fun i ↦ l.filter fun x ↦ g x == i).Perm
      (l.filter fun x ↦ decide (g x < n)) := by
  induction n with
  | zero => simp
  | succ n ih =>
      rw [List.range_succ, List.flatMap_append, List.flatMap_singleton]
      refine (ih.append_right _).trans ?_
      have hlow : l.filter (fun x ↦ decide (g x < n)) =
          (l.filter fun x ↦ decide (g x < n + 1)).filter fun x ↦ decide (g x < n) := by
        rw [List.filter_filter]
        apply List.filter_congr
        intro x _
        by_cases h : g x < n
        · simp [h, Nat.lt_succ_of_lt h]
        · simp [h]
      have htop : l.filter (fun x ↦ g x == n) =
          (l.filter fun x ↦ decide (g x < n + 1)).filter fun x ↦ !decide (g x < n) := by
        rw [List.filter_filter]
        apply List.filter_congr
        intro x _
        rw [Bool.eq_iff_iff]
        simp
        omega
      rw [hlow, htop]
      exact List.filter_append_perm _ _

theorem perm_flatMap_shard {n : ℕ} (hn : 0 < n) (l : List α) :
    ((List.range n).flatMap fun i ↦ shard n i l).Perm l := by
  have hmap : ((List.range n).flatMap fun i ↦ shard n i l) =
      ((List.range n).flatMap fun i ↦ l.zipIdx.filter fun p ↦ p.2 % n == i).map Prod.fst := by
    rw [List.map_flatMap]
    rfl
  have hall : (l.zipIdx.filter fun p ↦ decide (p.2 % n < n)) = l.zipIdx := by
    apply List.filter_eq_self.mpr
    intro p _
    simpa using Nat.mod_lt p.2 hn
  have hperm := perm_flatMap_filter (fun p : α × ℕ ↦ p.2 % n) l.zipIdx n
  rw [hall] at hperm
  rw [hmap]
  simpa using hperm.map Prod.fst

theorem existsUnique_shard {n : ℕ} (hn : 0 < n) (k : ℕ) : ∃! i, i < n ∧ k % n = i :=
  ⟨k % n, ⟨Nat.mod_lt k hn, rfl⟩, fun _ h ↦ h.2.symm⟩

end Sharding
