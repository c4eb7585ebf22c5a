import Mathlib

/-!
# Binary search in a list

The branch-free binary search of a slice: the window is halved without an
early exit and the one remaining position is compared at the end.  On any
list a hit is an occurrence; on a sorted list every occurrence gives a hit.
-/

namespace Search

variable {α : Type*} [LinearOrder α]

/-- Halve the window `[base, base + size)` until one position is left. -/
def narrow (l : List α) (y : α) : ℕ → ℕ → ℕ → ℕ
  | 0, base, _ => base
  | fuel + 1, base, size =>
      if 1 < size then
        let half := size / 2
        let mid := base + half
        let base := if y < l.getD mid y then base else mid
        narrow l y fuel base (size - half)
      else base

/-- The position the search settles on, when it holds the target.  The window
loses at least one position a round, so the length is fuel enough. -/
def binarySearch (l : List α) (y : α) : Option ℕ :=
  let base := narrow l y l.length 0 l.length
  if l[base]? = some y then some base else none

theorem mem_of_binarySearch {l : List α} {y : α} (h : (binarySearch l y).isSome) : y ∈ l := by
  unfold binarySearch at h
  by_cases hb : l[narrow l y l.length 0 l.length]? = some y
  · exact List.mem_of_getElem? hb
  · simp [hb] at h

/-- The loop invariant: the target still occurs inside the window. -/
def InWindow (l : List α) (y : α) (base size : ℕ) : Prop :=
  ∃ k, l[k]? = some y ∧ base ≤ k ∧ k < base + size

theorem inWindow_step {l : List α} (hl : l.Pairwise (· ≤ ·)) {y : α} {base size : ℕ}
    (hsize : 1 < size) (hlen : base + size ≤ l.length) (h : InWindow l y base size) :
    InWindow l y (if y < l.getD (base + size / 2) y then base else base + size / 2)
      (size - size / 2) := by
  obtain ⟨k, hk, hbk, hks⟩ := h
  have hmid : base + size / 2 < l.length := by omega
  rw [List.getD_eq_getElem l y hmid]
  obtain ⟨hkl, hky⟩ := List.getElem?_eq_some_iff.mp hk
  by_cases hlt : y < l[base + size / 2]
  · -- everything from the middle on is above the target
    rw [if_pos hlt]
    have hkm : k < base + size / 2 := by
      by_contra hge
      rcases Nat.lt_or_ge (base + size / 2) k with hmk | hmk
      · have := List.pairwise_iff_getElem.mp hl _ _ hmid hkl hmk
        rw [hky] at this
        exact absurd hlt (not_lt.mpr this)
      · have heq : k = base + size / 2 := by omega
        subst heq
        exact absurd hlt (by rw [hky]; exact lt_irrefl y)
    exact ⟨k, hk, hbk, by omega⟩
  · rw [if_neg hlt]
    by_cases hmk : base + size / 2 ≤ k
    · exact ⟨k, hk, hmk, by omega⟩
    · -- the occurrence lies below the middle, so the middle repeats it
      have hle := List.pairwise_iff_getElem.mp hl _ _ hkl hmid (by omega)
      rw [hky] at hle
      have heq : l[base + size / 2] = y := le_antisymm (not_lt.mp hlt) hle
      exact ⟨base + size / 2, List.getElem?_eq_some_iff.mpr ⟨hmid, heq⟩, le_refl _, by omega⟩

theorem narrow_hits {l : List α} (hl : l.Pairwise (· ≤ ·)) {y : α} :
    ∀ fuel base size, size ≤ fuel → base + size ≤ l.length → InWindow l y base size →
      l[narrow l y fuel base size]? = some y
  | 0, base, size, hfuel, _, hwin => by
      obtain ⟨k, -, hbk, hks⟩ := hwin
      omega
  | fuel + 1, base, size, hfuel, hlen, hwin => by
      unfold narrow
      by_cases hsize : 1 < size
      · simp only [if_pos hsize]
        have hstep := inWindow_step hl hsize hlen hwin
        apply narrow_hits hl fuel _ _ (by omega) ?_ hstep
        split <;> omega
      · rw [if_neg hsize]
        obtain ⟨k, hk, hbk, hks⟩ := hwin
        have heq : base = k := by omega
        rw [heq, hk]

theorem binarySearch_isSome_iff {l : List α} (hl : l.Pairwise (· ≤ ·)) {y : α} :
    (binarySearch l y).isSome ↔ y ∈ l := by
  refine ⟨mem_of_binarySearch, fun hy ↦ ?_⟩
  obtain ⟨k, hkl, hky⟩ := List.mem_iff_getElem.mp hy
  have hwin : InWindow l y 0 l.length :=
    ⟨k, List.getElem?_eq_some_iff.mpr ⟨hkl, hky⟩, Nat.zero_le k, by omega⟩
  have hhit := narrow_hits hl l.length 0 l.length (le_refl _) (by omega) hwin
  simp [binarySearch, hhit]

/-- Out of order the search can miss: the middle is looked at first. -/
example : (binarySearch [5, 3] 5).isSome = false := by decide

end Search
