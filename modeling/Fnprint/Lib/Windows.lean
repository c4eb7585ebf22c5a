import Mathlib

/-!
# Windows of a list

The blocks of `n` consecutive elements of a list.  Only the blocks that reach
over an edited position change: `n` of them for a substitution, and for an
insertion `n` new ones take the place of `n - 1`.
-/

namespace Windows

variable {α : Type*}

/-- The block of `n` elements from position `i` on. -/
def window (n i : ℕ) (l : List α) : List α := (l.drop i).take n

/-- `w` is one of the blocks of `n` elements. -/
def IsWindow (n : ℕ) (w l : List α) : Prop := ∃ i, i + n ≤ l.length ∧ w = window n i l

theorem window_append_left {n i : ℕ} {pre : List α} (h : i + n ≤ pre.length) (suf suf' : List α) :
    window n i (pre ++ suf) = window n i (pre ++ suf') := by
  rw [window, window, List.take_drop, List.take_drop, List.take_append_of_le_length h,
    List.take_append_of_le_length h]

theorem window_append_right {n i : ℕ} (pre suf : List α) :
    window n (pre.length + i) (pre ++ suf) = window n i suf := by
  rw [window, ← List.drop_drop, List.drop_left, window]

/-- The blocks that start at `p` or at one of the `k - 1` positions before it. -/
def windowsAt (n k p : ℕ) (l : List α) : List (List α) :=
  (List.range k).map fun j ↦ window n (p - j) l

theorem mem_windowsAt {n k p i : ℕ} {l : List α} (hi : i ≤ p) (hp : p < i + k) :
    window n i l ∈ windowsAt n k p l :=
  List.mem_map.mpr ⟨p - i, List.mem_range.mpr (by omega), by rw [Nat.sub_sub_self hi]⟩

theorem length_windowsAt (n k p : ℕ) (l : List α) : (windowsAt n k p l).length = k := by
  rw [windowsAt, List.length_map, List.length_range]

section Edits

variable {n : ℕ} {w pre suf : List α}

/-- Substituting one element changes the blocks over it only. -/
theorem isWindow_substitute {a : α} (b : α) (h : IsWindow n w (pre ++ a :: suf)) :
    IsWindow n w (pre ++ b :: suf) ∨ w ∈ windowsAt n n pre.length (pre ++ a :: suf) := by
  obtain ⟨i, hi, rfl⟩ := h
  have hlen : (pre ++ b :: suf).length = (pre ++ a :: suf).length := by simp
  by_cases hbefore : i + n ≤ pre.length
  · exact Or.inl ⟨i, hlen ▸ hi, window_append_left hbefore _ _⟩
  · by_cases hover : i ≤ pre.length
    · exact Or.inr (mem_windowsAt hover (not_le.mp hbefore))
    · refine Or.inl ⟨i, hlen ▸ hi, ?_⟩
      obtain ⟨j, rfl⟩ : ∃ j, i = pre.length + (j + 1) := ⟨i - pre.length - 1, by omega⟩
      rw [window_append_right, window_append_right]
      rfl

/-- Inserting an element loses the blocks that it splits. -/
theorem isWindow_insert {b : α} (h : IsWindow n w (pre ++ suf)) :
    IsWindow n w (pre ++ b :: suf) ∨ w ∈ windowsAt n (n - 1) (pre.length - 1) (pre ++ suf) := by
  obtain ⟨i, hi, rfl⟩ := h
  have hlen : (pre ++ b :: suf).length = (pre ++ suf).length + 1 := by simp [Nat.add_assoc]
  by_cases hbefore : i + n ≤ pre.length
  · exact Or.inl ⟨i, by omega, window_append_left hbefore _ _⟩
  · by_cases hover : i < pre.length
    · exact Or.inr (mem_windowsAt (by omega) (by omega))
    · obtain ⟨j, rfl⟩ : ∃ j, i = pre.length + j := ⟨i - pre.length, by omega⟩
      refine Or.inl ⟨pre.length + (j + 1), by omega, ?_⟩
      rw [window_append_right, window_append_right]
      rfl

/-- The new blocks are those over the inserted element. -/
theorem isWindow_of_insert {b : α} (h : IsWindow n w (pre ++ b :: suf)) :
    IsWindow n w (pre ++ suf) ∨ w ∈ windowsAt n n pre.length (pre ++ b :: suf) := by
  obtain ⟨i, hi, rfl⟩ := h
  have hlen : (pre ++ b :: suf).length = (pre ++ suf).length + 1 := by simp [Nat.add_assoc]
  by_cases hbefore : i + n ≤ pre.length
  · refine Or.inl ⟨i, ?_, window_append_left hbefore _ _⟩
    rw [List.length_append]
    omega
  · by_cases hover : i ≤ pre.length
    · exact Or.inr (mem_windowsAt hover (not_le.mp hbefore))
    · obtain ⟨j, rfl⟩ : ∃ j, i = pre.length + (j + 1) := ⟨i - pre.length - 1, by omega⟩
      refine Or.inl ⟨pre.length + j, by omega, ?_⟩
      rw [window_append_right, window_append_right]
      rfl

end Edits

/-- What a list without repeats has outside another list, when a few elements
account for it. -/
theorem length_filter_notMem_le [DecidableEq α] {l m extra : List α} (hl : l.Nodup)
    (h : ∀ x ∈ l, x ∈ m ∨ x ∈ extra) : (l.filter fun x ↦ x ∉ m).length ≤ extra.length := by
  have hsub : (l.filter fun x ↦ x ∉ m) ⊆ extra := by
    intro x hx
    obtain ⟨hxl, hxm⟩ := List.mem_filter.mp hx
    exact (h x hxl).resolve_left (by simpa using hxm)
  exact ((hl.filter _).subperm hsub).length_le

end Windows
