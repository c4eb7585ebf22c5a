import Mathlib

/-!
# Maximal runs

How many maximal runs of elements with a property a list has.  The flag says
whether the element just before the list has it too.
-/

namespace Runs

variable {α : Type*}

def count (free : α → Bool) : Bool → List α → ℕ
  | _, [] => 0
  | before, x :: l => (if free x && !before then 1 else 0) + count free (free x) l

variable {free : α → Bool}

@[simp] theorem count_nil (before : Bool) : count free before [] = 0 := by
  cases before <;> rfl

theorem count_cons_of_not {x : α} (hx : free x = false) (before : Bool) (l : List α) :
    count free before (x :: l) = count free false l := by
  rw [count, hx]
  simp

theorem count_false_cons {x : α} (hx : free x = true) (l : List α) :
    count free false (x :: l) = 1 + count free true l := by
  rw [count, hx]
  rfl

theorem count_true_cons {x : α} (hx : free x = true) (l : List α) :
    count free true (x :: l) = count free true l := by
  rw [count, hx]
  simp

theorem count_congr {f g : α → Bool} {l : List α} (h : ∀ x ∈ l, f x = g x) (before : Bool) :
    count f before l = count g before l := by
  induction l generalizing before with
  | nil => simp
  | cons x l ih =>
      obtain ⟨hx, hl⟩ := List.forall_mem_cons.mp h
      rw [count, count, hx, ih hl]

/-- A run goes on until it ends, and what ends it is not in one. -/
theorem count_dropWhile (l : List α) :
    count free true l = count free false (l.dropWhile free) := by
  induction l with
  | nil => simp
  | cons x l ih =>
      cases hx : free x with
      | true => rw [count_true_cons hx, ih, List.dropWhile_cons_of_pos hx]
      | false =>
          rw [List.dropWhile_cons_of_neg (by simp [hx]), count_cons_of_not hx,
            count_cons_of_not hx]

/-- Between two runs lies an element outside them, so they take half the
list. -/
theorem two_mul_count_le (free : α → Bool) (before : Bool) (l : List α) :
    2 * count free before l ≤ l.length + if before then 0 else 1 := by
  induction l generalizing before with
  | nil => simp
  | cons x l ih =>
      rw [List.length_cons]
      cases hx : free x with
      | false =>
          have hl := ih false
          rw [count_cons_of_not hx]
          cases before <;> simp at hl ⊢ <;> omega
      | true =>
          have hl := ih true
          cases before with
          | false =>
              rw [count_false_cons hx]
              simp at hl ⊢
              omega
          | true =>
              rw [count_true_cons hx]
              simp at hl ⊢
              omega

theorem count_true_eq_zero {l : List α} (h : ∀ x ∈ l, free x = true) : count free true l = 0 := by
  induction l with
  | nil => simp
  | cons x l ih =>
      obtain ⟨hx, hl⟩ := List.forall_mem_cons.mp h
      rw [count_true_cons hx, ih hl]

/-- When only the first element can be outside, there is at most one run. -/
theorem count_false_le_one {l : List α} (h : ∀ x ∈ l.tail, free x = true) :
    count free false l ≤ 1 := by
  cases l with
  | nil => simp
  | cons x l =>
      rw [List.tail_cons] at h
      have hone : count free false l ≤ 1 := by
        cases l with
        | nil => simp
        | cons y l =>
            obtain ⟨hy, hl⟩ := List.forall_mem_cons.mp h
            rw [count_false_cons hy, count_true_eq_zero hl]
      cases hx : free x with
      | false => rwa [count_cons_of_not hx]
      | true => rw [count_false_cons hx, count_true_eq_zero h]

end Runs
