import Mathlib

/-!
# Memory paged in on demand

A memory known in part is completed by what it would be filled with elsewhere.
When a part comes in with just these contents, nothing is seen of it.
-/

namespace Paging

variable {α β : Type*}

def complete (m : α → Option β) (fill : α → β) (a : α) : β := (m a).getD (fill a)

/-- Some positions written over a memory. -/
def onto (w m : α → Option β) (a : α) : Option β := (w a).or (m a)

variable {w m m' : α → Option β} {fill : α → β} {a : α} {b : β}

theorem complete_of_some (h : m a = some b) : complete m fill a = b := by
  rw [complete, h, Option.getD_some]

theorem complete_of_none (h : m a = none) : complete m fill a = fill a := by
  rw [complete, h, Option.getD_none]

theorem complete_onto : complete (onto w m) fill = complete w (complete m fill) := by
  funext a
  cases h : w a with
  | none => rw [complete_of_none h, complete, onto, h, Option.none_or, complete]
  | some b => rw [complete_of_some h, complete_of_some (by rw [onto, h, Option.some_or])]

/-- Whatever is new holds what it was filled with before. -/
theorem complete_eq_of_filled (h : ∀ a, m' a = m a ∨ m a = none ∧ m' a = some (fill a)) :
    complete m' fill = complete m fill := by
  funext a
  rcases h a with heq | ⟨hnone, hsome⟩
  · rw [complete, heq, complete]
  · rw [complete_of_none hnone, complete_of_some hsome]

end Paging
