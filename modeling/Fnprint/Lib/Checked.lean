import Mathlib

/-!
# Checked machine arithmetic

Operations that give no result on overflow, where the program aborts, and
additions that stop at the largest word.
-/

namespace Checked

def add64 (x y : UInt64) : Option UInt64 :=
  if x.toNat + y.toNat < 2 ^ 64 then some (x + y) else none

def add32 (x y : UInt32) : Option UInt32 :=
  if x.toNat + y.toNat < 2 ^ 32 then some (x + y) else none

/-- Additions of sizes, on a machine whose words have 64 bits. -/
def addSize (x y : ℕ) : Option ℕ := if x + y < 2 ^ 64 then some (x + y) else none

def mul64 (x y : UInt64) : Option UInt64 :=
  if x.toNat * y.toNat < 2 ^ 64 then some (x * y) else none

def satAdd64 (x y : UInt64) : UInt64 := UInt64.ofNat (min (x.toNat + y.toNat) (2 ^ 64 - 1))

/-- Subtractions of sizes, which abort below zero. -/
def subSize (x y : ℕ) : Option ℕ := if y ≤ x then some (x - y) else none

/-- A slice by its two ends, which aborts when they are not in order or lie
outside. -/
def checkedRange {α : Type*} (l : List α) (start stop : ℕ) : Option (List α) :=
  if start ≤ stop ∧ stop ≤ l.length then some ((l.drop start).take (stop - start)) else none

theorem subSize_of_le {x y : ℕ} (h : y ≤ x) : subSize x y = some (x - y) := if_pos h

theorem checkedRange_of_le {α : Type*} {l : List α} {start stop : ℕ} (h : start ≤ stop)
    (hl : stop ≤ l.length) :
    checkedRange l start stop = some ((l.drop start).take (stop - start)) :=
  if_pos ⟨h, hl⟩

theorem toNat_ofNat64 {n : ℕ} (h : n < 2 ^ 64) : (UInt64.ofNat n).toNat = n :=
  UInt64.toNat_ofNat_of_lt' h

theorem add64_eq_some_iff {x y z : UInt64} :
    add64 x y = some z ↔ x.toNat + y.toNat < 2 ^ 64 ∧ z = x + y := by
  unfold add64
  by_cases h : x.toNat + y.toNat < 2 ^ 64
  · rw [if_pos h, Option.some.injEq]
    exact ⟨fun hz ↦ ⟨h, hz.symm⟩, fun hz ↦ hz.2.symm⟩
  · rw [if_neg h]
    exact iff_of_false (fun hz ↦ by cases hz) fun hz ↦ h hz.1

theorem add64_isSome_iff {x y : UInt64} :
    (add64 x y).isSome = true ↔ x.toNat + y.toNat < 2 ^ 64 := by
  rw [Option.isSome_iff_exists]
  simp only [add64_eq_some_iff, exists_and_left, exists_eq, and_true]

theorem toNat_satAdd64 {x y : UInt64} (h : x.toNat + y.toNat < 2 ^ 64) :
    (satAdd64 x y).toNat = x.toNat + y.toNat := by
  rw [satAdd64, toNat_ofNat64 (by omega)]
  omega

theorem mul64_eq_some {x y : UInt64} (h : x.toNat * y.toNat < 2 ^ 64) :
    mul64 x y = some (x * y) := if_pos h

end Checked
