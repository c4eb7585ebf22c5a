import Mathlib

/-!
# Bit fields of words

A field of a word is a run of its bits.  Shifts and masks read fields: a mask
keeps one, a shift moves one to the bottom, a shift to the top and an
arithmetic one back extend its sign.  A word under a mask is a constant exactly
when the fields the mask keeps are those of the constant.
-/

namespace BitFields

variable {w len n : ℕ}

/-- A value at a position in a word, zeros around it. -/
def place (w s : ℕ) (v : BitVec len) : BitVec w := v.setWidth w <<< s

/-- The word that keeps one field. -/
def mask (w s len : ℕ) : BitVec w := place w s (BitVec.allOnes len)

theorem getLsbD_place (s : ℕ) (v : BitVec len) {i : ℕ} (hi : i < w) :
    (place w s v).getLsbD i = (decide (s ≤ i) && v.getLsbD (i - s)) := by
  have hsub : i - s < w := by omega
  rw [place, BitVec.getLsbD_shiftLeft, BitVec.getLsbD_setWidth, decide_eq_true hi,
    decide_eq_true hsub, Bool.true_and, Bool.true_and, ← decide_not, decide_eq_decide.mpr not_lt]

theorem getLsbD_mask (s : ℕ) {i : ℕ} (hi : i < w) :
    (mask w s len).getLsbD i = decide (s ≤ i ∧ i < s + len) := by
  rw [mask, getLsbD_place s _ hi, BitVec.getLsbD_allOnes, Bool.decide_and]
  by_cases hs : s ≤ i
  · rw [decide_eq_true hs, Bool.true_and, Bool.true_and]
    exact decide_eq_decide.mpr (by omega)
  · rw [decide_eq_false hs, Bool.false_and, Bool.false_and]

theorem and_mask (x : BitVec w) (s len : ℕ) :
    x &&& mask w s len = place w s (x.extractLsb' s len) := by
  apply BitVec.eq_of_getLsbD_eq
  intro i hi
  rw [BitVec.getLsbD_and, getLsbD_mask s hi, getLsbD_place s _ hi, BitVec.getLsbD_extractLsb',
    Bool.decide_and]
  by_cases hs : s ≤ i
  · have hlen : i - s < len ↔ i < s + len := by omega
    rw [Nat.add_sub_cancel' hs, decide_eq_true hs, decide_eq_decide.mpr hlen, Bool.true_and,
      Bool.true_and, Bool.and_comm]
  · rw [decide_eq_false hs, Bool.false_and, Bool.false_and, Bool.and_false]

theorem extractLsb'_place {s : ℕ} (v : BitVec len) (hs : s + len ≤ w) :
    (place w s v).extractLsb' s len = v := by
  apply BitVec.eq_of_getLsbD_eq
  intro j hj
  rw [BitVec.getLsbD_extractLsb', getLsbD_place s v (by omega), Nat.add_sub_cancel_left,
    decide_eq_true hj, decide_eq_true (Nat.le_add_right s j), Bool.true_and, Bool.true_and]

theorem place_injective {s : ℕ} (hs : s + len ≤ w) :
    Function.Injective (place w s : BitVec len → BitVec w) := by
  intro u v h
  rw [← extractLsb'_place u hs, h, extractLsb'_place v hs]

/-- One field is tested by its mask. -/
theorem and_mask_eq_iff {x : BitVec w} {s : ℕ} {v : BitVec len} (hs : s + len ≤ w) :
    x &&& mask w s len = place w s v ↔ x.extractLsb' s len = v := by
  rw [and_mask]
  exact (place_injective hs).eq_iff

/-- Two disjoint masks test both of their fields at once. -/
theorem and_or_eq_or_iff {x m₁ m₂ b₁ b₂ : BitVec w} (h : m₁ &&& m₂ = 0#w)
    (h₁ : b₁ &&& m₁ = b₁) (h₂ : b₂ &&& m₂ = b₂) :
    x &&& (m₁ ||| m₂) = b₁ ||| b₂ ↔ x &&& m₁ = b₁ ∧ x &&& m₂ = b₂ := by
  have hcross₁ : b₂ &&& m₁ = 0#w := by
    rw [← h₂, BitVec.and_assoc, BitVec.and_comm m₂, h, BitVec.and_zero]
  have hcross₂ : b₁ &&& m₂ = 0#w := by
    rw [← h₁, BitVec.and_assoc, h, BitVec.and_zero]
  constructor
  · intro hx
    have hleft := congrArg (· &&& m₁) hx
    have hright := congrArg (· &&& m₂) hx
    have hother : m₂ &&& m₁ = 0#w := by rw [BitVec.and_comm, h]
    simp only [BitVec.and_or_distrib_left, BitVec.and_or_distrib_right, BitVec.and_assoc,
      BitVec.and_self, h, hother, h₁, h₂, hcross₁, hcross₂, BitVec.and_zero, BitVec.or_zero,
      BitVec.zero_or] at hleft hright
    exact ⟨hleft, hright⟩
  · rintro ⟨hleft, hright⟩
    rw [BitVec.and_or_distrib_left, hleft, hright]

theorem shiftRight_and (x : BitVec w) (s len : ℕ) :
    (x >>> s) &&& (BitVec.allOnes len).setWidth w = (x.extractLsb' s len).setWidth w := by
  apply BitVec.eq_of_getLsbD_eq
  intro i hi
  rw [BitVec.getLsbD_and, BitVec.getLsbD_ushiftRight, BitVec.getLsbD_setWidth,
    BitVec.getLsbD_setWidth, BitVec.getLsbD_allOnes, BitVec.getLsbD_extractLsb', decide_eq_true hi,
    Bool.true_and, Bool.true_and, Bool.and_comm]

/-- A field moved to the top and back arithmetically is extended by its sign. -/
theorem sshiftRight_shiftLeft (x : BitVec n) (h : n ≤ w) :
    (x.setWidth w <<< (w - n)).sshiftRight (w - n) = x.signExtend w := by
  have hmsb : (x.setWidth w <<< (w - n)).msb = x.msb := by
    rw [BitVec.msb_eq_getLsbD_last, BitVec.msb_eq_getLsbD_last, BitVec.getLsbD_shiftLeft,
      BitVec.getLsbD_setWidth]
    rcases Nat.eq_zero_or_pos n with rfl | hn
    · rw [BitVec.getLsbD_of_ge x _ (Nat.zero_le _), BitVec.getLsbD_of_ge x _ (Nat.zero_le _),
        Bool.and_false, Bool.and_false]
    · have hlast : w - 1 - (w - n) = n - 1 := by omega
      rw [hlast, decide_eq_true (by omega), decide_eq_false (by omega), decide_eq_true (by omega)]
      rfl
  apply BitVec.eq_of_getLsbD_eq
  intro i hi
  rw [BitVec.getLsbD_sshiftRight, BitVec.getLsbD_signExtend, hmsb]
  by_cases hin : i < n
  · have hback : w - n + i < w := by omega
    simp [hin, hback, hi]
  · have hback : ¬w - n + i < w := by omega
    simp [hin, hback, hi]

end BitFields
