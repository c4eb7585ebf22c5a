import Mathlib

/-!
# Injective word operations

Multiplying by an odd word, adding a word and mixing the high bits into the
low ones lose nothing modulo a power of two.
-/

namespace Scramble

theorem mul_odd_injective {a : UInt64} (ha : a.toNat % 2 = 1) :
    Function.Injective fun x : UInt64 ↦ x * a := by
  intro x y h
  have hmod : x.toNat * a.toNat ≡ y.toNat * a.toNat [MOD 2 ^ 64] := by
    have hval := congrArg UInt64.toNat h
    rwa [UInt64.toNat_mul, UInt64.toNat_mul] at hval
  have hcoprime : Nat.gcd (2 ^ 64) a.toNat = 1 :=
    Nat.Coprime.pow_left 64 (Nat.coprime_two_left.mpr (Nat.odd_iff.mpr ha))
  have heq := Nat.ModEq.cancel_right_of_coprime hcoprime hmod
  exact UInt64.toNat_inj.mp (Nat.ModEq.eq_of_lt_of_lt heq x.toNat_lt y.toNat_lt)

theorem add_injective (b : UInt64) : Function.Injective fun x : UInt64 ↦ x + b := fun x y h ↦ by
  have hsub := congrArg (· - b) h
  simpa only [UInt64.add_sub_cancel] using hsub

/-- The difference of two words that mix alike is its own high part. -/
theorem xorShift_injective {s : UInt64} (hs : s.toNat % 64 ≠ 0) :
    Function.Injective fun x : UInt64 ↦ x ^^^ (x >>> s) := by
  intro x y h
  have hdiff : x ^^^ y = (x ^^^ y) >>> s := by
    dsimp only at h
    rw [UInt64.shiftRight_xor]
    calc x ^^^ y = (x ^^^ x >>> s) ^^^ (x >>> s ^^^ y) := by
          rw [UInt64.xor_assoc, ← UInt64.xor_assoc (x >>> s), UInt64.xor_self, UInt64.zero_xor]
      _ = (y ^^^ y >>> s) ^^^ (x >>> s ^^^ y) := by rw [h]
      _ = (x >>> s ^^^ y >>> s) ^^^ (y ^^^ y) := by ac_rfl
      _ = x >>> s ^^^ y >>> s := by rw [UInt64.xor_self, UInt64.xor_zero]
  have hzero : (x ^^^ y).toNat = 0 := by
    have hval := congrArg UInt64.toNat hdiff
    rw [UInt64.toNat_shiftRight, Nat.shiftRight_eq_div_pow] at hval
    by_contra hne
    have hlt : (x ^^^ y).toNat / 2 ^ (s.toNat % 64) < (x ^^^ y).toNat :=
      Nat.div_lt_self (Nat.pos_of_ne_zero hne) (Nat.one_lt_two_pow hs)
    omega
  exact UInt64.xor_eq_zero_iff.mp (UInt64.toNat_inj.mp hzero)

theorem or_one_odd (a : UInt64) : (a ||| 1).toNat % 2 = 1 := by
  rw [UInt64.toNat_or, Nat.or_mod_two_eq_one]
  exact Or.inr rfl

end Scramble
