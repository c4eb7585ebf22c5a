import Fnprint.Recorder

/-!
# Written constants

A write is recorded by the class of its value, cut to its width.  The cut fills
up with zeros, so that a small negative constant keeps its sign only at the full
width.
-/

namespace Fnprint

/-- The low bytes of a value, read as a signed integer of that width. -/
def signedLow (v : UInt64) (size : ℕ) : ℤ := Int.bmod v.toNat (2 ^ (8 * size))

/-- A class tells zero and the small constants by the bytes that were written. -/
structure KeepsSign (c : ValueClass) (v : UInt64) (size : ℕ) : Prop where
  zero : c = .zero ↔ v.toNat % 2 ^ (8 * size) = 0
  small : ∀ n : Int64, c = .smallConst n ↔
    n.toInt = signedLow v size ∧ n ≠ 0 ∧ -4096 ≤ n.toInt ∧ n.toInt ≤ 4096

/-! ## The class of a value -/

theorem argBase_bounds : ∀ k < nargs,
    2 ^ 36 ≤ (argBase k).toNat ∧ (argBase k + argSize).toNat ≤ 2 ^ 37 := by
  decide

theorem bounds_of_inputClass {v : UInt64} {k : ℕ} {c : ValueClass} (hk : k < nargs)
    (h : inputClass v k = some c) : 2 ^ 36 ≤ v.toNat ∧ v.toNat < 2 ^ 37 := by
  obtain ⟨hlow, hhigh⟩ := argBase_bounds k hk
  have hsize : ∀ k < nargs, argBase k < argBase k + argSize := by decide
  have hin : argBase k ≤ v ∧ v < argBase k + argSize := by
    unfold inputClass at h
    split at h
    · next heq =>
        rw [heq]
        exact ⟨UInt64.le_refl _, hsize k hk⟩
    · split at h
      · next hin => simpa [inArg] using hin
      · cases h
  have hle := UInt64.le_iff_toNat_le.mp hin.1
  have hlt := UInt64.lt_iff_toNat_lt.mp hin.2
  exact ⟨hlow.trans hle, hlt.trans_le hhigh⟩

theorem inputClass_cases {v : UInt64} {c : ValueClass}
    (h : (List.range nargs).findSome? (inputClass v) = some c) :
    c ≠ .zero ∧ (∀ n, c ≠ .smallConst n) ∧ 2 ^ 36 ≤ v.toNat ∧ v.toNat < 2 ^ 37 := by
  obtain ⟨k, hk, hc⟩ := List.exists_of_findSome?_eq_some h
  refine ⟨?_, ?_, bounds_of_inputClass (List.mem_range.mp hk) hc⟩ <;>
  · unfold inputClass at hc
    split at hc
    · rw [← Option.some.inj hc]
      exact nofun
    · split at hc
      · rw [← Option.some.inj hc]
        exact nofun
      · cases hc

theorem toInt_toInt64 (v : UInt64) : v.toInt64.toInt = Int.bmod v.toNat (2 ^ 64) := by
  rw [Int64.toInt, UInt64.toBitVec_toInt64, BitVec.toInt_eq_toNat_bmod, UInt64.toNat_toBitVec]

theorem classifyValue_eq_zero_iff {v : UInt64} : classifyValue v = .zero ↔ v = 0 := by
  unfold classifyValue
  split
  · next hv => exact iff_of_true rfl hv
  · next hv =>
      refine iff_of_false ?_ hv
      split
      · next c hc => exact (inputClass_cases hc).1
      · dsimp only
        split <;> exact nofun

theorem classifyValue_eq_smallConst_iff {v : UInt64} {n : Int64} :
    classifyValue v = .smallConst n ↔
      n.toInt = Int.bmod v.toNat (2 ^ 64) ∧ n ≠ 0 ∧ -4096 ≤ n.toInt ∧ n.toInt ≤ 4096 := by
  rw [← toInt_toInt64, Int64.toInt_inj]
  have hsmall : ∀ w : Int64, -4096 ≤ w ∧ w ≤ 4096 ↔ -4096 ≤ w.toInt ∧ w.toInt ≤ 4096 := by
    intro w
    have hlow : (-4096 : Int64).toInt = -4096 := by decide
    have hhigh : (4096 : Int64).toInt = 4096 := by decide
    rw [Int64.le_iff_toInt_le, Int64.le_iff_toInt_le, hlow, hhigh]
  unfold classifyValue
  split
  · next hv =>
      refine iff_of_false nofun ?_
      rintro ⟨rfl, hne, -⟩
      exact hne (by rw [hv]; rfl)
  · next hv =>
      split
      · next c hc =>
          obtain ⟨-, hinput, hge, hlt⟩ := inputClass_cases hc
          refine iff_of_false (hinput n) ?_
          rintro ⟨rfl, -, -, hle⟩
          rw [toInt_toInt64, Int.bmod_eq_of_le (by omega) (by omega)] at hle
          omega
      · dsimp only
        split
        · next hrange =>
            rw [ValueClass.smallConst.injEq]
            constructor
            · rintro rfl
              refine ⟨rfl, fun h ↦ hv ?_, (hsmall _).mp hrange⟩
              rw [← UInt64.toUInt64_toInt64 v, h]
              rfl
            · exact fun h ↦ h.1.symm
        · next hrange =>
            refine iff_of_false nofun ?_
            rintro ⟨rfl, -, h⟩
            exact hrange ((hsmall _).mpr h)

/-! ## The cut -/

theorem toNat_maskToSize {size : ℕ} (hsize : size ∈ [1, 2, 4, 8]) (v : UInt64) :
    (maskToSize v size).toNat = v.toNat % 2 ^ (8 * size) := by
  have hv := v.toNat_lt
  simp only [List.mem_cons, List.not_mem_nil, or_false] at hsize
  rcases hsize with rfl | rfl | rfl | rfl
  · exact (UInt64.toNat_and v 0xff).trans (Nat.and_two_pow_sub_one_eq_mod v.toNat 8)
  · exact (UInt64.toNat_and v 0xffff).trans (Nat.and_two_pow_sub_one_eq_mod v.toNat 16)
  · exact (UInt64.toNat_and v 0xffffffff).trans (Nat.and_two_pow_sub_one_eq_mod v.toNat 32)
  · exact (Nat.mod_eq_of_lt hv).symm

theorem signedLow_eq (v : UInt64) {size : ℕ} (hsize : 0 < size) :
    signedLow v size = if v.toNat % 2 ^ (8 * size) < 2 ^ (8 * size) / 2
      then ((v.toNat % 2 ^ (8 * size) : ℕ) : ℤ)
      else ((v.toNat % 2 ^ (8 * size) : ℕ) : ℤ) - ((2 ^ (8 * size) : ℕ) : ℤ) := by
  have heven : (2 ^ (8 * size) + 1) / 2 = 2 ^ (8 * size) / 2 := by
    obtain ⟨k, hk⟩ : ∃ k, 8 * size = k + 1 := ⟨8 * size - 1, by omega⟩
    rw [hk, Nat.pow_succ]
    omega
  rw [signedLow, Int.bmod_def, ← Int.natCast_emod]
  norm_cast
  rw [heven]

/-- At a narrow width only the unsigned reading is recorded. -/
theorem classify_narrow {v : UInt64} {size : ℕ} (hsize : size ∈ [1, 2, 4]) (n : Int64) :
    classifyValue (maskToSize v size) = .smallConst n ↔
      n.toInt = ((v.toNat % 2 ^ (8 * size) : ℕ) : ℤ) ∧ n ≠ 0 ∧ -4096 ≤ n.toInt ∧
        n.toInt ≤ 4096 := by
  have hmask : (maskToSize v size).toNat = v.toNat % 2 ^ (8 * size) :=
    toNat_maskToSize (by simp at hsize ⊢; omega) v
  have hlt : v.toNat % 2 ^ (8 * size) < 2 ^ 32 := by
    have hpow : 2 ^ (8 * size) ≤ 2 ^ 32 :=
      Nat.pow_le_pow_right (by decide) (by simp at hsize; omega)
    exact (Nat.mod_lt _ (Nat.two_pow_pos _)).trans_le hpow
  rw [classifyValue_eq_smallConst_iff, hmask, Int.bmod_eq_of_le (by omega) (by omega)]

theorem keepsSign_wide (v : UInt64) : KeepsSign (classifyValue (maskToSize v 8)) v 8 := by
  have hv := v.toNat_lt
  constructor
  · rw [classifyValue_eq_zero_iff, ← UInt64.toNat_inj]
    change v.toNat = 0 ↔ v.toNat % 2 ^ 64 = 0
    rw [Nat.mod_eq_of_lt hv]
  · exact fun n ↦ classifyValue_eq_smallConst_iff

theorem keepsSign_narrow (v : UInt64) {size : ℕ} (hsize : size ∈ [1, 2, 4]) :
    KeepsSign (classifyValue (maskToSize v size)) v size ↔
      ¬(-4096 ≤ signedLow v size ∧ signedLow v size < 0) := by
  have hmask : (maskToSize v size).toNat = v.toNat % 2 ^ (8 * size) :=
    toNat_maskToSize (by simp at hsize ⊢; omega) v
  have hpos : 0 < size := by
    simp at hsize
    omega
  have hread := signedLow_eq v hpos
  have hwidth : 2 ^ (8 * size) = 256 ∨ 2 ^ (8 * size) = 65536 ∨ 2 ^ (8 * size) = 4294967296 := by
    simp only [List.mem_cons, List.not_mem_nil, or_false] at hsize
    rcases hsize with rfl | rfl | rfl <;> decide
  have hlt : v.toNat % 2 ^ (8 * size) < 2 ^ (8 * size) := Nat.mod_lt _ (Nat.two_pow_pos _)
  constructor
  · rintro ⟨-, hsmall⟩ ⟨hlow, hneg⟩
    -- the constant itself, which is recorded as something else
    have hn : (Int64.ofInt (signedLow v size)).toInt = signedLow v size :=
      Int64.toInt_ofInt_of_le (by omega) (by omega)
    have hclass := (hsmall (Int64.ofInt (signedLow v size))).mpr
      ⟨hn, fun h ↦ by rw [h] at hn; exact absurd hn.symm hneg.ne, by omega, by omega⟩
    have hunsigned := ((classify_narrow hsize _).mp hclass).1
    omega
  · intro hsign
    constructor
    · rw [classifyValue_eq_zero_iff, ← UInt64.toNat_inj, hmask]
      exact Iff.rfl
    · intro n
      rw [classify_narrow hsize]
      split at hread
      · rw [hread]
      · refine iff_of_false ?_ ?_
        · rintro ⟨hn, -, -, hle⟩
          omega
        · rintro ⟨hn, -, hge, -⟩
          omega

/-- What the write hook records of a value keeps its sign unless a narrow
constant is negative and small. -/
theorem recordWrite_keepsSign_iff {r : Rec} {addr : UInt64}
    (hfield : (r.classifyAddr addr).1 ≠ .stack) (v : UInt64) {size : ℕ}
    (hsize : size ∈ [1, 2, 4, 8]) :
    ∃ c, (r.recordWrite addr size v.toInt64).effects =
        r.effects ++ [.write (r.classifyAddr addr).1 (bucketOff (r.classifyAddr addr).2) c] ∧
      (KeepsSign c v size ↔
        ¬(size ≠ 8 ∧ -4096 ≤ signedLow v size ∧ signedLow v size < 0)) := by
  refine ⟨classifyValue (maskToSize v size), ?_, ?_⟩
  · rw [Rec.recordWrite, if_neg hfield, UInt64.toUInt64_toInt64]
    rfl
  · by_cases hwide : size = 8
    · subst hwide
      exact iff_of_true (keepsSign_wide v) fun h ↦ h.1 rfl
    · have hnarrow : size ∈ [1, 2, 4] := by
        simp only [List.mem_cons, List.not_mem_nil, or_false] at hsize ⊢
        omega
      rw [keepsSign_narrow v hnarrow]
      simp only [ne_eq, hwide, not_false_eq_true, true_and]

/-- A recorder at the start of a run, without an image. -/
def blankRec : Rec := Rec.start Config.default ⟨[], 0, false, .x86_64⟩ ⟨none, 0, 0, .symtab⟩ ∅ []

theorem recordWrite_keepsSign_iff_five : ∃ c,
    (blankRec.recordWrite (argsBase + 16) 4 (5 : UInt64).toInt64).effects =
        blankRec.effects ++ [.write (blankRec.classifyAddr (argsBase + 16)).1
          (bucketOff (blankRec.classifyAddr (argsBase + 16)).2) c] ∧
      (KeepsSign c 5 4 ↔ ¬(4 ≠ 8 ∧ -4096 ≤ signedLow 5 4 ∧ signedLow 5 4 < 0)) :=
  recordWrite_keepsSign_iff (by decide) 5 (by decide)

/-- Minus one is a small constant at the full width only. -/
theorem minusOne_loses_sign :
    (blankRec.recordWrite argsBase 4 (-1)).effects = [.write (.arg 0) 0 .bigConst] ∧
      (blankRec.recordWrite argsBase 1 (-1)).effects = [.write (.arg 0) 0 (.smallConst 255)] ∧
      (blankRec.recordWrite argsBase 8 (-1)).effects = [.write (.arg 0) 0 (.smallConst (-1))] ∧
      ¬KeepsSign .bigConst 0xffffffffffffffff 4 := by
  refine ⟨by decide, by decide, by decide, fun h ↦ ?_⟩
  exact absurd ((h.small (-1)).mpr ⟨by decide, by decide, by decide, by decide⟩) nofun

end Fnprint
