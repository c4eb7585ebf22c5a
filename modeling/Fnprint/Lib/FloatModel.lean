import Fnprint.Lib.Rounding

/-!
# Lean's float model as rounded magnitudes

Lean's `Float.Model` computes on unpacked floats by shifting an extended
mantissa with a round bit and a sticky bit, and packs the result.  Here the
packed bits of a rounded result are identified with `Rounding.roundMag` of
the exact quotient, capped at infinity, for every binary format.
-/

namespace FloatModel

open Rounding Float.Model Float.Model.UnpackedFloat

/-! ## Extended mantissas -/

/-- An extended mantissa stands for the quotient `num / den`. -/
structure Represents (em : ExtendedMantissa) (num den : ℕ) : Prop where
  mantissa : em.mantissa = num / den
  roundBit : em.roundBit = decide (den ≤ 2 * (num % den))
  stickyBit : em.stickyBit =
    decide (0 < num % den ∧ 2 * (num % den) < den ∨ den < 2 * (num % den))

theorem Represents.shiftRightOne {em : ExtendedMantissa} {num den : ℕ} (hden : 0 < den)
    (h : Represents em num den) : Represents em.shiftRightOne num (den * 2) := by
  have hr : num % den < den := Nat.mod_lt num hden
  have hmod : num % (den * 2) = num % den + den * (num / den % 2) := Nat.mod_mul
  refine ⟨?_, ?_, ?_⟩
  · rw [ExtendedMantissa.shiftRightOne, h.mantissa, Nat.div_div_eq_div_mul]
  · rw [ExtendedMantissa.shiftRightOne, h.mantissa, hmod]
    rcases Nat.mod_two_eq_zero_or_one (num / den) with hq | hq
    · simp [hq]
      omega
    · simp [hq]
      omega
  · rw [ExtendedMantissa.shiftRightOne, h.roundBit, h.stickyBit, ← Bool.decide_or,
      decide_eq_decide, hmod]
    rcases Nat.mod_two_eq_zero_or_one (num / den) with hq | hq
    · rw [hq]
      omega
    · rw [hq]
      omega

theorem Represents.shiftRight {em : ExtendedMantissa} {num den : ℕ} (hden : 0 < den)
    (h : Represents em num den) (n : ℕ) : Represents (em >>> n) num (den * 2 ^ n) := by
  induction n with
  | zero => simpa [HShiftRight.hShiftRight, Nat.repeat] using h
  | succ n ih =>
      have hpos : 0 < den * 2 ^ n := Nat.mul_pos hden (Nat.two_pow_pos n)
      have hstep := ih.shiftRightOne hpos
      rwa [Nat.mul_assoc, ← Nat.pow_succ] at hstep

theorem Represents.roundedMantissa_eq {em : ExtendedMantissa} {num den : ℕ} (hden : 0 < den)
    (h : Represents em num den) : em.roundedMantissa = rne num den := by
  obtain ⟨m, r, s⟩ := em
  obtain ⟨hm, hr, hs⟩ := h
  have hlt : num % den < den := Nat.mod_lt num hden
  dsimp only at hm hr hs
  subst hm
  unfold rne
  dsimp only
  cases r <;> cases s <;>
    simp only [ExtendedMantissa.roundedMantissa, ExtendedMantissa.accuracy,
      Accuracy.roundToNearestEven, Bool.false_eq, Bool.true_eq, decide_eq_false_iff_not,
      decide_eq_true_eq] at hr hs ⊢
  · rw [if_pos (by omega)]
  · rw [if_pos (by omega)]
  · rw [if_neg (by omega), if_pos (by omega)]
  · rw [if_neg (by omega), if_neg (by omega)]

theorem represents_ofFraction (m : ℕ) {num den : ℕ} (h : num < den) :
    Represents (ExtendedMantissa.ofMantissaAndAccuracy m (accuracyOfFraction num den))
      (m * den + num) den := by
  have hdiv : (m * den + num) / den = m := by
    rw [Nat.add_comm, Nat.add_mul_div_right _ _ (by omega), Nat.div_eq_of_lt h, Nat.zero_add]
  have hmod : (m * den + num) % den = num := by
    rw [Nat.add_comm, Nat.add_mul_mod_self_right, Nat.mod_eq_of_lt h]
  by_cases h0 : num = 0
  · subst h0
    constructor <;>
      simp [accuracyOfFraction, ExtendedMantissa.ofMantissaAndAccuracy, Nat.mul_div_cancel m h]
    omega
  · rcases hc : compare (2 * num) den with _ | _ | _
    · have hlt := Nat.compare_eq_lt.mp hc
      constructor <;>
        simp [accuracyOfFraction, h0, hc, ExtendedMantissa.ofMantissaAndAccuracy, hdiv, hmod] <;>
        omega
    · have heq := Nat.compare_eq_eq.mp hc
      constructor <;>
        simp [accuracyOfFraction, h0, hc, ExtendedMantissa.ofMantissaAndAccuracy, hdiv, hmod] <;>
        omega
    · have hgt := Nat.compare_eq_gt.mp hc
      constructor <;>
        simp [accuracyOfFraction, h0, hc, ExtendedMantissa.ofMantissaAndAccuracy, hdiv, hmod] <;>
        omega

/-! ## Packed components -/

section Pack

variable {spec : Format}

/-- The packed magnitude of infinity: every exponent bit set, no mantissa bit. -/
def infMag (spec : Format) : ℕ :=
  (2 ^ spec.exponentBits - 1) * 2 ^ spec.mantissaBitsWithoutImplicit

/-- What the sign bit adds to a packed float. -/
def signBits (spec : Format) (s : Sign) : ℕ :=
  s.toBitVec.toNat * 2 ^ (spec.exponentBits + spec.mantissaBitsWithoutImplicit)

@[simp] theorem signBits_positive (spec : Format) : signBits spec .positive = 0 := by
  simp [signBits, Sign.toBitVec]

theorem toNat_packComponents (s : Sign) (e : BitVec spec.exponentBits)
    (m : BitVec spec.mantissaBitsWithoutImplicit) :
    (packComponents spec s e m).toNat =
      signBits spec s + (e.toNat * 2 ^ spec.mantissaBitsWithoutImplicit + m.toNat) := by
  unfold packComponents signBits
  rw [BitVec.toNat_append, BitVec.toNat_append, ← Nat.shiftLeft_add_eq_or_of_lt m.isLt,
    ← Nat.shiftLeft_add_eq_or_of_lt e.isLt, Nat.shiftLeft_eq, Nat.shiftLeft_eq, Nat.pow_add]
  ring

theorem toNat_packedInfinity (s : Sign) :
    (packedInfinity spec s).toNat = signBits spec s + infMag spec := by
  rw [packedInfinity, toNat_packComponents, infMag]
  simp [BitVec.neg_one_eq_allOnes]

theorem toNat_packedZero (s : Sign) : (packedZero spec s).toNat = signBits spec s := by
  rw [packedZero, toNat_packComponents]
  simp

theorem minExponent_add (spec : Format) :
    spec.minExponent + spec.exponentBias + spec.mantissaBitsWithoutImplicit = 1 := by
  have hpow : 0 < 2 ^ (spec.exponentBits - 1) := Nat.two_pow_pos _
  unfold Format.minExponent Format.exponentBias Format.mantissaBits
  have hcast : (((2 ^ (spec.exponentBits - 1) - 1 : ℕ) : ℤ)) =
      2 ^ (spec.exponentBits - 1) - 1 := by
    rw [Nat.cast_sub hpow]
    simp
  rw [hcast]
  push_cast
  ring

/-- Packing a canonical finite float, `k` places above the smallest exponent. -/
theorem toNat_pack_finite (hE : 2 ≤ spec.exponentBits) (s : Sign) {m k : ℕ} (hm : 0 < m)
    (hlt : m < 2 ^ (spec.mantissaBitsWithoutImplicit + 1))
    (hfull : k = 0 ∨ 2 ^ spec.mantissaBitsWithoutImplicit ≤ m) :
    (UnpackedFloat.pack spec (.finite s m (spec.minExponent + k) hm)).toNat =
      signBits spec s + min (k * 2 ^ spec.mantissaBitsWithoutImplicit + m) (infMag spec) := by
  set p := spec.mantissaBitsWithoutImplicit with hp
  have hpow : 0 < 2 ^ p := Nat.two_pow_pos p
  have hEpow : 4 ≤ 2 ^ spec.exponentBits :=
    le_trans (by norm_num) (Nat.pow_le_pow_right (n := 2) (by omega) hE)
  have hbiased : (spec.minExponent + (k : ℤ) + spec.exponentBias + p).toNat = k + 1 := by
    have := minExponent_add spec
    omega
  rw [Nat.pow_succ] at hlt
  rw [UnpackedFloat.pack]
  simp only [← hp, hbiased]
  by_cases hinf : 2 ^ spec.exponentBits ≤ k + 1 + 1
  · -- the exponent field is exhausted
    rw [if_pos hinf, toNat_packedInfinity]
    have hle : infMag spec ≤ k * 2 ^ p + m := by
      have hm' : 2 ^ p ≤ m := by omega
      calc infMag spec ≤ (k + 1) * 2 ^ p := Nat.mul_le_mul_right _ (by omega)
        _ = k * 2 ^ p + 2 ^ p := Nat.succ_mul k _
        _ ≤ k * 2 ^ p + m := by omega
    rw [Nat.min_eq_right hle]
  · rw [if_neg hinf]
    have hle : k * 2 ^ p + m ≤ infMag spec := by
      calc k * 2 ^ p + m ≤ k * 2 ^ p + 2 ^ p * 2 := by omega
        _ = (k + 2) * 2 ^ p := by ring
        _ ≤ infMag spec := Nat.mul_le_mul_right _ (by omega)
    rw [Nat.min_eq_left hle]
    by_cases hnormal : 2 ^ p ≤ m
    · have hlog : m.log2 = p := by
        have h₁ : p ≤ m.log2 := (Nat.le_log2 hm.ne').mpr hnormal
        have h₂ : m.log2 < p + 1 := (Nat.log2_lt hm.ne').mpr (by rw [Nat.pow_succ]; omega)
        omega
      rw [if_pos (by rw [hlog, Format.mantissaBits]; omega), toNat_packComponents,
        BitVec.toNat_ofNat, BitVec.toNat_ofNat, ← hp, Nat.mod_eq_of_lt (by omega),
        Nat.mod_eq_sub_mod hnormal, Nat.mod_eq_of_lt (by omega), Nat.succ_mul]
      omega
    · have hlog : m.log2 < p := (Nat.log2_lt hm.ne').mpr (by omega)
      have hk : k = 0 := by omega
      rw [if_neg (by rw [Format.mantissaBits]; omega), toNat_packComponents, ← hp, hk]
      simp [Nat.mod_eq_of_lt (show m < 2 ^ p by omega)]

/-! ## Rounded results -/

variable (spec)

/-- The numerator of `num * 2 ^ e` in units of the smallest subnormal. -/
def upscale (num : ℕ) (e : ℤ) : ℕ := num * 2 ^ (e - spec.minExponent).toNat

/-- The denominator of `num / den * 2 ^ e` in units of the smallest subnormal. -/
def downscale (den : ℕ) (e : ℤ) : ℕ := den * 2 ^ (spec.minExponent - e).toNat

variable {spec}

theorem log2_mul_two_pow_add_lt {m : ℕ} (hm : 0 < m) {a n : ℕ} (hlo : m * 2 ^ a ≤ n)
    (hhi : n < (m + 1) * 2 ^ a) : n.log2 = m.log2 + a := by
  have hn : n ≠ 0 := by
    have := Nat.mul_pos hm (Nat.two_pow_pos a)
    omega
  apply le_antisymm
  · have : n.log2 < m.log2 + a + 1 := by
      rw [Nat.log2_lt hn]
      calc n < (m + 1) * 2 ^ a := hhi
        _ ≤ 2 ^ (m.log2 + 1) * 2 ^ a := Nat.mul_le_mul_right _ Nat.lt_log2_self
        _ = 2 ^ (m.log2 + a + 1) := by rw [← Nat.pow_add]; congr 1; omega
    omega
  · rw [Nat.le_log2 hn, Nat.pow_add]
    exact le_trans (Nat.mul_le_mul_right _ (Nat.log2_self_le hm.ne')) hlo

theorem log2_div_two_pow (m b : ℕ) : (m / 2 ^ b).log2 = m.log2 - b := by
  rcases Nat.lt_or_ge m (2 ^ b) with hlt | hge
  · rw [Nat.div_eq_of_lt hlt]
    rcases Nat.eq_zero_or_pos m with rfl | hm
    · simp
    · have : m.log2 < b := (Nat.log2_lt hm.ne').mpr hlt
      simp only [Nat.log2_zero]
      omega
  · have hq : 0 < m / 2 ^ b := Nat.div_pos hge (Nat.two_pow_pos b)
    have h := log2_mul_two_pow_add_lt hq (Nat.div_mul_le_self m (2 ^ b))
      (by rw [Nat.mul_comm]; exact Nat.lt_mul_div_succ m (Nat.two_pow_pos b))
    omega

/-- The exponent a quotient is rounded at, relative to the smallest one. -/
theorem targetExponent_eq (m : ℕ) {e : ℤ} {num den : ℕ} (h : num < den)
    (hplaced : e ≤ spec.targetExponent (totalExponent m e)) :
    spec.targetExponent (totalExponent m e) = spec.minExponent +
      scale spec.mantissaBitsWithoutImplicit (upscale spec (m * den + num) e)
        (downscale spec den e) := by
  have hp := spec.hm
  have hquot : (m * den + num) / den = m := by
    rw [Nat.add_comm, Nat.add_mul_div_right _ _ (by omega), Nat.div_eq_of_lt h, Nat.zero_add]
  unfold scale upscale downscale
  unfold Format.targetExponent totalExponent Format.mantissaBits at hplaced ⊢
  rcases le_total spec.minExponent e with hle | hle
  · have hb : (spec.minExponent - e).toNat = 0 := by omega
    rw [hb, Nat.pow_zero, Nat.mul_one]
    rcases Nat.eq_zero_or_pos m with rfl | hm
    · have ha : (e - spec.minExponent).toNat = 0 := by
        simp only [Nat.log2_zero] at hplaced
        omega
      rw [ha, Nat.pow_zero, Nat.mul_one, hquot]
      simp only [Nat.log2_zero]
      omega
    · have hlog := log2_mul_two_pow_add_lt hm (a := (e - spec.minExponent).toNat)
        (n := (m * den + num) * 2 ^ (e - spec.minExponent).toNat / den)
        (by
          rw [Nat.le_div_iff_mul_le (by omega), Nat.mul_right_comm]
          exact Nat.mul_le_mul_right _ (by omega))
        (by
          rw [Nat.div_lt_iff_lt_mul (by omega), Nat.mul_right_comm]
          exact Nat.mul_lt_mul_of_pos_right (by rw [Nat.succ_mul]; omega) (Nat.two_pow_pos _))
      rw [hlog]
      omega
  · have ha : (e - spec.minExponent).toNat = 0 := by omega
    rw [ha, Nat.pow_zero, Nat.mul_one, ← Nat.div_div_eq_div_mul, hquot, log2_div_two_pow]
    omega

theorem shiftToTargetExponent_zero {m : ℕ} {e : ℤ} (acc : Accuracy)
    (h : spec.targetExponent (totalExponent m e) ≤ e) :
    shiftToTargetExponent spec m e acc =
      (ExtendedMantissa.ofMantissaAndAccuracy m acc, e) := by
  have hs : (spec.targetExponent (totalExponent m e) - e).toNat = 0 := by omega
  simp [shiftToTargetExponent, shiftToExponent, hs, HShiftRight.hShiftRight, Nat.repeat]

/-- The second normalization of a rounded mantissa: only a full carry moves it. -/
theorem pack_renormalized (hE : 2 ≤ spec.exponentBits) (s : Sign) {r k : ℕ}
    (hle : r ≤ 2 ^ (spec.mantissaBitsWithoutImplicit + 1))
    (hfull : k = 0 ∨ 2 ^ spec.mantissaBitsWithoutImplicit ≤ r) :
    (UnpackedFloat.pack spec
      (let q := shiftToTargetExponent spec r (spec.minExponent + k) .exact
       if h : q.1.mantissa = 0 then .zero s
       else .finite s q.1.mantissa q.2 (Nat.pos_of_ne_zero h))).toNat =
      signBits spec s + min (k * 2 ^ spec.mantissaBitsWithoutImplicit + r) (infMag spec) := by
  have hpow : 0 < 2 ^ spec.mantissaBitsWithoutImplicit := Nat.two_pow_pos _
  rcases Nat.lt_or_ge r (2 ^ (spec.mantissaBitsWithoutImplicit + 1)) with hlt | hge
  · have hstay : spec.targetExponent (totalExponent r (spec.minExponent + k)) ≤
        spec.minExponent + k := by
      have hlog : r.log2 ≤ spec.mantissaBitsWithoutImplicit := by
        rcases Nat.eq_zero_or_pos r with rfl | hr
        · simp
        · have := (Nat.log2_lt hr.ne').mpr hlt
          omega
      unfold Format.targetExponent totalExponent Format.mantissaBits
      omega
    rw [shiftToTargetExponent_zero _ hstay]
    dsimp only [ExtendedMantissa.ofMantissaAndAccuracy]
    rcases Nat.eq_zero_or_pos r with rfl | hr
    · have hk : k = 0 := by omega
      rw [dif_pos rfl, hk]
      simp [UnpackedFloat.pack, toNat_packedZero]
    · rw [dif_neg hr.ne', toNat_pack_finite hE s hr hlt hfull]
  · have heq : r = 2 ^ (spec.mantissaBitsWithoutImplicit + 1) := by omega
    have hcarry : shiftToTargetExponent spec r (spec.minExponent + k) .exact =
        (ExtendedMantissa.mk (2 ^ spec.mantissaBitsWithoutImplicit) false false,
          spec.minExponent + (k + 1 : ℕ)) := by
      have ht : spec.targetExponent (totalExponent r (spec.minExponent + k)) =
          spec.minExponent + k + 1 := by
        rw [heq]
        unfold Format.targetExponent totalExponent Format.mantissaBits
        rw [Nat.log2_two_pow]
        omega
      have hs : (spec.minExponent + (k : ℤ) + 1 - (spec.minExponent + k)).toNat = 1 := by omega
      rw [shiftToTargetExponent, ht, shiftToExponent, hs, heq]
      simp only [HShiftRight.hShiftRight, Nat.repeat, ExtendedMantissa.ofMantissaAndAccuracy,
        ExtendedMantissa.shiftRightOne, Nat.pow_succ]
      simp [Int.add_assoc]
    rw [hcarry]
    dsimp only
    rw [dif_neg hpow.ne', toNat_pack_finite hE s hpow (by rw [Nat.pow_succ]; omega)
      (Or.inr (le_refl _)), heq, Nat.pow_succ, Nat.succ_mul]
    congr 2
    omega

/-- A rounded result, packed: the nearest magnitude to the exact quotient,
capped at infinity. -/
theorem toNat_pack_roundWithAccuracy (hE : 2 ≤ spec.exponentBits) (s : Sign) (m : ℕ) (e : ℤ)
    {num den : ℕ} (h : num < den) (hplaced : e ≤ spec.targetExponent (totalExponent m e)) :
    (UnpackedFloat.pack spec
      (roundWithAccuracy spec s m e (accuracyOfFraction num den))).toNat =
      signBits spec s + min (roundMag spec.mantissaBitsWithoutImplicit
        (upscale spec (m * den + num) e) (downscale spec den e)) (infMag spec) := by
  have hden : 0 < den := by omega
  set k := scale spec.mantissaBitsWithoutImplicit (upscale spec (m * den + num) e)
    (downscale spec den e) with hk
  have htarget := targetExponent_eq m h hplaced
  rw [← hk] at htarget
  set n := (spec.targetExponent (totalExponent m e) - e).toNat with hn
  have hshift : shiftToTargetExponent spec m e (accuracyOfFraction num den) =
      (ExtendedMantissa.ofMantissaAndAccuracy m (accuracyOfFraction num den) >>> n,
        spec.minExponent + k) := by
    rw [shiftToTargetExponent, shiftToExponent, ← hn]
    congr 1
    omega
  have hrounded :
      (ExtendedMantissa.ofMantissaAndAccuracy m (accuracyOfFraction num den) >>>
        n).roundedMantissa =
        rne (upscale spec (m * den + num) e) (downscale spec den e * 2 ^ k) := by
    rw [((represents_ofFraction m h).shiftRight hden n).roundedMantissa_eq
      (Nat.mul_pos hden (Nat.two_pow_pos n)), upscale, downscale,
      ← rne_mul_right (m * den + num) (den * 2 ^ n) (2 ^ (e - spec.minExponent).toNat)
        (Nat.two_pow_pos _)]
    congr 1
    rw [Nat.mul_assoc, Nat.mul_assoc, ← Nat.pow_add, ← Nat.pow_add]
    congr 2
    omega
  have hround : roundWithAccuracy spec s m e (accuracyOfFraction num den) =
      let q := shiftToTargetExponent spec
        (rne (upscale spec (m * den + num) e) (downscale spec den e * 2 ^ k))
        (spec.minExponent + k) .exact
      if h : q.1.mantissa = 0 then .zero s
      else .finite s q.1.mantissa q.2 (Nat.pos_of_ne_zero h) := by
    rw [roundWithAccuracy, hshift]
    dsimp only
    rw [hrounded]
  rw [hround, pack_renormalized hE s (rne_scale_le _ _ _), roundMag]
  rcases Nat.eq_zero_or_pos k with h0 | hpos
  · exact Or.inl h0
  · exact Or.inr (le_rne_scale hpos)

end Pack

/-! ## Unpacked floats -/

section Unpack

variable (spec : Format)

/-- An unpacked float with its sign and its packed magnitude. -/
inductive View : UnpackedFloat → Sign → ℕ → Prop where
  | zero (s : Sign) : View (.zero s) s 0
  | finite (s : Sign) (m k : ℕ) (hm : 0 < m)
      (hlt : m < 2 ^ (spec.mantissaBitsWithoutImplicit + 1))
      (hfull : k = 0 ∨ 2 ^ spec.mantissaBitsWithoutImplicit ≤ m)
      (hfin : k * 2 ^ spec.mantissaBitsWithoutImplicit + m < infMag spec) :
      View (.finite s m (spec.minExponent + k) hm) s
        (k * 2 ^ spec.mantissaBitsWithoutImplicit + m)
  | infinity (s : Sign) : View (.infinity s) s (infMag spec)
  | notANumber (s : Sign) (n : ℕ) (hn : infMag spec < n) : View .notANumber s n

/-- The packed magnitude: everything below the sign bit. -/
def magnitude (b : BitVec spec.numBits) : ℕ :=
  b.toNat % 2 ^ (spec.exponentBits + spec.mantissaBitsWithoutImplicit)

theorem toNat_unpackMantissa (b : BitVec spec.numBits) :
    (unpackMantissa b).toNat = b.toNat % 2 ^ spec.mantissaBitsWithoutImplicit := by
  have hp := spec.hm
  rw [unpackMantissa, BitVec.toNat_cast, BitVec.extractLsb_toNat, Nat.shiftRight_zero]
  congr 2
  omega

theorem toNat_unpackExponent (b : BitVec spec.numBits) :
    (unpackExponent b).toNat =
      b.toNat / 2 ^ spec.mantissaBitsWithoutImplicit % 2 ^ spec.exponentBits := by
  have he := spec.he
  rw [unpackExponent, BitVec.toNat_cast, BitVec.extractLsb_toNat, Nat.shiftRight_eq_div_pow]
  congr 2
  omega

theorem magnitude_eq (b : BitVec spec.numBits) :
    magnitude spec b = (unpackExponent b).toNat * 2 ^ spec.mantissaBitsWithoutImplicit +
      (unpackMantissa b).toNat := by
  rw [magnitude, toNat_unpackMantissa, toNat_unpackExponent, Nat.add_comm spec.exponentBits,
    Nat.pow_add, Nat.mod_mul]
  ring

theorem unpack_view (b : BitVec spec.numBits) :
    View spec (unpack spec b) (Sign.ofBitVec (unpackSign b)) (magnitude spec b) := by
  rw [magnitude_eq]
  have hm := (unpackMantissa b).isLt
  have he := (unpackExponent b).isLt
  have hpow : 0 < 2 ^ spec.mantissaBitsWithoutImplicit := Nat.two_pow_pos _
  have hEpow : 0 < 2 ^ spec.exponentBits := Nat.two_pow_pos _
  have hones : unpackExponent b = -1#_ ↔ (unpackExponent b).toNat = 2 ^ spec.exponentBits - 1 := by
    rw [← BitVec.toNat_inj]
    simp [BitVec.neg_one_eq_allOnes]
  have hzeros : unpackExponent b = 0#_ ↔ (unpackExponent b).toNat = 0 := by
    rw [← BitVec.toNat_inj]
    simp
  have hmzero : unpackMantissa b = 0#_ ↔ (unpackMantissa b).toNat = 0 := by
    rw [← BitVec.toNat_inj]
    simp
  have hmin := minExponent_add spec
  rw [UnpackedFloat.unpack]
  by_cases h₁ : unpackExponent b = -1#_
  · rw [if_pos h₁, hones.mp h₁, ← infMag]
    by_cases h₂ : unpackMantissa b = 0#_
    · rw [if_pos h₂, hmzero.mp h₂]
      exact .infinity _
    · rw [if_neg h₂]
      exact .notANumber _ _ (by have := mt hmzero.mpr h₂; omega)
  · rw [if_neg h₁]
    have hlt : (unpackExponent b).toNat < 2 ^ spec.exponentBits - 1 := by
      have := mt hones.mpr h₁
      omega
    have hfin : ∀ m, m < 2 ^ spec.mantissaBitsWithoutImplicit →
        (unpackExponent b).toNat * 2 ^ spec.mantissaBitsWithoutImplicit + m < infMag spec := by
      intro m hm
      calc _ < ((unpackExponent b).toNat + 1) * 2 ^ spec.mantissaBitsWithoutImplicit := by
            rw [Nat.succ_mul]; omega
        _ ≤ infMag spec := Nat.mul_le_mul_right _ (by omega)
    by_cases h₂ : unpackExponent b = 0#_
    · rw [if_pos h₂, hzeros.mp h₂]
      by_cases h₃ : unpackMantissa b = 0#_
      · rw [dif_pos h₃, hmzero.mp h₃, Nat.zero_mul]
        exact .zero _
      · rw [dif_neg h₃]
        have hexp : ((0 : ℕ) : ℤ) - (spec.exponentBias + spec.mantissaBitsWithoutImplicit) + 1 =
            spec.minExponent + (0 : ℕ) := by omega
        have hfin' := hfin _ hm
        rw [hzeros.mp h₂] at hfin'
        have hv := @View.finite spec (Sign.ofBitVec (unpackSign b))
          (unpackMantissa b).toNat 0 (Nat.pos_of_ne_zero (mt hmzero.mpr h₃))
          (by rw [Nat.pow_succ]; omega) (Or.inl rfl) hfin'
        convert hv using 2
    · rw [if_neg h₂]
      have hpos : 0 < (unpackExponent b).toNat := Nat.pos_of_ne_zero (mt hzeros.mpr h₂)
      have hmant : (1#1 ++ unpackMantissa b).toNat =
          2 ^ spec.mantissaBitsWithoutImplicit + (unpackMantissa b).toNat := by
        rw [BitVec.toNat_append, ← Nat.shiftLeft_add_eq_or_of_lt hm, Nat.shiftLeft_eq]
        simp
      have hbits : (unpackExponent b).toNat * 2 ^ spec.mantissaBitsWithoutImplicit +
          (unpackMantissa b).toNat =
          ((unpackExponent b).toNat - 1) * 2 ^ spec.mantissaBitsWithoutImplicit +
            (2 ^ spec.mantissaBitsWithoutImplicit + (unpackMantissa b).toNat) := by
        obtain ⟨j, hj⟩ := Nat.exists_eq_succ_of_ne_zero hpos.ne'
        rw [hj, Nat.succ_sub_one, Nat.succ_mul]
        omega
      have hexp : ((unpackExponent b).toNat : ℤ) -
          (spec.exponentBias + spec.mantissaBitsWithoutImplicit) =
          spec.minExponent + ((unpackExponent b).toNat - 1 : ℕ) := by omega
      have hv := @View.finite spec (Sign.ofBitVec (unpackSign b))
        (2 ^ spec.mantissaBitsWithoutImplicit + (unpackMantissa b).toNat)
        ((unpackExponent b).toNat - 1) (by omega) (by rw [Nat.pow_succ]; omega)
        (Or.inr (by omega)) (by rw [← hbits]; exact hfin _ hm)
      rw [hbits]
      convert hv using 2

/-- A magnitude with its sign, as an integer: both zeros are zero. -/
def signed (s : Sign) (a : ℕ) : ℤ := s.apply a

variable {spec}

theorem infMag_pos (spec : Format) : 0 < infMag spec := by
  have hpow : 2 ≤ 2 ^ spec.exponentBits := by
    calc 2 = 2 ^ 1 := rfl
      _ ≤ 2 ^ spec.exponentBits := Nat.pow_le_pow_right (by omega) spec.he
  exact Nat.mul_pos (by omega) (Nat.two_pow_pos _)

/-- Comparing exponents first and mantissas second compares magnitudes. -/
theorem compare_fields {m₁ k₁ m₂ k₂ : ℕ}
    (hlt₁ : m₁ < 2 ^ (spec.mantissaBitsWithoutImplicit + 1))
    (hfull₁ : k₁ = 0 ∨ 2 ^ spec.mantissaBitsWithoutImplicit ≤ m₁)
    (hlt₂ : m₂ < 2 ^ (spec.mantissaBitsWithoutImplicit + 1))
    (hfull₂ : k₂ = 0 ∨ 2 ^ spec.mantissaBitsWithoutImplicit ≤ m₂) :
    (compare (spec.minExponent + (k₁ : ℤ)) (spec.minExponent + k₂)).then (compare m₁ m₂) =
      compare ((k₁ * 2 ^ spec.mantissaBitsWithoutImplicit + m₁ : ℕ) : ℤ)
        (k₂ * 2 ^ spec.mantissaBitsWithoutImplicit + m₂ : ℕ) := by
  rw [Nat.pow_succ] at hlt₁ hlt₂
  have hstep : ∀ {k k' : ℕ}, k < k' → k * 2 ^ spec.mantissaBitsWithoutImplicit +
      2 ^ spec.mantissaBitsWithoutImplicit ≤ k' * 2 ^ spec.mantissaBitsWithoutImplicit := by
    intro k k' hk
    rw [← Nat.succ_mul]
    exact Nat.mul_le_mul_right _ hk
  rcases lt_trichotomy k₁ k₂ with hk | hk | hk
  · have := hstep hk
    rw [Int.compare_eq_lt.mpr (by omega), Int.compare_eq_lt.mpr (by omega)]
    rfl
  · subst hk
    rw [Int.compare_eq_eq.mpr rfl]
    rcases lt_trichotomy m₁ m₂ with hm | hm | hm
    · rw [Nat.compare_eq_lt.mpr hm, Int.compare_eq_lt.mpr (by omega)]
      rfl
    · rw [Nat.compare_eq_eq.mpr hm, Int.compare_eq_eq.mpr (by omega)]
      rfl
    · rw [Nat.compare_eq_gt.mpr hm, Int.compare_eq_gt.mpr (by omega)]
      rfl
  · have := hstep hk
    rw [Int.compare_eq_gt.mpr (by omega), Int.compare_eq_gt.mpr (by omega)]
    rfl

theorem compare_neg_neg (a b : ℤ) : compare (-a) (-b) = (compare a b).swap := by
  rcases lt_trichotomy a b with h | h | h
  · rw [Int.compare_eq_lt.mpr h, Int.compare_eq_gt.mpr (by omega)]
    rfl
  · rw [Int.compare_eq_eq.mpr h, Int.compare_eq_eq.mpr (by omega)]
    rfl
  · rw [Int.compare_eq_gt.mpr h, Int.compare_eq_lt.mpr (by omega)]
    rfl

/-- The larger magnitude decides by its sign. -/
theorem compare_signed_of_lt (s t : Sign) {a b : ℕ} (h : a < b) :
    compare (signed s a) (signed t b) = match t with | .negative => .gt | .positive => .lt := by
  cases t with
  | negative =>
      apply Int.compare_eq_gt.mpr
      cases s <;> simp only [signed, Sign.apply] <;> omega
  | positive =>
      apply Int.compare_eq_lt.mpr
      cases s <;> simp only [signed, Sign.apply] <;> omega

theorem compare_signed_of_gt (s t : Sign) {a b : ℕ} (h : b < a) :
    compare (signed s a) (signed t b) = match s with | .negative => .lt | .positive => .gt := by
  rw [@Std.OrientedCmp.eq_swap ℤ compare _ (signed s a), compare_signed_of_lt t s h]
  cases s <;> rfl

theorem compare_signed_opposite (a : ℕ) {b : ℕ} (h : 0 < b) :
    compare (signed .negative a) (signed .positive b) = .lt ∧
      compare (signed .positive b) (signed .negative a) = .gt := by
  simp only [signed, Sign.apply, Int.compare_eq_lt, Int.compare_eq_gt]
  omega

theorem compare_view {x y : UnpackedFloat} {s t : Sign} {a b : ℕ} (hx : View spec x s a)
    (hy : View spec y t b) (ha : a ≤ infMag spec) (hb : b ≤ infMag spec) :
    x.compare y = some (compare (signed s a) (signed t b)) := by
  have hinf := infMag_pos spec
  cases hx with
  | notANumber _ n hn => omega
  | zero =>
      cases hy with
      | notANumber _ n hn => omega
      | zero => cases s <;> cases t <;> rfl
      | finite _ m k hm hlt hfull hfin =>
          rw [compare_signed_of_lt s t (by omega)]
          cases s <;> cases t <;> rfl
      | infinity =>
          rw [compare_signed_of_lt s t hinf]
          cases s <;> cases t <;> rfl
  | infinity =>
      cases hy with
      | notANumber _ n hn => omega
      | zero =>
          rw [compare_signed_of_gt s t hinf]
          cases s <;> cases t <;> rfl
      | finite _ m k hm hlt hfull hfin =>
          rw [compare_signed_of_gt s t hfin]
          cases s <;> cases t <;> rfl
      | infinity =>
          obtain ⟨hlt, hgt⟩ := compare_signed_opposite (infMag spec) hinf
          cases s <;> cases t
          · rw [Int.compare_eq_eq.mpr rfl]
            rfl
          · rw [hlt]
            rfl
          · rw [hgt]
            rfl
          · rw [Int.compare_eq_eq.mpr rfl]
            rfl
  | finite _ m₁ k₁ hm₁ hlt₁ hfull₁ hfin₁ =>
      cases hy with
      | notANumber _ n hn => omega
      | zero =>
          rw [compare_signed_of_gt s t (by omega)]
          cases s <;> cases t <;> rfl
      | infinity =>
          rw [compare_signed_of_lt s t hfin₁]
          cases s <;> cases t <;> rfl
      | finite _ m₂ k₂ hm₂ hlt₂ hfull₂ hfin₂ =>
          have hfields := compare_fields hlt₁ hfull₁ hlt₂ hfull₂
          cases s <;> cases t
          · simp only [UnpackedFloat.compare, signed, Sign.apply]
            rw [hfields, compare_neg_neg]
          · rw [(compare_signed_opposite _ (by omega)).1]
            rfl
          · rw [(compare_signed_opposite _ (by omega)).2]
            rfl
          · simp only [UnpackedFloat.compare, signed, Sign.apply]
            rw [hfields]

end Unpack

/-! ## Arithmetic on non-negative finite floats -/

section Arithmetic

variable {spec : Format}

theorem minExponent_neg (hE : 2 ≤ spec.exponentBits) : spec.minExponent < 0 := by
  have hpow : (2 : ℤ) ≤ 2 ^ (spec.exponentBits - 1) := by
    calc (2 : ℤ) = 2 ^ 1 := by norm_num
      _ ≤ 2 ^ (spec.exponentBits - 1) := pow_le_pow_right₀ (by norm_num) (by omega)
  have hm := spec.hm
  unfold Format.minExponent Format.mantissaBits
  push_cast
  omega

/-- The unit of the format: one, in multiples of the smallest subnormal. -/
def one (spec : Format) : ℕ := 2 ^ (-spec.minExponent).toNat

theorem one_pos (spec : Format) : 0 < one spec := Nat.two_pow_pos _

theorem toNat_pack_round (hE : 2 ≤ spec.exponentBits) (s : Sign) {m : ℕ} (hm : 0 < m) (e : ℤ) :
    (UnpackedFloat.pack spec (UnpackedFloat.round spec s m e)).toNat =
      signBits spec s + min (roundMag spec.mantissaBitsWithoutImplicit
        (upscale spec m e) (downscale spec 1 e)) (infMag spec) := by
  set n := (e - spec.targetExponent (totalExponent m e)).toNat with hn
  have hround : UnpackedFloat.round spec s m e =
      roundWithAccuracy spec s (m * 2 ^ n) (e - n) (accuracyOfFraction 0 1) := by
    simp only [UnpackedFloat.round, decreaseExponent, ← hn, Nat.shiftLeft_eq]
    rfl
  have htotal : totalExponent (m * 2 ^ n) (e - n) = totalExponent m e := by
    have hlog := log2_mul_two_pow_add_lt hm (a := n) (le_refl (m * 2 ^ n))
      (Nat.mul_lt_mul_of_pos_right (Nat.lt_succ_self m) (Nat.two_pow_pos n))
    unfold totalExponent
    rw [hlog]
    push_cast
    ring
  rw [hround, toNat_pack_roundWithAccuracy hE s _ _ Nat.zero_lt_one (by rw [htotal]; omega)]
  congr 2
  apply roundMag_congr (Nat.mul_pos Nat.one_pos (Nat.two_pow_pos _))
    (Nat.mul_pos Nat.one_pos (Nat.two_pow_pos _))
  simp only [upscale, Nat.mul_one, Nat.add_zero, Nat.one_mul, Nat.mul_assoc,
    ← Nat.pow_add]
  congr 2
  omega

theorem toNat_pack_ofNat (hE : 2 ≤ spec.exponentBits) (n : ℕ) :
    (UnpackedFloat.pack spec (UnpackedFloat.ofNat spec n)).toNat =
      min (roundMag spec.mantissaBitsWithoutImplicit (n * one spec) 1) (infMag spec) := by
  have hmin := minExponent_neg hE
  rcases Nat.eq_zero_or_pos n with rfl | hn
  · have hzero : UnpackedFloat.ofNat spec 0 = .zero .positive := rfl
    rw [hzero, UnpackedFloat.pack, toNat_packedZero]
    simp
  · have hcmp : compare (n : ℤ) 0 = .gt := Int.compare_eq_gt.mpr (by omega)
    have hup : upscale spec n 0 = n * one spec := by
      rw [upscale, one, Int.zero_sub]
    have hdown : downscale spec 1 0 = 1 := by
      rw [downscale, Int.sub_zero, show spec.minExponent.toNat = 0 by omega]
      rfl
    rw [UnpackedFloat.ofNat, UnpackedFloat.ofInt, UnpackedFloat.normalize, hcmp]
    simp only [Int.toNat_natCast]
    rw [toNat_pack_round hE _ hn, hup, hdown, signBits_positive, Nat.zero_add]

/-- A positive sign with a magnitude below infinity. -/
abbrev Finite (spec : Format) (x : UnpackedFloat) (a : ℕ) : Prop :=
  View spec x .positive a ∧ a < infMag spec

theorem toNat_pack_of_finite (hE : 2 ≤ spec.exponentBits) {x : UnpackedFloat} {a : ℕ}
    (h : Finite spec x a) : (UnpackedFloat.pack spec x).toNat = a := by
  obtain ⟨hv, ha⟩ := h
  cases hv with
  | zero => simp [UnpackedFloat.pack, toNat_packedZero]
  | finite _ m k hm hlt hfull hfin =>
      rw [toNat_pack_finite hE _ hm hlt hfull, Nat.min_eq_left hfin.le, signBits_positive,
        Nat.zero_add]
  | infinity => omega
  | notANumber _ n hn => omega

theorem toNat_pack_zero (hE : 2 ≤ spec.exponentBits) :
    (UnpackedFloat.pack spec (.zero .positive)).toNat = 0 :=
  toNat_pack_of_finite hE ⟨.zero _, infMag_pos spec⟩

/-- An exponent is in place when it is subnormal or its mantissa is full. -/
theorem le_targetExponent {m : ℕ} {e : ℤ}
    (h : e ≤ spec.minExponent ∨ 2 ^ spec.mantissaBitsWithoutImplicit ≤ m) :
    e ≤ spec.targetExponent (totalExponent m e) := by
  unfold Format.targetExponent totalExponent Format.mantissaBits
  rcases h with h | h
  · omega
  · have hpow := Nat.two_pow_pos spec.mantissaBitsWithoutImplicit
    have hlog := (Nat.le_log2 (by omega)).mpr h
    omega

/-- A rounded significand `k` places above the smallest exponent, packed. -/
theorem toNat_pack_round_placed (hE : 2 ≤ spec.exponentBits) (s : Sign) {m : ℕ} (hm : 0 < m)
    (k : ℕ) :
    (UnpackedFloat.pack spec (UnpackedFloat.round spec s m (spec.minExponent + k))).toNat =
      signBits spec s + min (roundMag spec.mantissaBitsWithoutImplicit (m * 2 ^ k) 1)
        (infMag spec) := by
  have hup : upscale spec m (spec.minExponent + k) = m * 2 ^ k := by
    rw [upscale, add_sub_cancel_left, Int.toNat_natCast]
  have hdown : downscale spec 1 (spec.minExponent + k) = 1 := by
    rw [downscale, show (spec.minExponent - (spec.minExponent + (k : ℤ))).toNat = 0 by omega]
    rfl
  rw [toNat_pack_round hE s hm, hup, hdown]

/-- Bringing two significands to their smaller exponent keeps their values. -/
theorem decreaseExponent_placed (m k l : ℕ) :
    (decreaseExponent m (spec.minExponent + k) (spec.minExponent + (min k l : ℕ))).1 =
      m * 2 ^ (k - min k l) ∧ m * 2 ^ (k - min k l) * 2 ^ min k l = m * 2 ^ k := by
  have hshift : (spec.minExponent + (k : ℤ) - (spec.minExponent + (min k l : ℕ))).toNat =
      k - min k l := by omega
  constructor
  · simp only [decreaseExponent, hshift, Nat.shiftLeft_eq]
  · rw [Nat.mul_assoc, ← Nat.pow_add]
    congr 2
    omega

theorem decreaseExponent_placed_right (m k l : ℕ) :
    (decreaseExponent m (spec.minExponent + l) (spec.minExponent + (min k l : ℕ))).1 =
      m * 2 ^ (l - min k l) ∧ m * 2 ^ (l - min k l) * 2 ^ min k l = m * 2 ^ l := by
  rw [Nat.min_comm k l]
  exact decreaseExponent_placed m l k

theorem min_minExponent_add (k l : ℕ) :
    min (spec.minExponent + (k : ℤ)) (spec.minExponent + l) =
      spec.minExponent + (min k l : ℕ) := by
  omega

theorem toNat_pack_add (hE : 2 ≤ spec.exponentBits) {x y : UnpackedFloat} {a b : ℕ}
    (hx : Finite spec x a) (hy : Finite spec y b) :
    (UnpackedFloat.pack spec (UnpackedFloat.add spec x y)).toNat =
      min (roundMag spec.mantissaBitsWithoutImplicit
        (value spec.mantissaBitsWithoutImplicit a +
          value spec.mantissaBitsWithoutImplicit b) 1) (infMag spec) := by
  have hpx := toNat_pack_of_finite hE hx
  have hpy := toNat_pack_of_finite hE hy
  obtain ⟨hvx, ha⟩ := hx
  obtain ⟨hvy, hb⟩ := hy
  cases hvx with
  | infinity => omega
  | notANumber _ n hn => omega
  | zero =>
      rw [value_zero, Nat.zero_add, roundMag_value, Nat.min_eq_left hb.le]
      cases hvy with
      | infinity => omega
      | notANumber _ n hn => omega
      | zero => exact hpy
      | finite _ m k hm hlt hfull hfin => exact hpy
  | finite _ m₁ k₁ hm₁ hlt₁ hfull₁ hfin₁ =>
      cases hvy with
      | infinity => omega
      | notANumber _ n hn => omega
      | zero =>
          rw [value_zero, Nat.add_zero, roundMag_value, Nat.min_eq_left ha.le]
          exact hpx
      | finite _ m₂ k₂ hm₂ hlt₂ hfull₂ hfin₂ =>
          rw [value_of_fields hlt₁ hfull₁, value_of_fields hlt₂ hfull₂]
          have hmin := @min_minExponent_add spec k₁ k₂
          obtain ⟨h₁, hv₁⟩ := @decreaseExponent_placed spec m₁ k₁ k₂
          obtain ⟨h₂, hv₂⟩ := @decreaseExponent_placed_right spec m₂ k₁ k₂
          set M := m₁ * 2 ^ (k₁ - min k₁ k₂) + m₂ * 2 ^ (k₂ - min k₁ k₂) with hM
          have hMpos : 0 < M := by
            have := Nat.mul_pos hm₁ (Nat.two_pow_pos (k₁ - min k₁ k₂))
            omega
          have hadd : UnpackedFloat.add spec (.finite .positive m₁ (spec.minExponent + k₁) hm₁)
              (.finite .positive m₂ (spec.minExponent + k₂) hm₂) =
              UnpackedFloat.round spec .positive M (spec.minExponent + (min k₁ k₂ : ℕ)) := by
            have hcmp : compare (M : ℤ) 0 = .gt := Int.compare_eq_gt.mpr (by omega)
            simp only [UnpackedFloat.add, hmin, h₁, h₂, Sign.apply]
            rw [← Int.natCast_add, ← hM, UnpackedFloat.normalize, hcmp]
            simp only [Int.toNat_natCast]
          rw [hadd, toNat_pack_round_placed hE _ hMpos, hM, Nat.add_mul, hv₁, hv₂,
            signBits_positive, Nat.zero_add]

/-- A signed difference of magnitudes, packed; a zero is positive. -/
def packedDiff (spec : Format) (a b : ℕ) : ℕ :=
  if b ≤ a then min (roundMag spec.mantissaBitsWithoutImplicit (a - b) 1) (infMag spec)
  else signBits spec .negative +
    min (roundMag spec.mantissaBitsWithoutImplicit (b - a) 1) (infMag spec)

/-- A difference of significands at one exponent, packed. -/
theorem toNat_pack_normalize_sub (hE : 2 ≤ spec.exponentBits) (m n k : ℕ) :
    (UnpackedFloat.pack spec
      (UnpackedFloat.normalize spec ((m : ℤ) - n) (spec.minExponent + k) .positive)).toNat =
      packedDiff spec (m * 2 ^ k) (n * 2 ^ k) := by
  have hpow := Nat.two_pow_pos k
  rw [packedDiff, ← Nat.sub_mul, ← Nat.sub_mul, UnpackedFloat.normalize]
  rcases lt_trichotomy m n with hlt | rfl | hgt
  · have hcmp : compare ((m : ℤ) - n) 0 = .lt := Int.compare_eq_lt.mpr (by omega)
    have hnat : (-((m : ℤ) - n)).toNat = n - m := by omega
    rw [hcmp, if_neg (not_le.mpr (Nat.mul_lt_mul_of_pos_right hlt hpow))]
    simp only [hnat]
    exact toNat_pack_round_placed hE _ (by omega) k
  · have hcmp : compare ((m : ℤ) - m) 0 = .eq := Int.compare_eq_eq.mpr (by omega)
    rw [hcmp, if_pos (le_refl _), Nat.sub_self, Nat.zero_mul, roundMag_zero, Nat.zero_min]
    exact toNat_pack_zero hE
  · have hcmp : compare ((m : ℤ) - n) 0 = .gt := Int.compare_eq_gt.mpr (by omega)
    have hnat : ((m : ℤ) - n).toNat = m - n := by omega
    rw [hcmp, if_pos (Nat.mul_le_mul_right _ hgt.le)]
    simp only [hnat]
    rw [toNat_pack_round_placed hE _ (by omega) k, signBits_positive, Nat.zero_add]

theorem toNat_pack_sub (hE : 2 ≤ spec.exponentBits) {x y : UnpackedFloat} {a b : ℕ}
    (hx : Finite spec x a) (hy : Finite spec y b) :
    (UnpackedFloat.pack spec (UnpackedFloat.sub spec x y)).toNat =
      packedDiff spec (value spec.mantissaBitsWithoutImplicit a)
        (value spec.mantissaBitsWithoutImplicit b) := by
  have hpx := toNat_pack_of_finite hE hx
  obtain ⟨hvx, ha⟩ := hx
  obtain ⟨hvy, hb⟩ := hy
  cases hvy with
  | infinity => omega
  | notANumber _ n hn => omega
  | zero =>
      have hdiff : packedDiff spec (value spec.mantissaBitsWithoutImplicit a) 0 = a := by
        rw [packedDiff, if_pos (Nat.zero_le _), Nat.sub_zero, roundMag_value, Nat.min_eq_left ha.le]
      rw [value_zero, hdiff]
      cases hvx with
      | infinity => omega
      | notANumber _ n hn => omega
      | zero => exact hpx
      | finite _ m k hm hlt hfull hfin => exact hpx
  | finite _ m₂ k₂ hm₂ hlt₂ hfull₂ hfin₂ =>
      have hv₂pos : 0 < m₂ * 2 ^ k₂ := Nat.mul_pos hm₂ (Nat.two_pow_pos k₂)
      cases hvx with
      | infinity => omega
      | notANumber _ n hn => omega
      | zero =>
          have hval := value_of_fields hlt₂ hfull₂
          rw [value_zero, packedDiff, if_neg (by omega), Nat.sub_zero, roundMag_value]
          exact toNat_pack_finite hE _ hm₂ hlt₂ hfull₂
      | finite _ m₁ k₁ hm₁ hlt₁ hfull₁ hfin₁ =>
          rw [value_of_fields hlt₁ hfull₁, value_of_fields hlt₂ hfull₂]
          have hmin := @min_minExponent_add spec k₁ k₂
          obtain ⟨h₁, hv₁⟩ := @decreaseExponent_placed spec m₁ k₁ k₂
          obtain ⟨h₂, hv₂⟩ := @decreaseExponent_placed_right spec m₂ k₁ k₂
          rw [← hv₁, ← hv₂, ← toNat_pack_normalize_sub hE]
          simp only [UnpackedFloat.sub, hmin, h₁, h₂, Sign.apply]

theorem toNat_pack_mul (hE : 2 ≤ spec.exponentBits) {x y : UnpackedFloat} {a b : ℕ}
    (hx : Finite spec x a) (hy : Finite spec y b) :
    (UnpackedFloat.pack spec (UnpackedFloat.mul spec x y)).toNat =
      min (roundMag spec.mantissaBitsWithoutImplicit
        (value spec.mantissaBitsWithoutImplicit a *
          value spec.mantissaBitsWithoutImplicit b) (one spec)) (infMag spec) := by
  have hmin := minExponent_neg hE
  obtain ⟨hvx, ha⟩ := hx
  obtain ⟨hvy, hb⟩ := hy
  cases hvx with
  | infinity => omega
  | notANumber _ n hn => omega
  | zero =>
      rw [value_zero, Nat.zero_mul, roundMag_zero, Nat.zero_min]
      cases hvy with
      | infinity => omega
      | notANumber _ n hn => omega
      | zero => exact toNat_pack_zero hE
      | finite _ m k hm hlt hfull hfin => exact toNat_pack_zero hE
  | finite _ m₁ k₁ hm₁ hlt₁ hfull₁ hfin₁ =>
      cases hvy with
      | infinity => omega
      | notANumber _ n hn => omega
      | zero =>
          rw [value_zero, Nat.mul_zero, roundMag_zero, Nat.zero_min]
          exact toNat_pack_zero hE
      | finite _ m₂ k₂ hm₂ hlt₂ hfull₂ hfin₂ =>
          rw [value_of_fields hlt₁ hfull₁, value_of_fields hlt₂ hfull₂]
          set e := spec.minExponent + (k₁ : ℤ) + (spec.minExponent + k₂) with he
          have hmul : UnpackedFloat.mul spec (.finite .positive m₁ (spec.minExponent + k₁) hm₁)
              (.finite .positive m₂ (spec.minExponent + k₂) hm₂) =
              roundWithAccuracy spec .positive (m₁ * m₂) e (accuracyOfFraction 0 1) := rfl
          have hplaced : e ≤ spec.targetExponent (totalExponent (m₁ * m₂) e) := by
            rcases le_or_gt e spec.minExponent with hle | hlt
            · exact le_targetExponent (Or.inl hle)
            · -- one factor is normal, so the product fills the mantissa
              refine le_targetExponent (Or.inr ?_)
              have hk : k₁ ≠ 0 ∨ k₂ ≠ 0 := by omega
              rcases hk with hk | hk
              · exact le_trans (hfull₁.resolve_left hk) (Nat.le_mul_of_pos_right _ hm₂)
              · exact le_trans (hfull₂.resolve_left hk) (Nat.le_mul_of_pos_left _ hm₁)
          rw [hmul, toNat_pack_roundWithAccuracy hE _ _ _ Nat.zero_lt_one hplaced]
          rw [signBits_positive, Nat.zero_add]
          congr 1
          apply roundMag_congr (Nat.mul_pos Nat.one_pos (Nat.two_pow_pos _)) (one_pos spec)
          calc upscale spec (m₁ * m₂ * 1 + 0) e * one spec
              = m₁ * m₂ * 2 ^ ((e - spec.minExponent).toNat + (-spec.minExponent).toNat) := by
                rw [upscale, one, Nat.pow_add]
                ring
            _ = m₁ * m₂ * 2 ^ (k₁ + k₂ + (spec.minExponent - e).toNat) := by
                congr 2
                omega
            _ = m₁ * 2 ^ k₁ * (m₂ * 2 ^ k₂) * downscale spec 1 e := by
                rw [downscale, Nat.pow_add, Nat.pow_add]
                ring

theorem toNat_pack_div (hE : 2 ≤ spec.exponentBits) {x y : UnpackedFloat} {a b : ℕ}
    (hx : Finite spec x a) (hy : Finite spec y b) (hb0 : 0 < b) :
    (UnpackedFloat.pack spec (UnpackedFloat.div spec x y)).toNat =
      min (roundMag spec.mantissaBitsWithoutImplicit
        (value spec.mantissaBitsWithoutImplicit a * one spec)
        (value spec.mantissaBitsWithoutImplicit b)) (infMag spec) := by
  have hmin := minExponent_neg hE
  obtain ⟨hvx, ha⟩ := hx
  obtain ⟨hvy, hb⟩ := hy
  cases hvy with
  | infinity => omega
  | notANumber _ n hn => omega
  | zero => omega
  | finite _ m₂ k₂ hm₂ hlt₂ hfull₂ hfin₂ =>
      cases hvx with
      | infinity => omega
      | notANumber _ n hn => omega
      | zero =>
          rw [value_zero, Nat.zero_mul, roundMag_zero, Nat.zero_min]
          exact toNat_pack_zero hE
      | finite _ m₁ k₁ hm₁ hlt₁ hfull₁ hfin₁ =>
          rw [value_of_fields hlt₁ hfull₁, value_of_fields hlt₂ hfull₂]
          set e₁ := spec.minExponent + (k₁ : ℤ) with he₁
          set e₂ := spec.minExponent + (k₂ : ℤ) with he₂
          set e := min (e₁ - e₂)
            (spec.targetExponent (totalExponent m₁ e₁ - totalExponent m₂ e₂)) with he
          set n := (e₁ - e₂ - e).toNat with hn
          have hdiv : UnpackedFloat.div spec (.finite .positive m₁ e₁ hm₁)
              (.finite .positive m₂ e₂ hm₂) =
              roundWithAccuracy spec .positive (m₁ * 2 ^ n / m₂) e
                (accuracyOfFraction (m₁ * 2 ^ n % m₂) m₂) := by
            simp only [UnpackedFloat.div, divCore, ← he, ← hn, Nat.shiftLeft_eq]
            rfl
          have hplaced : e ≤ spec.targetExponent (totalExponent (m₁ * 2 ^ n / m₂) e) := by
            rcases le_or_gt e spec.minExponent with hle | hlt
            · exact le_targetExponent (Or.inl hle)
            · -- the quotient was given enough bits
              have hbits : m₂.log2 + 1 + spec.mantissaBitsWithoutImplicit ≤ m₁.log2 + n := by
                unfold Format.targetExponent totalExponent Format.mantissaBits at he
                omega
              refine le_targetExponent (Or.inr ?_)
              rw [Nat.le_div_iff_mul_le hm₂]
              calc 2 ^ spec.mantissaBitsWithoutImplicit * m₂
                  ≤ 2 ^ spec.mantissaBitsWithoutImplicit * 2 ^ (m₂.log2 + 1) :=
                    Nat.mul_le_mul_left _ Nat.lt_log2_self.le
                _ ≤ 2 ^ (m₁.log2 + n) := by
                    rw [← Nat.pow_add]
                    exact Nat.pow_le_pow_right (by omega) (by omega)
                _ ≤ m₁ * 2 ^ n := by
                    rw [Nat.pow_add]
                    exact Nat.mul_le_mul_right _ (Nat.log2_self_le hm₁.ne')
          rw [hdiv, toNat_pack_roundWithAccuracy hE _ _ _ (Nat.mod_lt _ hm₂) hplaced]
          rw [signBits_positive, Nat.zero_add, Nat.div_add_mod' (m₁ * 2 ^ n) m₂]
          congr 1
          apply roundMag_congr (Nat.mul_pos hm₂ (Nat.two_pow_pos _))
            (Nat.mul_pos hm₂ (Nat.two_pow_pos _))
          calc upscale spec (m₁ * 2 ^ n) e * (m₂ * 2 ^ k₂)
              = m₁ * m₂ * 2 ^ (n + (e - spec.minExponent).toNat + k₂) := by
                rw [upscale, Nat.pow_add, Nat.pow_add]
                ring
            _ = m₁ * m₂ * 2 ^ (k₁ + (-spec.minExponent).toNat + (spec.minExponent - e).toNat) := by
                congr 2
                omega
            _ = m₁ * 2 ^ k₁ * one spec * downscale spec m₂ e := by
                rw [downscale, one, Nat.pow_add, Nat.pow_add]
                ring

end Arithmetic

end FloatModel
