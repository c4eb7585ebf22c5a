import Fnprint.Lib.FloatModel

/-!
# Double precision numbers

Lean's `Float` with the comparisons a systems language gives its doubles: the
IEEE order, the total order on bit patterns, and the extrema that ignore NaN.
All are read off the bit pattern; arithmetic on non-negative finite numbers is
the rounded exact result, so it is monotone.
-/

namespace Binary64

open Rounding FloatModel Float.Model Float.Model.UnpackedFloat

/-- The bit pattern. -/
def bits (x : Float) : ℕ := x.toBits.toNat

theorem bits_lt (x : Float) : bits x < 2 ^ 64 := x.toBits.toNat_lt

theorem bits_injective : Function.Injective bits := by
  rintro ⟨⟨u, hu⟩⟩ ⟨⟨v, hv⟩⟩ h
  have huv : u = v := UInt64.toNat_inj.mp h
  subst huv
  rfl

/-- The bit pattern of positive infinity. -/
def inf : ℕ := infMag Format.binary64

theorem inf_eq : inf = 0x7ff0000000000000 := by
  norm_num [inf, infMag]

def magnitude (x : Float) : ℕ := bits x % 2 ^ 63

def sign (x : Float) : Sign := if bits x < 2 ^ 63 then .positive else .negative

/-- Not a number: the magnitude lies above infinity. -/
def Nan (x : Float) : Prop := inf < magnitude x

/-- The signed magnitude; both zeros have rank zero. -/
def rank (x : Float) : ℤ := signed (sign x) (magnitude x)

theorem unpack_view (x : Float) :
    View Format.binary64 x.toModel.unpack (sign x) (magnitude x) := by
  have h := FloatModel.unpack_view Format.binary64 x.toModel.toBits.toBitVec
  have hs : Sign.ofBitVec (@unpackSign Format.binary64 x.toModel.toBits.toBitVec) =
      sign x := by
    have hb : (@unpackSign Format.binary64 x.toModel.toBits.toBitVec).toNat =
        bits x / 2 ^ 63 := by
      have := bits_lt x
      rw [unpackSign, BitVec.toNat_cast, BitVec.extractLsb_toNat, Nat.shiftRight_eq_div_pow]
      simp only [bits, Float.toBits] at this ⊢
      change x.toModel.toBits.toNat / 2 ^ 63 % 2 ^ 1 = x.toModel.toBits.toNat / 2 ^ 63
      omega
    have hlt := bits_lt x
    unfold Sign.ofBitVec sign
    by_cases hx : bits x < 2 ^ 63
    · rw [if_pos hx, if_pos (BitVec.eq_of_toNat_eq (by rw [hb]; simp; omega))]
    · rw [if_neg hx, if_neg]
      intro h0
      rw [h0] at hb
      simp at hb
      omega
  rw [hs] at h
  exact h

/-! ## The IEEE order -/

private theorem compare_nan {x y : Float} (h : Nan x ∨ Nan y) :
    x.toModel.unpack.compare y.toModel.unpack = none := by
  have hx := unpack_view x
  have hy := unpack_view y
  have hinf := infMag_pos Format.binary64
  rcases h with h | h
  · unfold Nan inf at h
    generalize x.toModel.unpack = X at hx
    generalize magnitude x = a at hx h
    cases hx with
    | notANumber => rfl
    | zero => omega
    | finite => omega
    | infinity => omega
  · unfold Nan inf at h
    generalize y.toModel.unpack = Y at hy
    generalize magnitude y = b at hy h
    cases hy with
    | notANumber => cases x.toModel.unpack <;> rfl
    | zero => omega
    | finite => omega
    | infinity => omega

private theorem compare_rank {x y : Float} (hx : ¬Nan x) (hy : ¬Nan y) :
    x.toModel.unpack.compare y.toModel.unpack = some (compare (rank x) (rank y)) :=
  compare_view (unpack_view x) (unpack_view y) (not_lt.mp hx) (not_lt.mp hy)

theorem lt_iff {x y : Float} : x < y ↔ ¬Nan x ∧ ¬Nan y ∧ rank x < rank y := by
  have hdef : x < y ↔ (x.toModel.unpack.compare y.toModel.unpack == some .lt) = true := by
    change (decide (x.toModel.lt y.toModel = true) = true) ↔ _
    rw [decide_eq_true_iff]
    rfl
  rw [hdef]
  by_cases hx : Nan x
  · simp [compare_nan (Or.inl hx), hx]
  by_cases hy : Nan y
  · simp [compare_nan (Or.inr hy), hy]
  rw [compare_rank hx hy]
  simp [hx, hy, Int.compare_eq_lt]

theorem le_iff {x y : Float} : x ≤ y ↔ ¬Nan x ∧ ¬Nan y ∧ rank x ≤ rank y := by
  have hdef : x ≤ y ↔ (x.toModel.unpack.compare y.toModel.unpack).any (·.isLE) = true := by
    change (decide (x.toModel.le y.toModel = true) = true) ↔ _
    rw [decide_eq_true_iff]
    rfl
  rw [hdef]
  by_cases hx : Nan x
  · simp [compare_nan (Or.inl hx), hx]
  by_cases hy : Nan y
  · simp [compare_nan (Or.inr hy), hy]
  rw [compare_rank hx hy]
  simp [hx, hy, Int.isLE_compare]

theorem beq_iff {x y : Float} : (x == y) = true ↔ ¬Nan x ∧ ¬Nan y ∧ rank x = rank y := by
  have hdef : (x == y) = true ↔
      (x.toModel.unpack.compare y.toModel.unpack == some .eq) = true := Iff.rfl
  rw [hdef]
  by_cases hx : Nan x
  · simp [compare_nan (Or.inl hx), hx]
  by_cases hy : Nan y
  · simp [compare_nan (Or.inr hy), hy]
  rw [compare_rank hx hy]
  simp [hx, hy]

theorem float_le_trans {x y z : Float} (hxy : x ≤ y) (hyz : y ≤ z) : x ≤ z := by
  rw [le_iff] at hxy hyz ⊢
  exact ⟨hxy.1, hyz.2.1, hxy.2.2.trans hyz.2.2⟩

theorem float_lt_of_lt_of_le {x y z : Float} (hxy : x < y) (hyz : y ≤ z) : x < z := by
  rw [lt_iff] at hxy ⊢
  rw [le_iff] at hyz
  exact ⟨hxy.1, hyz.2.1, hxy.2.2.trans_le hyz.2.2⟩

theorem not_nan_of_le {x : Float} (h : bits x ≤ inf) : ¬Nan x := by
  rw [inf_eq] at h
  unfold Nan magnitude
  rw [inf_eq]
  omega

theorem rank_of_le {x : Float} (h : bits x ≤ inf) : rank x = bits x := by
  rw [inf_eq] at h
  have hlt : bits x < 2 ^ 63 := by omega
  rw [rank, sign, if_pos hlt, magnitude, Nat.mod_eq_of_lt hlt]
  rfl

theorem lt_iff_bits {x y : Float} (hx : bits x ≤ inf) (hy : bits y ≤ inf) :
    x < y ↔ bits x < bits y := by
  rw [lt_iff, rank_of_le hx, rank_of_le hy]
  simp [not_nan_of_le hx, not_nan_of_le hy]

theorem le_iff_bits {x y : Float} (hx : bits x ≤ inf) (hy : bits y ≤ inf) :
    x ≤ y ↔ bits x ≤ bits y := by
  rw [le_iff, rank_of_le hx, rank_of_le hy]
  simp [not_nan_of_le hx, not_nan_of_le hy]

theorem beq_iff_eq_of_le {x y : Float} (hx : bits x ≤ inf) (hy : bits y ≤ inf) :
    (x == y) = true ↔ x = y := by
  rw [beq_iff, rank_of_le hx, rank_of_le hy]
  simp only [not_nan_of_le hx, not_nan_of_le hy, not_false_eq_true, true_and, Int.natCast_inj]
  exact ⟨fun h ↦ bits_injective h, fun h ↦ by rw [h]⟩

/-! ## The total order -/

/-- The bit pattern as a sign-and-magnitude key: negative patterns count down. -/
def totalKey (x : Float) : ℤ :=
  if bits x < 2 ^ 63 then bits x else 2 ^ 63 - 1 - bits x

theorem totalKey_injective : Function.Injective totalKey := by
  intro x y h
  unfold totalKey at h
  apply bits_injective
  split at h <;> split at h <;> omega

def totalCmp (x y : Float) : Ordering := compareOn totalKey x y

instance instTransCmpTotalCmp : Std.TransCmp totalCmp :=
  inferInstanceAs (Std.TransCmp (compareOn totalKey))

theorem totalCmp_eq_iff {x y : Float} : totalCmp x y = .eq ↔ x = y := by
  rw [totalCmp, compareOn, Std.LawfulEqCmp.compare_eq_iff_eq]
  exact totalKey_injective.eq_iff

theorem totalCmp_isLE_iff {x y : Float} (hx : bits x ≤ inf) (hy : bits y ≤ inf) :
    (totalCmp x y).isLE = true ↔ bits x ≤ bits y := by
  rw [inf_eq] at hx hy
  rw [totalCmp, compareOn, Int.isLE_compare, totalKey, totalKey, if_pos (by omega),
    if_pos (by omega)]
  omega

theorem totalCmp_isLE_iff_le {x y : Float} (hx : bits x ≤ inf) (hy : bits y ≤ inf) :
    (totalCmp x y).isLE = true ↔ x ≤ y :=
  (totalCmp_isLE_iff hx hy).trans (le_iff_bits hx hy).symm

theorem totalCmp_eq_lt_iff {x y : Float} (hx : bits x ≤ inf) (hy : bits y ≤ inf) :
    totalCmp x y = .lt ↔ x < y := by
  have hswap := @Std.OrientedCmp.eq_swap Float totalCmp _ x y
  have hle := totalCmp_isLE_iff hy hx
  rw [lt_iff_bits hx hy, ← not_le, ← hle, hswap]
  cases totalCmp y x <;> simp

/-! ## Extrema that ignore NaN -/

/-- The larger of two numbers; a NaN gives way to the other argument. -/
def maxNum (x y : Float) : Float :=
  if x.isNaN then y else if y.isNaN then x else if x < y then y else x

def minNum (x y : Float) : Float :=
  if x.isNaN then y else if y.isNaN then x else if y < x then y else x

theorem isNaN_iff {x : Float} : x.isNaN = true ↔ Nan x := by
  have hv := unpack_view x
  change x.toModel.unpack.isNaN = true ↔ inf < magnitude x
  generalize x.toModel.unpack = u at hv
  generalize magnitude x = m at hv
  cases hv with
  | zero => simp [UnpackedFloat.isNaN]
  | finite s m k hm hlt hfull hfin => simpa [UnpackedFloat.isNaN, inf] using hfin.le
  | infinity => simp [UnpackedFloat.isNaN, inf]
  | notANumber s n hn => simpa [UnpackedFloat.isNaN, inf] using hn

theorem isFinite_iff {x : Float} : x.isFinite = true ↔ magnitude x < inf := by
  have hv := unpack_view x
  change x.toModel.unpack.isFinite = true ↔ magnitude x < inf
  generalize x.toModel.unpack = u at hv
  generalize magnitude x = m at hv
  cases hv with
  | zero => simpa [UnpackedFloat.isFinite, inf] using infMag_pos _
  | finite s m k hm hlt hfull hfin => simpa [UnpackedFloat.isFinite, inf] using hfin
  | infinity => simp [UnpackedFloat.isFinite, inf]
  | notANumber s n hn => simpa [UnpackedFloat.isFinite, inf] using hn.le

/-- A number that is not below zero is its own larger one. -/
theorem maxNum_zero {x : Float} (h : 0.0 ≤ x) : maxNum x 0.0 = x := by
  obtain ⟨h0, hx, hle⟩ := le_iff.mp h
  have hnan : ¬x.isNaN = true := fun hn ↦ hx (isNaN_iff.mp hn)
  have hnan0 : ¬(0.0 : Float).isNaN = true := fun hn ↦ h0 (isNaN_iff.mp hn)
  have hnot : ¬x < 0.0 := fun hlt ↦ not_lt.mpr hle (lt_iff.mp hlt).2.2
  rw [maxNum, if_neg hnan, if_neg hnan0, if_neg hnot]

theorem pos_of_maxNum_pos {x : Float} (h : 0.0 < maxNum x 0.0) : 0.0 < x := by
  have hnot : ¬(0.0 : Float) < 0.0 := by decide
  unfold maxNum at h
  split at h
  · exact absurd h hnot
  · split at h
    · exact h
    · split at h
      · exact absurd h hnot
      · exact h

/-! ## Arithmetic -/

/-- A count as a double, rounded to nearest. -/
def natCast (n : ℕ) : Float := .ofModel (.ofNat n)

theorem finite_view {x : Float} (h : bits x < inf) :
    Finite Format.binary64 x.toModel.unpack (bits x) := by
  have hlt : bits x < 2 ^ 63 := by
    rw [inf_eq] at h
    omega
  have hv := unpack_view x
  rw [sign, if_pos hlt, magnitude, Nat.mod_eq_of_lt hlt] at hv
  exact ⟨hv, h⟩

theorem bits_add {x y : Float} (hx : bits x < inf) (hy : bits y < inf) :
    bits (x + y) = min (roundMag 52 (value 52 (bits x) + value 52 (bits y)) 1) inf :=
  toNat_pack_add (by decide) (finite_view hx) (finite_view hy)

theorem bits_sub {x y : Float} (hx : bits x < inf) (hy : bits y < inf) :
    bits (x - y) = packedDiff Format.binary64 (value 52 (bits x)) (value 52 (bits y)) :=
  toNat_pack_sub (by decide) (finite_view hx) (finite_view hy)

theorem bits_mul {x y : Float} (hx : bits x < inf) (hy : bits y < inf) :
    bits (x * y) = min (roundMag 52 (value 52 (bits x) * value 52 (bits y))
      (one Format.binary64)) inf :=
  toNat_pack_mul (by decide) (finite_view hx) (finite_view hy)

theorem bits_div {x y : Float} (hx : bits x < inf) (hy : bits y < inf) (hy0 : 0 < bits y) :
    bits (x / y) = min (roundMag 52 (value 52 (bits x) * one Format.binary64)
      (value 52 (bits y))) inf :=
  toNat_pack_div (by decide) (finite_view hx) (finite_view hy) hy0

theorem bits_natCast (n : ℕ) :
    bits (natCast n) = min (roundMag 52 (n * one Format.binary64) 1) inf :=
  toNat_pack_ofNat (by decide) n

theorem bits_one : bits 1.0 = 0x3ff0000000000000 := by decide

theorem bits_zero : bits 0.0 = 0 := by decide

/-- A finite number that is not below zero has a plain bit pattern or is minus zero. -/
theorem bits_lt_inf_of_nonneg {x : Float} (h : 0.0 ≤ x) (hfin : x.isFinite = true) :
    bits x < inf ∨ x = -0.0 := by
  have hmag := isFinite_iff.mp hfin
  have hrank := (le_iff.mp h).2.2
  rw [@rank_of_le 0.0 (by rw [bits_zero]; exact Nat.zero_le _), bits_zero, rank, sign] at hrank
  by_cases hsmall : bits x < 2 ^ 63
  · rw [magnitude, Nat.mod_eq_of_lt hsmall] at hmag
    exact Or.inl hmag
  · rw [if_neg hsmall] at hrank
    have hzero : magnitude x = 0 := by
      simpa [signed, Sign.apply] using hrank
    have hlt := bits_lt x
    have hneg : bits (-0.0) = 2 ^ 63 := by decide
    rw [magnitude] at hzero
    exact Or.inr (bits_injective (by rw [hneg]; omega))

theorem beq_zero_iff {x : Float} : (x == 0.0) = true ↔ x = 0.0 ∨ x = -0.0 := by
  constructor
  · intro h
    have hrank := (beq_iff.mp h).2.2
    rw [@rank_of_le 0.0 (by rw [bits_zero]; exact Nat.zero_le _), bits_zero] at hrank
    have hmag : magnitude x = 0 := by
      unfold rank signed at hrank
      cases hs : sign x <;> rw [hs] at hrank <;> simpa [Sign.apply] using hrank
    have hlt := bits_lt x
    rw [magnitude] at hmag
    rcases Nat.lt_or_ge (bits x) (2 ^ 63) with hsmall | hlarge
    · exact Or.inl (bits_injective (by rw [bits_zero]; omega))
    · have hneg : bits (-0.0) = 2 ^ 63 := by decide
      exact Or.inr (bits_injective (by rw [hneg]; omega))
  · rintro (rfl | rfl) <;> decide

theorem one_lt_inf : bits 1.0 < inf := by
  rw [bits_one, inf_eq]
  norm_num

theorem zero_lt_inf : bits 0.0 < inf := by
  rw [bits_zero, inf_eq]
  norm_num

theorem one_binary64 : one Format.binary64 = 2 ^ 1074 := by
  have h : (-Format.minExponent Format.binary64).toNat = 1074 := by decide
  rw [one, h]

private theorem two_pow_mul {a b c : ℕ} (h : a + b = c) : 2 ^ a * 2 ^ b = 2 ^ c := by
  rw [← Nat.pow_add, h]

theorem value_one : value 52 (bits 1.0) = one Format.binary64 := by
  have hsplit : 0x3ff0000000000000 = 1022 * 2 ^ 52 + 2 ^ 52 := by norm_num
  rw [bits_one, one_binary64, hsplit, value_of_fields (by norm_num) (Or.inr (le_refl _))]
  exact two_pow_mul (by norm_num)

theorem value_mono {m n : ℕ} (h : m ≤ n) : value 52 m ≤ value 52 n :=
  value_le_value_iff.mpr h

theorem add_mono {x y x' y' : Float} (hx' : bits x' < inf) (hy' : bits y' < inf)
    (hx : bits x ≤ bits x') (hy : bits y ≤ bits y') : bits (x + y) ≤ bits (x' + y') := by
  rw [bits_add (by omega) (by omega), bits_add hx' hy']
  apply min_le_min_right
  apply roundMag_mono Nat.one_pos Nat.one_pos
  have h₁ := value_mono hx
  have h₂ := value_mono hy
  omega

theorem mul_mono_right {w x x' : Float} (hw : bits w < inf) (hx' : bits x' < inf)
    (hx : bits x ≤ bits x') : bits (w * x) ≤ bits (w * x') := by
  rw [bits_mul hw (by omega), bits_mul hw hx']
  apply min_le_min_right
  apply roundMag_mono (one_pos _) (one_pos _)
  exact Nat.mul_le_mul_right _ (Nat.mul_le_mul_left _ (value_mono hx))

theorem mul_one {w : Float} (hw : bits w < inf) : w * 1.0 = w := by
  apply bits_injective
  rw [bits_mul hw one_lt_inf, value_one]
  have h := roundMag_mul_right 52 (value 52 (bits w)) 1 (one Format.binary64) (one_pos _)
  rw [Nat.one_mul, roundMag_value] at h
  rw [h, min_eq_left hw.le]

theorem mul_zero {w : Float} (hw : bits w < inf) : w * 0.0 = 0.0 := by
  apply bits_injective
  rw [bits_mul hw zero_lt_inf, bits_zero, value_of_lt (Nat.two_pow_pos _), Nat.mul_zero,
    roundMag_zero, Nat.zero_min]

theorem add_zero {x : Float} (hx : bits x < inf) : x + 0.0 = x := by
  apply bits_injective
  rw [bits_add hx zero_lt_inf, bits_zero, value_of_lt (Nat.two_pow_pos _), Nat.add_zero,
    roundMag_value, min_eq_left hx.le]

theorem add_neg_zero {x : Float} (hx : bits x < inf) : x + -0.0 = x := by
  have hneg : (-0.0 : Float).toModel.unpack = .zero .negative := rfl
  apply bits_injective
  obtain ⟨hv, hlt⟩ := finite_view hx
  have hself := toNat_pack_of_finite (by decide) (finite_view hx)
  change (UnpackedFloat.pack Format.binary64 (UnpackedFloat.add Format.binary64 x.toModel.unpack
    (-0.0 : Float).toModel.unpack)).toNat = bits x
  rw [hneg]
  generalize x.toModel.unpack = u at hv hself ⊢
  generalize bits x = n at hv hself hlt ⊢
  cases hv with
  | infinity => exact absurd hlt (lt_irrefl _)
  | notANumber _ _ hn => omega
  | zero => exact hself
  | finite _ m k hm hsmall hfull hfin => exact hself

/-- A zero weight leaves a number alone, whatever its sign. -/
theorem add_mul_zero {x w : Float} (hx : bits x < inf) (hw : (w == 0.0) = true) :
    x + w * 0.0 = x := by
  rcases beq_zero_iff.mp hw with rfl | rfl
  · rw [mul_zero zero_lt_inf, add_zero hx]
  · have hneg : (-0.0 : Float) * 0.0 = -0.0 := rfl
    rw [hneg, add_neg_zero hx]

/-! ## Counts and their quotients -/

theorem bits_add_le_inf {x y : Float} (hx : bits x < inf) (hy : bits y < inf) :
    bits (x + y) ≤ inf := by
  rw [bits_add hx hy]
  exact min_le_right _ _

theorem minNum_of_le_one {x : Float} (h : bits x ≤ bits 1.0) : minNum x 1.0 = x := by
  have hx : bits x ≤ inf := h.trans one_lt_inf.le
  have hnan : ¬x.isNaN = true := fun hn ↦ not_nan_of_le hx (isNaN_iff.mp hn)
  have hnan1 : ¬(1.0 : Float).isNaN = true := by decide
  have hnot : ¬(1.0 : Float) < x := fun hlt ↦
    not_lt.mpr h ((lt_iff_bits one_lt_inf.le hx).mp hlt)
  rw [minNum, if_neg hnan, if_neg hnan1, if_neg hnot]

theorem minNum_one {x : Float} (h : bits 1.0 ≤ bits x) (hx : bits x ≤ inf) :
    minNum x 1.0 = 1.0 := by
  have hnan : ¬x.isNaN = true := fun hn ↦ not_nan_of_le hx (isNaN_iff.mp hn)
  have hnan1 : ¬(1.0 : Float).isNaN = true := by decide
  rw [minNum, if_neg hnan, if_neg hnan1]
  split
  · rfl
  · next hnot =>
      rw [lt_iff_bits one_lt_inf.le hx] at hnot
      exact bits_injective (le_antisymm (not_lt.mp hnot) h)

theorem natCast_mono {m n : ℕ} (h : m ≤ n) : bits (natCast m) ≤ bits (natCast n) := by
  rw [bits_natCast, bits_natCast]
  apply min_le_min_right
  apply roundMag_mono Nat.one_pos Nat.one_pos
  exact Nat.mul_le_mul_right _ (Nat.mul_le_mul_right _ h)

theorem natCast_one : natCast 1 = 1.0 := by decide

theorem natCast_lt_inf {n : ℕ} (h : n ≤ 2 ^ 128) : bits (natCast n) < inf := by
  have hbig : roundMag 52 (2 ^ 128 * one Format.binary64) 1 = 1151 * 2 ^ 52 := by
    have hval : value 52 (1151 * 2 ^ 52) = 2 ^ 128 * one Format.binary64 := by
      have hsplit : 1151 * 2 ^ 52 = 1150 * 2 ^ 52 + 2 ^ 52 := by norm_num
      rw [hsplit, value_of_fields (by norm_num) (Or.inr (le_refl _)), one_binary64]
      rw [two_pow_mul (c := 1202) (by norm_num), two_pow_mul (c := 1202) (by norm_num)]
    rw [← hval, roundMag_value]
  have hle : roundMag 52 (n * one Format.binary64) 1 ≤ 1151 * 2 ^ 52 := by
    rw [← hbig]
    apply roundMag_mono Nat.one_pos Nat.one_pos
    exact Nat.mul_le_mul_right _ (Nat.mul_le_mul_right _ h)
  rw [bits_natCast, inf_eq]
  omega

theorem natCast_pos {n : ℕ} (h : 0 < n) : 0 < bits (natCast n) := by
  have := natCast_mono h
  rw [natCast_one, bits_one] at this
  omega

theorem value_pos {m : ℕ} (h : 0 < m) : 0 < value 52 m := by
  have := value_le_value_iff (p := 52) (m := 1).mpr h
  rw [value_of_lt (by norm_num)] at this
  omega

theorem value_natCast_pos {n : ℕ} (h : 0 < n) : 0 < value 52 (bits (natCast n)) :=
  value_pos (natCast_pos h)

theorem div_mono_right {x x' y : Float} (hy : bits y < inf) (hpos : 0 < bits y)
    (hx' : bits x' < inf) (h : bits x ≤ bits x') : bits (x / y) ≤ bits (x' / y) := by
  rw [bits_div (h.trans_lt hx') hy hpos, bits_div hx' hy hpos]
  apply min_le_min_right
  apply roundMag_mono (value_pos hpos) (value_pos hpos)
  exact Nat.mul_le_mul_right _ (Nat.mul_le_mul_right _ (value_mono h))

/-- A quotient of counts is at most one when it is a fraction. -/
theorem natCast_div_le_one {m n : ℕ} (hn : 0 < n) (hfin : n ≤ 2 ^ 128) (h : m ≤ n) :
    bits (natCast m / natCast n) ≤ bits 1.0 := by
  have hden := natCast_lt_inf hfin
  have hpos := natCast_pos hn
  have hnum := natCast_mono h
  have hval := value_natCast_pos hn
  have hround : roundMag 52 (value 52 (bits 1.0)) 1 = bits 1.0 := roundMag_value 52 _
  rw [bits_div (by omega) hden hpos]
  refine le_trans (min_le_left _ _) ?_
  rw [← hround, value_one]
  apply roundMag_mono hval Nat.one_pos
  rw [Nat.mul_one, Nat.mul_comm]
  exact Nat.mul_le_mul_left _ (value_mono hnum)

theorem natCast_div_mono {l m n : ℕ} (hn : 0 < n) (hfin : n ≤ 2 ^ 128) (hm : m ≤ 2 ^ 128)
    (h : l ≤ m) : bits (natCast l / natCast n) ≤ bits (natCast m / natCast n) :=
  div_mono_right (natCast_lt_inf hfin) (natCast_pos hn) (natCast_lt_inf hm) (natCast_mono h)

theorem natCast_div_self {n : ℕ} (hn : 0 < n) (hfin : n ≤ 2 ^ 128) :
    natCast n / natCast n = 1.0 := by
  have hden := natCast_lt_inf hfin
  have hpos := natCast_pos hn
  have hval := value_natCast_pos hn
  apply bits_injective
  rw [bits_div hden hden hpos]
  have hround : roundMag 52 (value 52 (bits (natCast n)) * one Format.binary64)
      (value 52 (bits (natCast n))) = bits 1.0 := by
    rw [← roundMag_value 52 (bits 1.0), value_one]
    exact roundMag_congr hval Nat.one_pos (by ring)
  rw [hround, min_eq_left one_lt_inf.le]

theorem zero_div_natCast {n : ℕ} (hn : 0 < n) (hfin : n ≤ 2 ^ 128) :
    natCast 0 / natCast n = 0.0 := by
  apply bits_injective
  have h0 : bits (natCast 0) = 0 := by decide
  rw [bits_div (by rw [h0]; exact infMag_pos _) (natCast_lt_inf hfin) (natCast_pos hn), h0,
    value_of_lt (Nat.two_pow_pos _), Nat.zero_mul, roundMag_zero, Nat.zero_min, bits_zero]

/-- Counts within the precision are stored exactly. -/
theorem value_natCast {n : ℕ} (h : n ≤ 2 ^ 53) :
    value 52 (bits (natCast n)) = n * one Format.binary64 := by
  have hfinite := @natCast_lt_inf n (by omega)
  rw [bits_natCast] at hfinite ⊢
  rw [min_eq_left (by omega), one_binary64, value_roundMag_shift h]

/-- Counting on by one is exact within the precision. -/
theorem natCast_add_one {n : ℕ} (h : n < 2 ^ 53) : natCast n + 1.0 = natCast (n + 1) := by
  apply bits_injective
  rw [bits_add (natCast_lt_inf (by omega)) one_lt_inf, value_natCast h.le, value_one, bits_natCast,
    Nat.add_mul, Nat.one_mul]

/-- Adding two multiples of a power of two is exact within the precision. -/
theorem value_add_shift {x y : Float} {m n e : ℕ} (hx : bits x < inf) (hy : bits y < inf)
    (hm : value 52 (bits x) = m * 2 ^ e) (hn : value 52 (bits y) = n * 2 ^ e)
    (h : m + n ≤ 2 ^ 53) (he : e ≤ 1074) :
    bits (x + y) < inf ∧ value 52 (bits (x + y)) = (m + n) * 2 ^ e := by
  have hround := @value_roundMag_shift 52 (m + n) e h
  have hfinite : roundMag 52 ((m + n) * 2 ^ e) 1 < inf := by
    refine lt_of_le_of_lt ((value_le_value_iff (p := 52)).mp ?_)
      (@natCast_lt_inf (2 ^ 53) (by norm_num))
    have hunit : 2 ^ e ≤ one Format.binary64 := by
      obtain ⟨d, hd⟩ := Nat.exists_eq_add_of_le he
      rw [one_binary64, hd, Nat.pow_add]
      exact Nat.le_mul_of_pos_right _ (Nat.two_pow_pos d)
    rw [hround, value_natCast le_rfl]
    exact Nat.mul_le_mul h hunit
  rw [bits_add hx hy, hm, hn, ← Nat.add_mul, min_eq_left hfinite.le]
  exact ⟨hfinite, hround⟩

/-- The reciprocal of a power of two is exact. -/
theorem value_one_div_shift {j : ℕ} (hj : j ≤ 53) :
    bits (1.0 / natCast (2 ^ j)) < inf ∧
      value 52 (bits (1.0 / natCast (2 ^ j))) = 2 ^ (1074 - j) := by
  have hpow : 2 ^ j ≤ 2 ^ 53 := Nat.pow_le_pow_right (by decide) hj
  have hpos := Nat.two_pow_pos j
  have hround := @value_roundMag_shift 52 1 (1074 - j) (by norm_num)
  rw [Nat.one_mul] at hround
  have hle : bits (1.0 / natCast (2 ^ j)) ≤ bits 1.0 := by
    rw [← natCast_one]
    exact natCast_div_le_one hpos (by omega) hpos
  have hquotient : roundMag 52 (value 52 (bits 1.0) * one Format.binary64)
      (value 52 (bits (natCast (2 ^ j)))) = roundMag 52 (2 ^ (1074 - j)) 1 := by
    rw [value_one, value_natCast hpow, one_binary64]
    apply roundMag_congr (Nat.mul_pos hpos (Nat.two_pow_pos _)) Nat.one_pos
    rw [Nat.mul_one, ← Nat.mul_assoc,
      two_pow_mul (a := 1074 - j) (b := j) (c := 1074) (by omega)]
  have hfinite := hle.trans_lt one_lt_inf
  rw [bits_div one_lt_inf (natCast_lt_inf (by omega)) (natCast_pos hpos), hquotient] at hfinite ⊢
  rw [min_eq_left (by omega), hround]
  exact ⟨by omega, rfl⟩

theorem eq_of_value_eq {x y : Float} (h : value 52 (bits x) = value 52 (bits y)) : x = y :=
  bits_injective (le_antisymm (value_le_value_iff.mp h.le) (value_le_value_iff.mp h.ge))

/-- A proper fraction of such counts is not rounded up to one. -/
theorem natCast_div_lt_one {m n : ℕ} (h : m < n) (hn : n ≤ 2 ^ 53) :
    bits (natCast m / natCast n) < bits 1.0 := by
  have hpos : 0 < n := Nat.zero_lt_of_lt h
  have hm : bits (natCast m) < inf := natCast_lt_inf (by omega)
  rw [bits_div hm (natCast_lt_inf (by omega)) (natCast_pos hpos), value_natCast (h.le.trans hn),
    value_natCast hn]
  refine (min_le_left _ _).trans_lt ?_
  -- the largest double below one
  have hpred : value 52 (bits 1.0 - 1) = (2 ^ 53 - 1) * 2 ^ 1021 := by
    have hsplit : bits 1.0 - 1 = 1021 * 2 ^ 52 + (2 ^ 53 - 1) := by
      rw [bits_one]
      norm_num
    rw [hsplit, value_of_fields (by norm_num) (Or.inr (by norm_num))]
  have hle : roundMag 52 (m * one Format.binary64 * one Format.binary64)
      (n * one Format.binary64) ≤ roundMag 52 (value 52 (bits 1.0 - 1)) 1 := by
    apply roundMag_mono (Nat.mul_pos hpos (one_pos _)) Nat.one_pos
    rw [hpred, one_binary64]
    rw [← two_pow_mul (a := 53) (b := 1021) (c := 1074) (by norm_num)]
    generalize 2 ^ 1021 = unit
    have hfrac : m * 2 ^ 53 ≤ (2 ^ 53 - 1) * n := by omega
    calc m * (2 ^ 53 * unit) * (2 ^ 53 * unit) * 1
        = m * 2 ^ 53 * (unit * (2 ^ 53 * unit)) := by ring
      _ ≤ (2 ^ 53 - 1) * n * (unit * (2 ^ 53 * unit)) := Nat.mul_le_mul_right _ hfrac
      _ = (2 ^ 53 - 1) * unit * (n * (2 ^ 53 * unit)) := by ring
  rw [roundMag_value] at hle
  have hone : 0 < bits 1.0 := by
    rw [bits_one]
    norm_num
  omega

/-! ## Differences -/

theorem sub_self {x : Float} (hx : bits x < inf) : x - x = 0.0 := by
  apply bits_injective
  rw [bits_sub hx hx, packedDiff, if_pos (le_refl _), Nat.sub_self, roundMag_zero, Nat.zero_min,
    bits_zero]

/-- Distinct numbers have a difference that is not rounded to zero. -/
theorem sub_neg_of_lt {x y : Float} (hx : bits x < inf) (hy : bits y < inf)
    (h : bits x < bits y) : x - y < 0.0 := by
  have hval : value 52 (bits x) < value 52 (bits y) :=
    lt_of_not_ge fun hle ↦ absurd (value_le_value_iff.mp hle) (not_le.mpr h)
  set r := min (roundMag 52 (value 52 (bits y) - value 52 (bits x)) 1) inf with hr
  have hrpos : 0 < r := by
    have hone : roundMag 52 1 1 = 1 := by
      have hval1 : value 52 1 = 1 := value_of_lt (by norm_num)
      have hround := roundMag_value 52 1
      rwa [hval1] at hround
    have hmono : roundMag 52 1 1 ≤ roundMag 52 (value 52 (bits y) - value 52 (bits x)) 1 :=
      roundMag_mono Nat.one_pos Nat.one_pos (by omega)
    have hinf := inf_eq
    omega
  have hrle : r ≤ inf := min_le_right _ _
  have hbits : bits (x - y) = 2 ^ 63 + r := by
    rw [bits_sub hx hy, packedDiff, if_neg (not_le.mpr hval)]
    rfl
  rw [inf_eq] at hrle
  have hmag : magnitude (x - y) = r := by
    rw [magnitude, hbits]
    omega
  have hrank : rank (x - y) = -(r : ℤ) := by
    rw [rank, hmag, sign, if_neg (by omega)]
    rfl
  have hnan : ¬Nan (x - y) := by
    rw [Nan, hmag, inf_eq]
    omega
  have hzero : bits 0.0 ≤ inf := zero_lt_inf.le
  rw [lt_iff, hrank, rank_of_le hzero, bits_zero]
  refine ⟨hnan, not_nan_of_le hzero, ?_⟩
  push_cast
  omega

/-- Two numbers separate in both directions only when they are equal. -/
theorem eq_of_le_sub_of_le_sub {m x y : Float} (hx : bits x < inf) (hy : bits y < inf)
    (hm : 0.0 ≤ m) (hxy : m ≤ x - y) (hyx : m ≤ y - x) : x = y := by
  have hnonneg : ∀ {d : Float}, m ≤ d → ¬d < 0.0 := by
    intro d hd hlt
    have h0 := (le_iff.mp (float_le_trans hm hd)).2.2
    have h1 := (lt_iff.mp hlt).2.2
    omega
  rcases lt_trichotomy (bits x) (bits y) with h | h | h
  · exact absurd (sub_neg_of_lt hx hy h) (hnonneg hxy)
  · exact bits_injective h
  · exact absurd (sub_neg_of_lt hy hx h) (hnonneg hyx)

end Binary64
