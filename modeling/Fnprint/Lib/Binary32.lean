import Fnprint.Lib.FloatModel

/-!
# Single precision counts

Quotients of counts in Lean's `Float32`.  On numbers with a clear sign bit the
IEEE order is that of the bit patterns, and division is the rounded exact
quotient, so a larger count never gives a smaller one.
-/

namespace Binary32

open Rounding FloatModel Float.Model Float.Model.UnpackedFloat

def bits (x : Float32) : ℕ := x.toBits.toNat

theorem bits_injective : Function.Injective bits := by
  rintro ⟨⟨u, hu⟩⟩ ⟨⟨v, hv⟩⟩ h
  have huv : u = v := UInt32.toNat_inj.mp h
  subst huv
  rfl

/-- The bit pattern of positive infinity. -/
def inf : ℕ := infMag Format.binary32

theorem inf_eq : inf = 0x7f800000 := by
  norm_num [inf, infMag]

/-- Up to infinity the sign bit is clear and the magnitude is the pattern. -/
theorem unpack_view {x : Float32} (hx : bits x ≤ inf) :
    View Format.binary32 x.toModel.unpack .positive (bits x) := by
  have hlt : bits x < 2 ^ 31 := by
    rw [inf_eq] at hx
    omega
  have hview := FloatModel.unpack_view Format.binary32 x.toModel.toBits.toBitVec
  have hsign : Sign.ofBitVec (@unpackSign Format.binary32 x.toModel.toBits.toBitVec) =
      .positive := by
    unfold Sign.ofBitVec
    refine if_pos (BitVec.eq_of_toNat_eq ?_)
    rw [unpackSign, BitVec.toNat_cast, BitVec.extractLsb_toNat, Nat.shiftRight_eq_div_pow]
    change bits x / 2 ^ 31 % 2 ^ 1 = 0
    rw [Nat.div_eq_of_lt hlt]
  have hmag : FloatModel.magnitude Format.binary32 x.toModel.toBits.toBitVec = bits x :=
    Nat.mod_eq_of_lt hlt
  rw [hsign, hmag] at hview
  exact hview

theorem le_iff_bits {x y : Float32} (hx : bits x ≤ inf) (hy : bits y ≤ inf) :
    x ≤ y ↔ bits x ≤ bits y := by
  have hdef : x ≤ y ↔ (x.toModel.unpack.compare y.toModel.unpack).any (·.isLE) = true := by
    change (decide (x.toModel.le y.toModel = true) = true) ↔ _
    rw [decide_eq_true_iff]
    rfl
  rw [hdef, compare_view (unpack_view hx) (unpack_view hy) hx hy]
  simp [signed, Sign.apply, Int.isLE_compare]

theorem lt_iff_bits {x y : Float32} (hx : bits x ≤ inf) (hy : bits y ≤ inf) :
    x < y ↔ bits x < bits y := by
  have hdef : x < y ↔ (x.toModel.unpack.compare y.toModel.unpack == some .lt) = true := by
    change (decide (x.toModel.lt y.toModel = true) = true) ↔ _
    rw [decide_eq_true_iff]
    rfl
  rw [hdef, compare_view (unpack_view hx) (unpack_view hy) hx hy]
  simp [signed, Sign.apply, Int.compare_eq_lt]

/-! ## Counts -/

/-- A count as a single, rounded to nearest. -/
def natCast (n : ℕ) : Float32 := .ofModel (.ofNat n)

theorem bits_natCast (n : ℕ) :
    bits (natCast n) = min (roundMag 23 (n * one Format.binary32) 1) inf :=
  toNat_pack_ofNat (by decide) n

theorem bits_div {x y : Float32} (hx : bits x < inf) (hy : bits y < inf) (hy0 : 0 < bits y) :
    bits (x / y) = min (roundMag 23 (value 23 (bits x) * one Format.binary32)
      (value 23 (bits y))) inf :=
  toNat_pack_div (by decide) ⟨unpack_view hx.le, hx⟩ ⟨unpack_view hy.le, hy⟩ hy0

theorem natCast_mono {m n : ℕ} (h : m ≤ n) : bits (natCast m) ≤ bits (natCast n) := by
  rw [bits_natCast, bits_natCast]
  apply min_le_min_right
  apply roundMag_mono Nat.one_pos Nat.one_pos
  exact Nat.mul_le_mul_right _ (Nat.mul_le_mul_right _ h)

theorem natCast_lt_inf {n : ℕ} (h : n ≤ 2 ^ 64) : bits (natCast n) < inf :=
  lt_of_le_of_lt (natCast_mono h) (by rw [inf_eq]; decide)

theorem natCast_pos {n : ℕ} (h : 0 < n) : 0 < bits (natCast n) :=
  lt_of_lt_of_le (by decide) (natCast_mono h)

theorem bits_one : bits 1.0 = 0x3f800000 := by decide

theorem bits_zero : bits 0.0 = 0 := by decide

theorem value_natCast_pos {n : ℕ} (hn : 0 < n) : 0 < value 23 (bits (natCast n)) := by
  have hle := value_le_value_iff (p := 23) (m := 1).mpr (natCast_pos hn)
  rw [value_of_lt (by norm_num)] at hle
  omega

theorem natCast_div_mono {l m n : ℕ} (hn : 0 < n) (hfin : n ≤ 2 ^ 64) (hm : m ≤ 2 ^ 64)
    (h : l ≤ m) : bits (natCast l / natCast n) ≤ bits (natCast m / natCast n) := by
  have hden := natCast_lt_inf hfin
  have hpos := natCast_pos hn
  have hnum := natCast_mono h
  have hval := value_natCast_pos hn
  rw [bits_div (hnum.trans_lt (natCast_lt_inf hm)) hden hpos,
    bits_div (natCast_lt_inf hm) hden hpos]
  apply min_le_min_right
  apply roundMag_mono hval hval
  exact Nat.mul_le_mul_right _ (Nat.mul_le_mul_right _ (value_le_value_iff.mpr hnum))

theorem natCast_div_anti {l m n : ℕ} (hm : 0 < m) (hfin : n ≤ 2 ^ 64) (hl : l ≤ 2 ^ 64)
    (h : m ≤ n) : bits (natCast l / natCast n) ≤ bits (natCast l / natCast m) := by
  have hn := hm.trans_le h
  have hnum := natCast_lt_inf hl
  rw [bits_div hnum (natCast_lt_inf hfin) (natCast_pos hn),
    bits_div hnum (natCast_lt_inf (h.trans hfin)) (natCast_pos hm)]
  apply min_le_min_right
  apply roundMag_mono (value_natCast_pos hn) (value_natCast_pos hm)
  exact Nat.mul_le_mul_left _ (value_le_value_iff.mpr (natCast_mono h))

theorem natCast_div_le_inf {m n : ℕ} (hn : 0 < n) (hfin : n ≤ 2 ^ 64) (hm : m ≤ 2 ^ 64) :
    bits (natCast m / natCast n) ≤ inf := by
  rw [bits_div (natCast_lt_inf hm) (natCast_lt_inf hfin) (natCast_pos hn)]
  exact min_le_right _ _

/-! ## Clamping -/

/-- A number moved into an interval; a NaN stays. -/
def clamp (x lo hi : Float32) : Float32 := if x < lo then lo else if hi < x then hi else x

theorem clamp_unit_le {x : Float32} (hx : bits x ≤ inf) :
    bits (clamp x 0.0 1.0) ≤ bits x := by
  have hzero : bits 0.0 ≤ inf := by
    rw [bits_zero]
    exact Nat.zero_le _
  have hone : bits 1.0 ≤ inf := by
    rw [bits_one, inf_eq]
    decide
  unfold clamp
  split
  · rw [bits_zero]
    exact Nat.zero_le _
  · split
    · rename_i hlt
      exact ((lt_iff_bits hone hx).mp hlt).le
    · exact le_rfl

theorem clamp_div_le {l m n : ℕ} (hn : 0 < n) (hfin : n ≤ 2 ^ 64) (hm : m ≤ 2 ^ 64) (h : l ≤ m) :
    clamp (natCast l / natCast n) 0.0 1.0 ≤ natCast m / natCast n := by
  have hl := natCast_div_le_inf hn hfin (h.trans hm)
  have hclamp := clamp_unit_le hl
  exact (le_iff_bits (hclamp.trans hl) (natCast_div_le_inf hn hfin hm)).mpr
    (hclamp.trans (natCast_div_mono hn hfin hm h))

/-! ## Clamping any number -/

theorem lt_iff_signed {x y : Float32} {s t : Sign} {a b : ℕ}
    (hx : View Format.binary32 x.toModel.unpack s a)
    (hy : View Format.binary32 y.toModel.unpack t b) (ha : a ≤ inf) (hb : b ≤ inf) :
    x < y ↔ signed s a < signed t b := by
  have hdef : x < y ↔ (x.toModel.unpack.compare y.toModel.unpack == some .lt) = true := by
    change (decide (x.toModel.lt y.toModel = true) = true) ↔ _
    rw [decide_eq_true_iff]
    rfl
  rw [hdef, compare_view hx hy ha hb]
  simp [Int.compare_eq_lt]

theorem le_iff_signed {x y : Float32} {s t : Sign} {a b : ℕ}
    (hx : View Format.binary32 x.toModel.unpack s a)
    (hy : View Format.binary32 y.toModel.unpack t b) (ha : a ≤ inf) (hb : b ≤ inf) :
    x ≤ y ↔ signed s a ≤ signed t b := by
  have hdef : x ≤ y ↔ (x.toModel.unpack.compare y.toModel.unpack).any (·.isLE) = true := by
    change (decide (x.toModel.le y.toModel = true) = true) ↔ _
    rw [decide_eq_true_iff]
    rfl
  rw [hdef, compare_view hx hy ha hb]
  simp [Int.isLE_compare]

theorem exists_view_of_isFinite {x : Float32} (h : x.isFinite = true) :
    ∃ s a, View Format.binary32 x.toModel.unpack s a ∧ a ≤ inf := by
  have hview := FloatModel.unpack_view Format.binary32 x.toModel.toBits.toBitVec
  refine ⟨_, _, hview, ?_⟩
  change (unpack Format.binary32 x.toModel.toBits.toBitVec).isFinite = true at h
  generalize unpack Format.binary32 x.toModel.toBits.toBitVec = u at hview h
  generalize FloatModel.magnitude Format.binary32 x.toModel.toBits.toBitVec = a at hview ⊢
  cases hview with
  | zero => exact Nat.zero_le _
  | finite s m k hm hlt hfull hfin => exact hfin.le
  | infinity => simp [UnpackedFloat.isFinite] at h
  | notANumber => simp [UnpackedFloat.isFinite] at h

/-- A finite number of either sign ends up in the unit interval. -/
theorem clamp_unit_mem {x : Float32} (h : x.isFinite = true) :
    0.0 ≤ clamp x 0.0 1.0 ∧ clamp x 0.0 1.0 ≤ 1.0 := by
  have hzero : bits 0.0 ≤ inf := by
    rw [bits_zero]
    exact Nat.zero_le _
  have hone : bits 1.0 ≤ inf := by
    rw [bits_one, inf_eq]
    decide
  have hunit : (0.0 : Float32) ≤ 1.0 := (le_iff_bits hzero hone).mpr (by decide)
  obtain ⟨s, a, hx, ha⟩ := exists_view_of_isFinite h
  unfold clamp
  split
  · exact ⟨(le_iff_bits hzero hzero).mpr le_rfl, hunit⟩
  · rename_i hlow
    split
    · exact ⟨hunit, (le_iff_bits hone hone).mpr le_rfl⟩
    · rename_i hhigh
      rw [lt_iff_signed hx (unpack_view hzero) ha hzero, not_lt] at hlow
      rw [lt_iff_signed (unpack_view hone) hx hone ha, not_lt] at hhigh
      exact ⟨(le_iff_signed (unpack_view hzero) hx hzero ha).mpr hlow,
        (le_iff_signed hx (unpack_view hone) ha hone).mpr hhigh⟩

end Binary32
