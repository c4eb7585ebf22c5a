import Mathlib

/-!
# Rounding a non-negative rational to a binary format

A finite magnitude of a binary format with `p` stored mantissa bits is a
natural number: the exponent field above the mantissa field.  `value` reads
such a number in units of the smallest subnormal, and `roundMag` rounds a
quotient in these units to the nearest magnitude, ties to even.  Rounding is
monotone and fixes every representable value.
-/

namespace Rounding

/-! ## Nearest integer, ties to even -/

/-- The integer nearest to `num / den`, ties to even. -/
def rne (num den : ℕ) : ℕ :=
  let q := num / den
  let r := num % den
  if 2 * r < den then q else if 2 * r = den then q + q % 2 else q + 1

theorem rne_bounds (num den : ℕ) :
    num / den ≤ rne num den ∧ rne num den ≤ num / den + 1 := by
  unfold rne
  dsimp only
  have := Nat.mod_lt (num / den) (show 2 > 0 by omega)
  split
  · omega
  · split <;> omega

theorem rne_mul_right (num den c : ℕ) (hc : 0 < c) :
    rne (num * c) (den * c) = rne num den := by
  have hlt : 2 * (num % den * c) < den * c ↔ 2 * (num % den) < den := by
    rw [← Nat.mul_assoc]
    exact Nat.mul_lt_mul_right hc
  have heq : 2 * (num % den * c) = den * c ↔ 2 * (num % den) = den := by
    rw [← Nat.mul_assoc]
    exact Nat.mul_left_inj hc.ne'
  simp only [rne, Nat.mul_div_mul_right _ _ hc, Nat.mul_mod_mul_right, hlt, heq]

@[simp] theorem rne_one (n : ℕ) : rne n 1 = n := by
  simp [rne, Nat.mod_one]

theorem rne_mul_self (n den : ℕ) (hden : 0 < den) : rne (n * den) den = n := by
  have h := rne_mul_right n 1 den hden
  rwa [Nat.one_mul, rne_one] at h

private theorem rne_mono_same {num num' den : ℕ} (hden : 0 < den) (h : num ≤ num') :
    rne num den ≤ rne num' den := by
  have hq : num / den ≤ num' / den := Nat.div_le_div_right h
  rcases Nat.lt_or_ge (num / den) (num' / den) with hlt | hge
  · have h₁ := (rne_bounds num den).2
    have h₂ := (rne_bounds num' den).1
    omega
  · -- equal quotients: the remainders decide
    have heq : num / den = num' / den := by omega
    have hr : num % den ≤ num' % den := by
      have h₁ := Nat.div_add_mod num den
      have h₂ := Nat.div_add_mod num' den
      rw [heq] at h₁
      omega
    have hr' := Nat.mod_lt num' hden
    unfold rne
    dsimp only
    rw [heq]
    split <;> split <;> (try split) <;> (try split) <;> omega

theorem rne_mono {num den num' den' : ℕ} (hden : 0 < den) (hden' : 0 < den')
    (h : num * den' ≤ num' * den) : rne num den ≤ rne num' den' := by
  rw [← rne_mul_right num den den' hden', ← rne_mul_right num' den' den hden,
    Nat.mul_comm den' den]
  exact rne_mono_same (Nat.mul_pos hden hden') h

/-! ## Magnitudes -/

/-- The value of a magnitude, in units of the smallest subnormal. -/
def value (p n : ℕ) : ℕ :=
  if n / 2 ^ p = 0 then n % 2 ^ p else (2 ^ p + n % 2 ^ p) * 2 ^ (n / 2 ^ p - 1)

/-- How many binary places the mantissa is coarser than the smallest subnormal. -/
def scale (p num den : ℕ) : ℕ := (num / den).log2 - p

/-- The magnitude nearest to `num / den`, ties to even, without overflow. -/
def roundMag (p num den : ℕ) : ℕ :=
  scale p num den * 2 ^ p + rne num (den * 2 ^ scale p num den)

theorem scale_mul_right (p num den c : ℕ) (hc : 0 < c) :
    scale p (num * c) (den * c) = scale p num den := by
  rw [scale, Nat.mul_div_mul_right _ _ hc, scale]

theorem roundMag_mul_right (p num den c : ℕ) (hc : 0 < c) :
    roundMag p (num * c) (den * c) = roundMag p num den := by
  rw [roundMag, scale_mul_right p num den c hc, Nat.mul_right_comm, rne_mul_right _ _ _ hc,
    roundMag]

/-- The mantissa of a rounded quotient fits, carry included. -/
theorem rne_scale_le (p num den : ℕ) :
    rne num (den * 2 ^ scale p num den) ≤ 2 ^ (p + 1) := by
  have hq : num / den < 2 ^ ((num / den).log2 + 1) := Nat.lt_log2_self
  have hle : (num / den).log2 + 1 ≤ (p + 1) + scale p num den := by
    unfold scale
    omega
  have hlt : num / (den * 2 ^ scale p num den) < 2 ^ (p + 1) := by
    rw [← Nat.div_div_eq_div_mul, Nat.div_lt_iff_lt_mul (Nat.two_pow_pos _), ← Nat.pow_add]
    exact lt_of_lt_of_le hq (Nat.pow_le_pow_right (by omega) hle)
  have := (rne_bounds num (den * 2 ^ scale p num den)).2
  omega

/-- Above the subnormal range the mantissa is full. -/
theorem le_rne_scale {p num den : ℕ} (hscale : 0 < scale p num den) :
    2 ^ p ≤ rne num (den * 2 ^ scale p num den) := by
  refine le_trans ?_ (rne_bounds num (den * 2 ^ scale p num den)).1
  have hne : num / den ≠ 0 := by
    intro h
    simp [scale, h] at hscale
  rw [← Nat.div_div_eq_div_mul, Nat.le_div_iff_mul_le (Nat.two_pow_pos _), ← Nat.pow_add]
  have hlog : p + scale p num den = (num / den).log2 := by
    unfold scale at hscale ⊢
    omega
  rw [hlog]
  exact Nat.log2_self_le hne

theorem roundMag_mono {p num den num' den' : ℕ} (hden : 0 < den) (hden' : 0 < den')
    (h : num * den' ≤ num' * den) : roundMag p num den ≤ roundMag p num' den' := by
  have hq : num / den ≤ num' / den' := by
    rw [Nat.le_div_iff_mul_le hden']
    apply Nat.le_of_mul_le_mul_right _ hden
    calc num / den * den' * den = num / den * den * den' := Nat.mul_right_comm _ _ _
      _ ≤ num * den' := Nat.mul_le_mul_right _ (Nat.div_mul_le_self num den)
      _ ≤ num' * den := h
  have hk : scale p num den ≤ scale p num' den' := by
    unfold scale
    have : (num / den).log2 ≤ (num' / den').log2 := by
      rcases Nat.eq_zero_or_pos (num / den) with h0 | hpos
      · simp [h0]
      · exact (Nat.le_log2 (by omega)).mpr (le_trans (Nat.log2_self_le (by omega)) hq)
    omega
  rcases Nat.lt_or_ge (scale p num den) (scale p num' den') with hlt | hge
  · -- different scales: the carry of the smaller one stays below the larger one
    have h₁ := rne_scale_le p num den
    have h₂ := @le_rne_scale p num' den' (by omega)
    have h₃ : (scale p num den + 1) * 2 ^ p ≤ scale p num' den' * 2 ^ p :=
      Nat.mul_le_mul_right _ hlt
    rw [Nat.pow_succ] at h₁
    rw [Nat.add_mul] at h₃
    unfold roundMag
    omega
  · have heq : scale p num den = scale p num' den' := by omega
    unfold roundMag
    rw [heq]
    apply Nat.add_le_add_left
    apply rne_mono (Nat.mul_pos hden (Nat.two_pow_pos _)) (Nat.mul_pos hden' (Nat.two_pow_pos _))
    calc num * (den' * 2 ^ scale p num' den') = num * den' * 2 ^ scale p num' den' := by ring
      _ ≤ num' * den * 2 ^ scale p num' den' := Nat.mul_le_mul_right _ h
      _ = num' * (den * 2 ^ scale p num' den') := by ring

theorem roundMag_congr {p num den num' den' : ℕ} (hden : 0 < den) (hden' : 0 < den')
    (h : num * den' = num' * den) : roundMag p num den = roundMag p num' den' :=
  le_antisymm (roundMag_mono hden hden' h.le) (roundMag_mono hden' hden h.ge)

/-! ## Representable values -/

theorem value_of_lt {p n : ℕ} (h : n < 2 ^ p) : value p n = n := by
  simp [value, Nat.div_eq_of_lt h, Nat.mod_eq_of_lt h]

@[simp] theorem value_zero (p : ℕ) : value p 0 = 0 := value_of_lt (Nat.two_pow_pos p)

theorem value_eq_of_le {p n : ℕ} (h : 2 ^ p ≤ n) :
    value p n = (2 ^ p + n % 2 ^ p) * 2 ^ (n / 2 ^ p - 1) := by
  have : 0 < n / 2 ^ p := Nat.div_pos h (Nat.two_pow_pos p)
  rw [value, if_neg (by omega)]

/-- The value of a magnitude given by its exponent and mantissa fields. -/
theorem value_of_fields {p m k : ℕ} (hlt : m < 2 ^ (p + 1)) (hfull : k = 0 ∨ 2 ^ p ≤ m) :
    value p (k * 2 ^ p + m) = m * 2 ^ k := by
  have hpow : 0 < 2 ^ p := Nat.two_pow_pos p
  rcases Nat.lt_or_ge m (2 ^ p) with hsub | hnormal
  · have hk : k = 0 := by omega
    rw [hk, Nat.zero_mul, Nat.zero_add, value_of_lt hsub, Nat.pow_zero, Nat.mul_one]
  · obtain ⟨r, rfl⟩ := Nat.exists_eq_add_of_le hnormal
    have hr : r < 2 ^ p := by
      rw [Nat.pow_succ] at hlt
      omega
    have hsplit : k * 2 ^ p + (2 ^ p + r) = r + 2 ^ p * (k + 1) := by ring
    rw [hsplit, value_eq_of_le (by rw [Nat.mul_succ]; omega), Nat.add_mul_mod_self_left,
      Nat.add_mul_div_left _ _ hpow, Nat.mod_eq_of_lt hr, Nat.div_eq_of_lt hr, Nat.zero_add,
      Nat.add_sub_cancel]

private theorem log2_full {p m k : ℕ} (hlo : 2 ^ p ≤ m) (hhi : m < 2 ^ (p + 1)) :
    (m * 2 ^ k).log2 = p + k := by
  have hpos : m * 2 ^ k ≠ 0 := by
    have hm : 0 < m := lt_of_lt_of_le (Nat.two_pow_pos p) hlo
    exact (Nat.mul_pos hm (Nat.two_pow_pos k)).ne'
  apply le_antisymm
  · have : (m * 2 ^ k).log2 < p + k + 1 := by
      rw [Nat.log2_lt hpos]
      calc m * 2 ^ k < 2 ^ (p + 1) * 2 ^ k := Nat.mul_lt_mul_of_pos_right hhi (Nat.two_pow_pos k)
        _ = 2 ^ (p + k + 1) := by rw [← Nat.pow_add]; congr 1; omega
    omega
  · rw [Nat.le_log2 hpos, Nat.pow_add]
    exact Nat.mul_le_mul_right _ hlo

theorem roundMag_value (p n : ℕ) : roundMag p (value p n) 1 = n := by
  rcases Nat.lt_or_ge n (2 ^ p) with hlt | hge
  · have hlog : n.log2 ≤ p := by
      rcases Nat.eq_zero_or_pos n with rfl | hpos
      · simp
      · exact le_of_lt ((Nat.log2_lt (by omega)).mpr hlt)
    have hs : scale p n 1 = 0 := by
      rw [scale, Nat.div_one]
      omega
    rw [value_of_lt hlt, roundMag, hs]
    simp
  · have hmod : n % 2 ^ p < 2 ^ p := Nat.mod_lt n (Nat.two_pow_pos p)
    have hdiv : 0 < n / 2 ^ p := Nat.div_pos hge (Nat.two_pow_pos p)
    have hs : scale p (value p n) 1 = n / 2 ^ p - 1 := by
      rw [scale, Nat.div_one, value_eq_of_le hge,
        log2_full (Nat.le_add_right _ _) (by rw [Nat.pow_succ]; omega)]
      omega
    rw [roundMag, hs, Nat.one_mul, value_eq_of_le hge, rne_mul_self _ _ (Nat.two_pow_pos _)]
    have hsplit := Nat.div_add_mod n (2 ^ p)
    have hpred : (n / 2 ^ p - 1) * 2 ^ p + 2 ^ p = 2 ^ p * (n / 2 ^ p) := by
      rw [Nat.mul_comm (2 ^ p), ← Nat.succ_mul]
      congr 1
      omega
    omega

@[simp] theorem roundMag_zero (p den : ℕ) : roundMag p 0 den = 0 := by
  have hrne : ∀ n, rne 0 n = 0 := by
    intro n
    rcases Nat.eq_zero_or_pos n with rfl | hn
    · rfl
    · simp [rne, hn]
  simp [roundMag, scale, hrne]

theorem value_le_value_iff {p m n : ℕ} : value p m ≤ value p n ↔ m ≤ n := by
  have hle : ∀ {m n : ℕ}, value p m ≤ value p n → m ≤ n := by
    intro m n h
    rw [← roundMag_value p m, ← roundMag_value p n]
    exact roundMag_mono Nat.one_pos Nat.one_pos (by simpa using h)
  refine ⟨hle, fun h ↦ ?_⟩
  by_contra hlt
  have heq : n = m := le_antisymm (hle (by omega)) h
  exact hlt (by rw [heq])

/-- A number with no more bits than the mantissa, scaled by a power of two, is
representable. -/
theorem value_roundMag_shift {p n e : ℕ} (h : n ≤ 2 ^ (p + 1)) :
    value p (roundMag p (n * 2 ^ e) 1) = n * 2 ^ e := by
  suffices hfields : ∃ b, value p b = n * 2 ^ e by
    obtain ⟨b, hb⟩ := hfields
    rw [← hb, roundMag_value]
  rcases h.lt_or_eq with hlt | rfl
  · rcases Nat.lt_or_ge (n * 2 ^ e) (2 ^ (p + 1)) with hsmall | hlarge
    · exact ⟨0 * 2 ^ p + n * 2 ^ e, by rw [value_of_fields hsmall (Or.inl rfl), Nat.pow_zero,
        Nat.mul_one]⟩
    · -- shift the leading bit to the top of the mantissa
      have hpos : n ≠ 0 := by
        rintro rfl
        rw [Nat.zero_mul] at hlarge
        exact absurd hlarge (not_le.mpr (Nat.two_pow_pos _))
      have hlog : n.log2 < p + 1 := (Nat.log2_lt hpos).mpr hlt
      obtain ⟨k, hk⟩ : ∃ k, n.log2 + k = p := ⟨p - n.log2, by omega⟩
      have hlow : 2 ^ p ≤ n * 2 ^ k := by
        rw [← hk, Nat.pow_add]
        exact Nat.mul_le_mul_right _ (Nat.log2_self_le hpos)
      have hhigh : n * 2 ^ k < 2 ^ (p + 1) := by
        have hmul := Nat.mul_lt_mul_of_pos_right (@Nat.lt_log2_self n) (Nat.two_pow_pos k)
        rwa [← Nat.pow_add, show n.log2 + 1 + k = p + 1 by omega] at hmul
      have hke : k ≤ e := by
        by_contra hgt
        have hle : n * 2 ^ e ≤ n * 2 ^ k :=
          Nat.mul_le_mul_left n (Nat.pow_le_pow_right (by decide) (by omega))
        omega
      refine ⟨(e - k) * 2 ^ p + n * 2 ^ k, ?_⟩
      rw [value_of_fields hhigh (Or.inr hlow), Nat.mul_assoc, ← Nat.pow_add, Nat.add_sub_of_le hke]
  · refine ⟨(e + 1) * 2 ^ p + 2 ^ p, ?_⟩
    rw [value_of_fields (Nat.pow_lt_pow_right (by decide) (Nat.lt_succ_self p)) (Or.inr le_rfl),
      ← Nat.pow_add, ← Nat.pow_add, Nat.add_right_comm, Nat.add_assoc]

end Rounding
