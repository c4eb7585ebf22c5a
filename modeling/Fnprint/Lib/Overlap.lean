import Fnprint.Lib.Binary64

/-!
# The dice overlap

Twice the common elements over the elements of both sides, as a double.  The
overlap of two sides never exceeds that of a side with itself.
-/

namespace Overlap

open Binary64

/-! ## Counting -/

section Counting

variable {α : Type*} [DecidableEq α] (u : α → Bool)

/-- The elements of one list that count, and those also found in the other. -/
def common (l l' : List α) : ℕ := l.countP fun x ↦ u x && decide (x ∈ l')

theorem common_le_left (l l' : List α) : common u l l' ≤ l.countP u :=
  List.countP_mono_left fun _ _ hx ↦ (Bool.and_eq_true_iff.mp hx).1

theorem common_le_right {l : List α} (hl : l.Nodup) (l' : List α) :
    common u l l' ≤ l'.countP u := by
  have hsub : (l.filter fun x ↦ u x && decide (x ∈ l')) ⊆ l'.filter u := by
    intro x hx
    obtain ⟨-, hx⟩ := List.mem_filter.mp hx
    obtain ⟨hu, hmem⟩ := Bool.and_eq_true_iff.mp hx
    exact List.mem_filter.mpr ⟨of_decide_eq_true hmem, hu⟩
  rw [common, List.countP_eq_length_filter, List.countP_eq_length_filter]
  exact ((hl.filter _).subperm hsub).length_le

theorem common_self (l : List α) : common u l l = l.countP u :=
  List.countP_congr fun x hx ↦ by simp [hx]

end Counting

section Keys

variable {α σ : Type*}

theorem countP_or_of_disjoint {u v : α → Bool} (h : ∀ x, u x = true → v x = false)
    (l : List α) : (l.countP fun x ↦ u x || v x) = l.countP u + l.countP v := by
  induction l with
  | nil => rfl
  | cons x l ih =>
      rw [List.countP_cons, List.countP_cons, List.countP_cons, ih]
      cases hu : u x with
      | false => rw [Bool.false_or, if_neg Bool.false_ne_true]; omega
      | true => rw [h x hu, Bool.or_false, if_neg Bool.false_ne_true]; omega

/-- Elements are counted key by key when the keys tell them apart. -/
theorem countP_any_keys [DecidableEq α] {f : σ → α} {keys : List σ} (hkeys : (keys.map f).Nodup)
    (q : σ → Bool) (l : List α) : (l.countP fun x ↦ keys.any fun k ↦ q k && decide (f k = x)) =
      (keys.map fun k ↦ if q k then l.count (f k) else 0).sum := by
  induction keys with
  | nil => simp
  | cons k keys ih =>
      obtain ⟨hk, hkeys⟩ := List.nodup_cons.mp hkeys
      have hdisjoint : ∀ x, (q k && decide (f k = x)) = true →
          (keys.any fun k ↦ q k && decide (f k = x)) = false := by
        intro x hx
        obtain ⟨-, hx⟩ := Bool.and_eq_true_iff.mp hx
        rw [List.any_eq_false]
        intro k' hk' hmem
        obtain ⟨-, hx'⟩ := Bool.and_eq_true_iff.mp hmem
        refine hk (List.mem_map.mpr ⟨k', hk', ?_⟩)
        rw [of_decide_eq_true hx, of_decide_eq_true hx']
      have hhead : (l.countP fun x ↦ q k && decide (f k = x)) =
          if q k then l.count (f k) else 0 := by
        cases q k with
        | false => simp
        | true =>
            rw [if_pos rfl, List.count]
            refine List.countP_congr fun x _ ↦ ?_
            rw [Bool.true_and, decide_eq_true_eq, beq_iff_eq]
            exact eq_comm
      simp only [List.any_cons, List.map_cons, List.sum_cons]
      rw [countP_or_of_disjoint hdisjoint, hhead, ih hkeys]

theorem countP_mem_keys [DecidableEq α] {f : σ → α} {keys : List σ} (hkeys : (keys.map f).Nodup)
    (l : List α) : (l.countP fun x ↦ decide (x ∈ keys.map f)) =
      (keys.map fun k ↦ l.count (f k)).sum := by
  have hall := countP_any_keys hkeys (fun _ ↦ true) l
  simp only [if_true] at hall
  rw [← hall]
  refine List.countP_congr fun x _ ↦ ?_
  simp

end Keys

/-! ## The quotient -/

/-- No opinion when nothing counts on either side. -/
def dice (hit na nb : ℕ) : Float :=
  if na + nb = 0 then 0.0 else natCast (2 * hit) / natCast (na + nb)

variable {hit na nb : ℕ}

theorem dice_zero (hna : na ≤ 2 ^ 127) (hnb : nb ≤ 2 ^ 127) : dice 0 na nb = 0.0 := by
  unfold dice
  by_cases h : na + nb = 0
  · rw [if_pos h]
  · rw [if_neg h]
    exact zero_div_natCast (Nat.pos_of_ne_zero h) (by omega)

theorem dice_self (hna : na ≤ 2 ^ 127) : dice na na na = 0.0 ∨ dice na na na = 1.0 := by
  unfold dice
  by_cases h : na + na = 0
  · exact Or.inl (if_pos h)
  · rw [if_neg h, Nat.two_mul]
    exact Or.inr (natCast_div_self (Nat.pos_of_ne_zero h) (by omega))

theorem dice_self_of_pos (hna : na ≤ 2 ^ 127) (hpos : 0 < na) : dice na na na = 1.0 := by
  have h : na + na ≠ 0 := by omega
  rw [dice, if_neg h, Nat.two_mul]
  exact natCast_div_self (Nat.pos_of_ne_zero h) (by omega)

theorem bits_dice_le_one (hna : na ≤ 2 ^ 127) (hnb : nb ≤ 2 ^ 127) (hle : 2 * hit ≤ na + nb) :
    bits (dice hit na nb) ≤ bits 1.0 := by
  unfold dice
  by_cases h : na + nb = 0
  · rw [if_pos h, bits_zero]
    exact Nat.zero_le _
  · rw [if_neg h]
    exact natCast_div_le_one (Nat.pos_of_ne_zero h) (by omega) hle

theorem dice_comm (hit na nb : ℕ) : dice hit na nb = dice hit nb na := by
  rw [dice, dice, Nat.add_comm]

theorem dice_eq_one_of_eq (hna : na ≤ 2 ^ 127) (hnb : nb ≤ 2 ^ 127) (hpos : na + nb ≠ 0)
    (h : 2 * hit = na + nb) : dice hit na nb = 1.0 := by
  rw [dice, if_neg hpos, h]
  exact natCast_div_self (Nat.pos_of_ne_zero hpos) (by omega)

/-- Fractions of exact counts are one only when nothing is missing. -/
theorem eq_of_dice_eq_one (hfew : na + nb ≤ 2 ^ 53) (hle : 2 * hit ≤ na + nb)
    (h : dice hit na nb = 1.0) : na + nb ≠ 0 ∧ 2 * hit = na + nb := by
  have hpos : na + nb ≠ 0 := by
    intro h0
    rw [dice, if_pos h0] at h
    exact absurd h (by decide)
  refine ⟨hpos, hle.antisymm (not_lt.mp fun hlt ↦ ?_)⟩
  rw [dice, if_neg hpos] at h
  have hless := natCast_div_lt_one hlt hfew
  rw [h] at hless
  exact absurd hless (lt_irrefl _)

/-- One count more is lost in the rounding. -/
example : dice (2 ^ 52) (2 ^ 52) (2 ^ 52 + 1) = 1.0 := by decide +kernel

/-- Either side bounds the overlap by its overlap with itself. -/
theorem bits_dice_le {n : ℕ} (hn : n = na ∨ n = nb) (hna : na ≤ 2 ^ 127) (hnb : nb ≤ 2 ^ 127)
    (ha : hit ≤ na) (hb : hit ≤ nb) : bits (dice hit na nb) ≤ bits (dice n n n) := by
  have hfits : n ≤ 2 ^ 127 := by omega
  rcases Nat.eq_zero_or_pos n with h0 | hpos
  · obtain rfl : hit = 0 := by omega
    rw [dice_zero hna hnb, bits_zero]
    exact Nat.zero_le _
  · rw [dice_self_of_pos hfits hpos]
    exact bits_dice_le_one hna hnb (by omega)

end Overlap
