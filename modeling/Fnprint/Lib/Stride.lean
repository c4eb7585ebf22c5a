import Mathlib

/-!
# Records of one width

A list of records laid end to end, each of the same width, and read back one
stride at a time; a rest too short for a record is dropped.  Digits of a number
in one base are such records of its value.
-/

namespace Stride

variable {α β : Type*} {k : ℕ} {enc : α → List β} {dec : List β → α}

/-- The whole records in a list. -/
def decode (k : ℕ) (dec : List β → α) (b : List β) : List α :=
  (List.range (b.length / k)).map fun i ↦ dec ((b.drop (k * i)).take k)

theorem length_flatMap (henc : ∀ x, (enc x).length = k) (xs : List α) :
    (xs.flatMap enc).length = xs.length * k := by
  induction xs with
  | nil => simp
  | cons x xs ih =>
      rw [List.flatMap_cons, List.length_append, henc, ih, List.length_cons, Nat.succ_mul,
        Nat.add_comm]

/-- Where an element of the joined records comes from. -/
theorem getElem?_flatMap (hk : 0 < k) (henc : ∀ x, (enc x).length = k) (xs : List α) (i : ℕ) :
    (xs.flatMap enc)[i]? = xs[i / k]?.bind fun x ↦ (enc x)[i % k]? := by
  induction xs generalizing i with
  | nil => simp
  | cons x xs ih =>
      rw [List.flatMap_cons]
      by_cases hi : i < k
      · rw [List.getElem?_append_left (by rwa [henc]), Nat.div_eq_of_lt hi, Nat.mod_eq_of_lt hi]
        rfl
      · have hdiv : i / k = (i - k) / k + 1 := by
          rw [Nat.div_eq_sub_div hk (not_lt.mp hi)]
        rw [List.getElem?_append_right (by rw [henc]; exact not_lt.mp hi), henc, ih, hdiv,
          List.getElem?_cons_succ, Nat.mod_eq_sub_mod (not_lt.mp hi)]

theorem decode_append (hk : 0 < k) {x rest : List β} (hx : x.length = k) :
    decode k dec (x ++ rest) = dec x :: decode k dec rest := by
  have hdiv : (x ++ rest).length / k = rest.length / k + 1 := by
    rw [List.length_append, hx, Nat.add_div_left _ hk]
  rw [decode, hdiv, List.range_succ_eq_map, List.map_cons, List.map_map, decode]
  congr 1
  · rw [Nat.mul_zero, List.drop_zero, ← hx, List.take_left]
  · apply List.map_congr_left
    intro i _
    have hdrop : (x ++ rest).drop (k * (i + 1)) = rest.drop (k * i) := by
      rw [Nat.mul_succ, Nat.add_comm, ← List.drop_drop, ← hx, List.drop_left]
    rw [Function.comp_apply, hdrop]

theorem decode_flatMap (hk : 0 < k) (henc : ∀ x, (enc x).length = k)
    (hdec : ∀ x, dec (enc x) = x) (xs : List α) : decode k dec (xs.flatMap enc) = xs := by
  induction xs with
  | nil => simp [decode]
  | cons x xs ih => rw [List.flatMap_cons, decode_append hk (henc x), hdec, ih]

/-- The low digits of a number. -/
theorem ofDigits_map_range (base n v : ℕ) :
    Nat.ofDigits base ((List.range n).map fun i ↦ v / base ^ i % base) = v % base ^ n := by
  induction n with
  | zero => simp [Nat.mod_one]
  | succ n ih =>
      rw [List.range_succ, List.map_append, Nat.ofDigits_append, ih, List.length_map,
        List.length_range, List.map_singleton, Nat.ofDigits_singleton, Nat.mod_pow_succ]

end Stride
