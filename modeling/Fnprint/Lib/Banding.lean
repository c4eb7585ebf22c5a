import Mathlib

/-!
# Bands of a signature

A signature cut into bands of equal width.  Two signatures of the same length
that differ in fewer slots than there are bands share a whole band: this is
the pigeonhole behind locality-sensitive hashing.
-/

namespace Banding

variable {α : Type*}

/-- The consecutive pieces of width `r`; the last one may be shorter. -/
def chunks (r : ℕ) (l : List α) : List (List α) :=
  (List.range ((l.length + r - 1) / r)).map fun i ↦ (l.drop (i * r)).take r

theorem length_chunks {r b : ℕ} (hr : 0 < r) {l : List α} (hl : l.length = b * r) :
    (chunks r l).length = b := by
  have hdiv : (b * r + (r - 1)) / r = b := by
    rw [Nat.add_comm, Nat.add_mul_div_right _ _ hr, Nat.div_eq_of_lt (by omega), Nat.zero_add]
  rw [chunks, List.length_map, List.length_range, hl, Nat.add_sub_assoc hr, hdiv]

theorem getElem?_chunks {r b : ℕ} (hr : 0 < r) {l : List α} (hl : l.length = b * r) {i : ℕ}
    (hi : i < b) : (chunks r l)[i]? = some ((l.drop (i * r)).take r) := by
  have hlen := length_chunks hr hl
  rw [chunks, List.length_map, List.length_range] at hlen
  rw [chunks, List.getElem?_map, hlen, List.getElem?_range hi, Option.map_some]

variable [DecidableEq α]

/-- The number of slots in which two signatures agree. -/
def agree (x y : List α) : ℕ := ((x.zip y).filter fun p ↦ p.1 == p.2).length

theorem agree_le_length (x y : List α) : agree x y ≤ x.length :=
  calc agree x y ≤ (x.zip y).length := List.length_filter_le _ _
    _ ≤ x.length := by
      rw [List.length_zip]
      exact Nat.min_le_left _ _

@[simp] theorem agree_self (x : List α) : agree x x = x.length := by
  induction x with
  | nil => rfl
  | cons v x ih =>
      rw [agree, List.zip_cons_cons, List.filter_cons_of_pos (by simp), List.length_cons, ← agree,
        ih, List.length_cons]

theorem agree_comm (x y : List α) : agree x y = agree y x := by
  have hswap : x.zip y = (y.zip x).map Prod.swap := (List.zip_swap y x).symm
  rw [agree, agree, hswap, List.filter_map, List.length_map]
  congr 2
  funext p
  exact BEq.comm

theorem eq_of_agree_eq_length : ∀ {x y : List α}, x.length = y.length →
    agree x y = x.length → x = y
  | [], [], _, _ => rfl
  | v :: x, w :: y, hlen, h => by
      have hlen' : x.length = y.length := by simpa using hlen
      by_cases hvw : v = w
      · subst hvw
        have h' : agree x y = x.length := by simpa [agree] using h
        rw [eq_of_agree_eq_length hlen' h']
      · have hle := agree_le_length x y
        have h' : agree x y = x.length + 1 := by simpa [agree, hvw] using h
        omega

theorem agree_append {x x' y y' : List α} (h : x.length = y.length) :
    agree (x ++ x') (y ++ y') = agree x y + agree x' y' := by
  rw [agree, List.zip_append h, List.filter_append, List.length_append, agree, agree]

/-- Fewer disagreements than bands leave a band untouched. -/
theorem exists_band_eq {r : ℕ} :
    ∀ {b : ℕ} {x y : List α}, x.length = b * r → y.length = b * r → b * r < agree x y + b →
      ∃ i < b, (x.drop (i * r)).take r = (y.drop (i * r)).take r
  | 0, x, y, hx, _, h => by
      have := agree_le_length x y
      omega
  | b + 1, x, y, hx, hy, h => by
      rw [Nat.succ_mul] at hx hy h
      by_cases hfirst : x.take r = y.take r
      · exact ⟨0, Nat.succ_pos b, by simpa using hfirst⟩
      · -- the first band costs a slot, the others still have one to spare
        have hxt : (x.take r).length = r := by rw [List.length_take]; omega
        have hyt : (y.take r).length = r := by rw [List.length_take]; omega
        have hsplit : agree x y = agree (x.take r) (y.take r) + agree (x.drop r) (y.drop r) := by
          rw [← agree_append (by rw [hxt, hyt]), List.take_append_drop, List.take_append_drop]
        have hlost : agree (x.take r) (y.take r) < r := by
          have hle := agree_le_length (x.take r) (y.take r)
          have hne : agree (x.take r) (y.take r) ≠ (x.take r).length := fun heq ↦
            hfirst (eq_of_agree_eq_length (by rw [hxt, hyt]) heq)
          omega
        have hxd : (x.drop r).length = b * r := by rw [List.length_drop]; omega
        have hyd : (y.drop r).length = b * r := by rw [List.length_drop]; omega
        obtain ⟨i, hi, heq⟩ := exists_band_eq hxd hyd (by omega)
        refine ⟨i + 1, by omega, ?_⟩
        rw [List.drop_drop, List.drop_drop] at heq
        rwa [Nat.succ_mul, Nat.add_comm (i * r)]

theorem exists_chunk_eq {r b : ℕ} (hr : 0 < r) {x y : List α} (hx : x.length = b * r)
    (hy : y.length = b * r) (h : b * r < agree x y + b) :
    ∃ (i : ℕ) (c : List α), (chunks r x)[i]? = some c ∧ (chunks r y)[i]? = some c := by
  obtain ⟨i, hi, heq⟩ := exists_band_eq hx hy h
  refine ⟨i, _, getElem?_chunks hr hx hi, ?_⟩
  rw [getElem?_chunks hr hy hi, heq]

end Banding
