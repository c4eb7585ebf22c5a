import Mathlib

/-!
# Scans that step past what they cannot read

A scan walks a buffer from an offset.  At each offset a step may abort, may end
the scan, or consumes some positions; one that consumes nothing is stepped past.
A step that never aborts and stays inside the buffer gives a scan that never
aborts.  A step that consumes nothing crawls over every position.
-/

namespace Resync

variable {σ : Type*} {len : ℕ} {step : ℕ → σ → Option (Option (σ × ℕ))}

/-- The scan over `len` positions; an offset past the largest word aborts it. -/
def scan (len : ℕ) (step : ℕ → σ → Option (Option (σ × ℕ))) (off : ℕ) (s : σ) : Option σ :=
  if off < len then
    match step off s with
    | none => none
    | some none => some s
    | some (some p) =>
        if off + max p.2 1 < 2 ^ 64 then scan len step (off + max p.2 1) p.1 else none
  else some s
termination_by len - off

theorem scan_of_le {off : ℕ} (h : len ≤ off) (s : σ) : scan len step off s = some s := by
  rw [scan, if_neg (not_lt.mpr h)]

theorem scan_of_abort {off : ℕ} (h : off < len) {s : σ} (hstep : step off s = none) :
    scan len step off s = none := by
  rw [scan, if_pos h, hstep]

theorem scan_of_stop {off : ℕ} (h : off < len) {s : σ} (hstep : step off s = some none) :
    scan len step off s = some s := by
  rw [scan, if_pos h, hstep]

theorem scan_of_advance {off n : ℕ} (h : off < len) {s t : σ}
    (hstep : step off s = some (some (t, n))) (hword : off + max n 1 < 2 ^ 64) :
    scan len step off s = scan len step (off + max n 1) t := by
  rw [scan, if_pos h, hstep]
  exact if_pos hword

/-- The step never aborts and consumes nothing past the end. -/
def Inside (len : ℕ) (step : ℕ → σ → Option (Option (σ × ℕ))) : Prop :=
  ∀ off s, off < len → ∃ r, step off s = some r ∧ ∀ p, r = some p → off + p.2 ≤ len

theorem isSome_scan (hlen : len < 2 ^ 64) (h : Inside len step) (off : ℕ) (s : σ) :
    (scan len step off s).isSome := by
  induction hn : len - off using Nat.strong_induction_on generalizing off s with
  | _ n ih =>
      by_cases hoff : off < len
      · obtain ⟨r, hstep, hinside⟩ := h off s hoff
        cases r with
        | none => rw [scan_of_stop hoff hstep, Option.isSome_some]
        | some p =>
            have hle := hinside p rfl
            rw [scan_of_advance hoff hstep (by omega)]
            exact ih (len - (off + max p.2 1)) (by omega) _ _ rfl
      · rw [scan_of_le (not_lt.mp hoff), Option.isSome_some]

/-- What every step keeps, of the position and the state, holds at the end. -/
theorem scan_invariant {P : ℕ → σ → Prop}
    (hstep : ∀ off s t n, off < len → P off s → step off s = some (some (t, n)) →
      P (off + max n 1) t) {off : ℕ} {s u : σ} (hs : P off s)
    (h : scan len step off s = some u) : ∃ off', P off' u := by
  induction hn : len - off using Nat.strong_induction_on generalizing off s with
  | _ n ih =>
      by_cases hoff : off < len
      · rw [scan, if_pos hoff] at h
        cases hr : step off s with
        | none =>
            rw [hr] at h
            cases h
        | some r =>
            rw [hr] at h
            cases r with
            | none =>
                obtain rfl := Option.some.inj h
                exact ⟨off, hs⟩
            | some p =>
                obtain ⟨-, h⟩ := Option.ite_none_right_eq_some.mp h
                exact ih (len - (off + max p.2 1)) (by omega) (hstep off s p.1 p.2 hoff hs hr) h rfl
      · rw [scan_of_le (not_lt.mp hoff)] at h
        obtain rfl := Option.some.inj h
        exact ⟨off, hs⟩

/-- A step that consumes nothing is stepped past, up to any later position. -/
theorem scan_crawl {off k : ℕ} (hk : off ≤ k) (hlen : k ≤ len) (hword : k < 2 ^ 64) {s : σ}
    (h : ∀ i, off ≤ i → i < k → step i s = some (some (s, 0))) :
    scan len step off s = scan len step k s := by
  induction k, hk using Nat.le_induction with
  | base => rfl
  | succ k hk ih =>
      rw [ih (by omega) (by omega) fun i hi hik ↦ h i hi (by omega),
        scan_of_advance (by omega) (h k hk (by omega)) (by omega)]
      rfl

/-- A step that consumes whole strides, and stops before a partial one, folds
over the strides. -/
theorem scan_stride {n : ℕ} (hn : 0 < n) (hlen : len + n ≤ 2 ^ 64) {f : ℕ → σ → σ}
    (hstep : ∀ i s, i < len →
      step i s = if i + n ≤ len then some (some (f i s, n)) else some none)
    (off : ℕ) (s : σ) : scan len step off s =
      some ((List.range ((len - off) / n)).foldl (fun s i ↦ f (off + n * i) s) s) := by
  induction hm : (len - off) / n generalizing off s with
  | zero =>
      have hshort : len < off + n := by
        by_contra hle
        have hpos : 0 < (len - off) / n := Nat.div_pos (by omega) hn
        omega
      by_cases hoff : off < len
      · rw [scan_of_stop hoff (by rw [hstep _ _ hoff, if_neg (by omega)])]
        rfl
      · rw [scan_of_le (not_lt.mp hoff)]
        rfl
  | succ m ih =>
      have hfit : off + n ≤ len := by
        by_contra hlt
        rw [Nat.div_eq_of_lt (by omega)] at hm
        cases hm
      have hrest : (len - (off + n)) / n = m := by
        have hone := Nat.sub_mul_div (len - off) n 1
        rw [Nat.mul_one, Nat.sub_sub, hm] at hone
        exact hone
      rw [scan_of_advance (by omega) (by rw [hstep _ _ (by omega), if_pos hfit]) (by omega),
        max_eq_left (by omega), ih (off + n) _ hrest, List.range_succ_eq_map, List.foldl_cons,
        List.foldl_map, Nat.mul_zero, Nat.add_zero]
      congr 2
      funext s i
      rw [Nat.mul_succ, Nat.add_assoc, Nat.add_comm n]

end Resync
