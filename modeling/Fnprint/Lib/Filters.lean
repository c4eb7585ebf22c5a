import Fnprint.Lib.KeyMap

/-!
# Stacked filters

A filter looks a request up by its number.  It gives one action when the
number is listed and its rules, if there are any, let the arguments match,
and another action otherwise.  Of several filters the most severe action
counts.
-/

namespace Filters

open KeyMap

variable {ν γ θ α : Type*} [DecidableEq ν]

/-- The rules of a number; a rule is the list of conditions it asks for. -/
structure Filter (ν γ α : Type*) [DecidableEq ν] where
  rules : Map ν (List (List γ))
  mismatch : α
  matched : α

section Verdict

variable (holds : γ → θ → Bool)

def Filter.isMatch (f : Filter ν γ α) (n : ν) (args : θ) : Bool :=
  match f.rules.lookup n with
  | none => false
  | some rules => rules.isEmpty || rules.any fun rule ↦ rule.all fun c ↦ holds c args

def Filter.verdict (f : Filter ν γ α) (n : ν) (args : θ) : α :=
  if f.isMatch holds n args then f.matched else f.mismatch

variable {holds} {f : Filter ν γ α} {n : ν}

theorem verdict_of_unlisted (h : f.rules.lookup n = none) (args : θ) :
    f.verdict holds n args = f.mismatch := by
  simp [Filter.verdict, Filter.isMatch, h]

theorem verdict_of_no_rule (h : f.rules.lookup n = some []) (args : θ) :
    f.verdict holds n args = f.matched := by
  simp [Filter.verdict, Filter.isMatch, h]

theorem verdict_of_one_condition {c : γ} (h : f.rules.lookup n = some [[c]]) (args : θ) :
    f.verdict holds n args = if holds c args then f.matched else f.mismatch := by
  simp [Filter.verdict, Filter.isMatch, h]

end Verdict

/-! ## Numbers listed without rules -/

def listed (l : List ν) : Map ν (List (List γ)) :=
  collect (l.map fun n ↦ (n, []))

theorem lookup_listed_of_mem {l : List ν} {n : ν} (h : n ∈ l) :
    (listed l : Map ν (List (List γ))).lookup n = some [] := by
  cases hn : (listed l : Map ν (List (List γ))).lookup n with
  | none =>
      have hp := lookup_collect_eq_none_iff.mp hn (n, []) (List.mem_map.mpr ⟨n, h, rfl⟩)
      exact absurd rfl hp
  | some rules =>
      obtain ⟨m, -, hm⟩ := List.mem_map.mp (mem_of_lookup_collect hn)
      rw [(Prod.mk.inj hm).2]

theorem lookup_listed_of_not_mem {l : List ν} {n : ν} (h : n ∉ l) :
    (listed l : Map ν (List (List γ))).lookup n = none := by
  refine lookup_collect_eq_none_iff.mpr fun p hp hpn ↦ ?_
  obtain ⟨m, hm, rfl⟩ := List.mem_map.mp hp
  exact h (hpn ▸ hm)

/-! ## The most severe action -/

section Stacked

variable (severity : α → ℕ)

/-- The actions are looked at in turn, and only a strictly more severe one
replaces the one held. -/
def worst (start : α) (l : List α) : α :=
  l.foldl (fun held a ↦ if severity held < severity a then a else held) start

variable {severity} {start : α} {l : List α}

theorem worst_append_singleton (start : α) (l : List α) (a : α) :
    worst severity start (l ++ [a]) =
      if severity (worst severity start l) < severity a then a else worst severity start l := by
  rw [worst, List.foldl_append]
  rfl

theorem worst_mem (start : α) (l : List α) : worst severity start l ∈ start :: l := by
  induction l using List.reverseRecOn with
  | nil => exact List.mem_cons_self
  | append_singleton l a ih =>
      rw [worst_append_singleton]
      split
      · simp
      · rcases List.mem_cons.mp ih with h | h
        · exact List.mem_cons.mpr (Or.inl h)
        · exact List.mem_cons_of_mem _ (List.mem_append_left _ h)

theorem severity_le_worst {a : α} (ha : a ∈ start :: l) :
    severity a ≤ severity (worst severity start l) := by
  induction l using List.reverseRecOn with
  | nil => rw [List.mem_singleton.mp ha]; exact le_rfl
  | append_singleton l b ih =>
      have hcases : a ∈ start :: l ∨ a = b := by
        simpa [or_assoc] using ha
      rw [worst_append_singleton]
      split
      · rename_i hlt
        rcases hcases with h | rfl
        · exact (ih h).trans hlt.le
        · exact le_rfl
      · rename_i hge
        rcases hcases with h | rfl
        · exact ih h
        · exact not_lt.mp hge

/-- An action more severe than all the different ones is the result. -/
theorem worst_eq_of_lt {m : α} (hm : m ∈ start :: l)
    (hlt : ∀ a ∈ start :: l, a ≠ m → severity a < severity m) : worst severity start l = m := by
  by_contra hne
  have hless := hlt _ (worst_mem start l) hne
  exact absurd (severity_le_worst hm) (not_le.mpr hless)

end Stacked

/-! ## Masked comparisons of the low half of an argument -/

/-- A mask that fits the low half sees the same bits in the whole word. -/
theorem low_and_eq_zero_iff {mask : UInt64} (hmask : mask.toNat < 2 ^ 32) (x : UInt64) :
    x.toUInt32 &&& mask.toUInt32 = 0 ↔ x &&& mask = 0 := by
  have hand : x.toUInt32 &&& mask.toUInt32 = (x &&& mask).toUInt32 :=
    (UInt64.toUInt32_and x mask).symm
  have hsmall : (x &&& mask).toNat < 2 ^ 32 := by
    rw [UInt64.toNat_and]
    exact lt_of_le_of_lt Nat.and_le_right hmask
  have hlow : (x &&& mask).toUInt32.toNat = (x &&& mask).toNat := by
    rw [UInt64.toNat_toUInt32, Nat.mod_eq_of_lt hsmall]
  rw [hand, ← UInt32.toNat_inj, ← UInt64.toNat_inj, hlow]
  rfl

end Filters
