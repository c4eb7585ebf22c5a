import Mathlib

/-!
# Selecting a least element in one pass

A fold that replaces the element it holds by a strictly smaller one.  When
only equal elements tie, what it ends with depends on the elements alone.
-/

namespace Selection

open Std

variable {α : Type*} (cmp : α → α → Ordering)

/-- Look at one more element. -/
def consider (best : Option α) (x : α) : Option α :=
  match best with
  | none => some x
  | some b => if cmp x b = .lt then some x else some b

def select (l : List α) : Option α := l.foldl (consider cmp) none

@[simp] theorem select_nil : select cmp [] = none := rfl

theorem select_append_singleton (l : List α) (x : α) :
    select cmp (l ++ [x]) = consider cmp (select cmp l) x := by
  simp [select]

variable {cmp}

theorem select_eq_none_iff {l : List α} : select cmp l = none ↔ l = [] := by
  refine ⟨fun h ↦ ?_, fun h ↦ by rw [h]; rfl⟩
  rcases List.eq_nil_or_concat l with rfl | ⟨l, x, rfl⟩
  · rfl
  · rw [List.concat_eq_append, select_append_singleton] at h
    cases hs : select cmp l with
    | none => simp [hs, consider] at h
    | some b =>
        simp only [hs, consider] at h
        split at h <;> cases h

theorem mem_of_select {l : List α} {m : α} (h : select cmp l = some m) : m ∈ l := by
  induction l using List.reverseRecOn generalizing m with
  | nil => simp at h
  | append_singleton l x ih =>
      rw [select_append_singleton] at h
      cases hs : select cmp l with
      | none =>
          simp only [hs, consider, Option.some.injEq] at h
          simp [h]
      | some b =>
          simp only [hs, consider] at h
          split at h
          · simp [Option.some.inj h]
          · exact List.mem_append_left _ (ih (hs.trans h))

theorem isLE_of_select [TransCmp cmp] {l : List α} {m : α} (h : select cmp l = some m) :
    ∀ x ∈ l, (cmp m x).isLE = true := by
  induction l using List.reverseRecOn generalizing m with
  | nil => simp
  | append_singleton l x ih =>
      rw [select_append_singleton] at h
      intro y hy
      cases hs : select cmp l with
      | none =>
          rw [select_eq_none_iff.mp hs] at hy
          simp only [hs, consider, Option.some.injEq] at h
          rw [List.mem_singleton.mp hy, h]
          exact ReflCmp.isLE_rfl
      | some b =>
          simp only [hs, consider] at h
          have hb := ih hs
          split at h
          · rename_i hlt
            have hxm : x = m := Option.some.inj h
            rcases List.mem_append.mp hy with hy | hy
            · rw [← hxm]
              exact TransCmp.isLE_trans (by rw [hlt]; rfl) (hb y hy)
            · rw [List.mem_singleton.mp hy, hxm]
              exact ReflCmp.isLE_rfl
          · rename_i hge
            have hbm : b = m := Option.some.inj h
            rcases List.mem_append.mp hy with hy | hy
            · rw [← hbm]
              exact hb y hy
            · rw [List.mem_singleton.mp hy, ← hbm, ← OrientedCmp.isGE_iff_isLE]
              cases hc : cmp x b with
              | lt => exact absurd hc hge
              | eq => rfl
              | gt => rfl

/-- When only equal elements tie, the least element is the selected one. -/
theorem select_eq_some_iff [TransCmp cmp] (htie : ∀ x y, cmp x y = .eq → x = y) {l : List α}
    {m : α} : select cmp l = some m ↔ m ∈ l ∧ ∀ x ∈ l, (cmp m x).isLE = true := by
  refine ⟨fun h ↦ ⟨mem_of_select h, isLE_of_select h⟩, ?_⟩
  rintro ⟨hm, hle⟩
  cases hs : select cmp l with
  | none =>
      rw [select_eq_none_iff.mp hs] at hm
      simp at hm
  | some b =>
      have hbm := isLE_of_select hs m hm
      have hmb := hle b (mem_of_select hs)
      rw [← OrientedCmp.isGE_iff_isLE] at hmb
      have heq : cmp b m = .eq := by
        cases hc : cmp b m with
        | lt => simp [hc] at hmb
        | eq => rfl
        | gt => simp [hc] at hbm
      rw [htie b m heq]

end Selection
