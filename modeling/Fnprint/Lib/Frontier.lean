import Mathlib

/-!
# Visiting what is left

A list in increasing order is visited.  Each visit goes to the first element
outside a set, and adds it to the set, maybe with others.  The visits increase,
so no element is visited twice and there are at most as many visits as
elements.
-/

namespace Frontier

variable {α : Type*} [LT α] {l as : List α} {s : Set α} {a : α}

/-- The first element of a list outside a set. -/
structure IsNext (l : List α) (s : Set α) (a : α) : Prop where
  mem : a ∈ l
  notMem : a ∉ s
  below : ∀ b ∈ l, b < a → b ∈ s

/-- Visits to a list, from a set on. -/
inductive Visits (l : List α) : Set α → List α → Prop where
  | done (s : Set α) : Visits l s []
  | step {s t : Set α} {a : α} {as : List α} (hnext : IsNext l s a) (hsub : s ⊆ t) (ha : a ∈ t)
      (hrest : Visits l t as) : Visits l s (a :: as)

theorem Visits.mem (h : Visits l s as) : ∀ a ∈ as, a ∈ l ∧ a ∉ s := by
  induction h with
  | done s => exact fun a ha ↦ absurd ha List.not_mem_nil
  | step hnext hsub _ _ ih =>
      intro b hb
      rcases List.mem_cons.mp hb with rfl | hb
      · exact ⟨hnext.mem, hnext.notMem⟩
      · exact ⟨(ih b hb).1, fun hs ↦ (ih b hb).2 (hsub hs)⟩

theorem isNext_of_find? [Std.Asymm (α := α) (· < ·)] (hl : l.Pairwise (· < ·)) {p : α → Bool}
    (hp : ∀ b, p b = false ↔ b ∈ s) (h : l.find? p = some a) : IsNext l s a := by
  obtain ⟨ha, front, back, rfl, hfront⟩ := List.find?_eq_some_iff_append.mp h
  refine ⟨List.mem_append_right _ (List.mem_cons_self ..), fun hs ↦ ?_, fun b hb hlt ↦ ?_⟩
  · exact Bool.false_ne_true (((hp a).mpr hs).symm.trans ha)
  · rcases List.mem_append.mp hb with hb | hb
    · exact (hp b).mp (by simpa using hfront b hb)
    · have hback := (List.pairwise_cons.mp (List.pairwise_append.mp hl).2.1).1
      rcases List.mem_cons.mp hb with rfl | hb
      · exact absurd hlt Std.lt_irrefl
      · exact absurd hlt (Std.not_gt_of_lt (hback b hb))

variable [Std.Trichotomous (α := α) (· < ·)]

theorem Visits.pairwise_lt (h : Visits l s as) : as.Pairwise (· < ·) := by
  induction h with
  | done s => exact List.Pairwise.nil
  | @step s t a as hnext hsub ha hrest ih =>
      refine List.pairwise_cons.mpr ⟨fun b hb ↦ ?_, ih⟩
      obtain ⟨hmem, hout⟩ := hrest.mem b hb
      rcases Std.lt_trichotomy b a with hlt | rfl | hlt
      · exact absurd (hsub (hnext.below b hmem hlt)) hout
      · exact absurd ha hout
      · exact hlt

variable [Std.Asymm (α := α) (· < ·)]

theorem Visits.nodup (h : Visits l s as) : as.Nodup := by
  refine h.pairwise_lt.imp fun {a b} hlt heq ↦ ?_
  rw [heq] at hlt
  exact Std.lt_irrefl hlt

theorem Visits.length_le (h : Visits l s as) : as.length ≤ l.length :=
  (h.nodup.subperm fun a ha ↦ (h.mem a ha).1).length_le

end Frontier
