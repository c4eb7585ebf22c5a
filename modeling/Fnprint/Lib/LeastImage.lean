import Mathlib

/-!
# The least image of a list

A fold that keeps the least image of the elements under a function, starting
from a greatest element.  It depends on the elements alone, and for an
injective function exactly one element attains it.
-/

namespace LeastImage

variable {α β : Type*} [LE β] [LT β] [DecidableLT β] [Std.IsLinearOrder β] [Std.LawfulOrderLT β]

/-- The least image under `f`, and `top` where there is none. -/
def leastImage (top : β) (f : α → β) (l : List α) : β :=
  l.foldl (fun m x ↦ if f x < m then f x else m) top

section

variable {top : β} {f : α → β}

theorem le_foldl_iff {v m : β} {l : List α} :
    v ≤ l.foldl (fun m x ↦ if f x < m then f x else m) m ↔ v ≤ m ∧ ∀ x ∈ l, v ≤ f x := by
  induction l generalizing m with
  | nil => simp
  | cons x l ih =>
      rw [List.foldl_cons, ih, List.forall_mem_cons, ← and_assoc]
      refine and_congr_left fun _ ↦ ?_
      split
      · next hlt =>
          exact ⟨fun h ↦ ⟨Std.le_trans h (Std.le_of_lt hlt), h⟩, fun h ↦ h.2⟩
      · next hge =>
          exact ⟨fun h ↦ ⟨h, Std.le_trans h (Std.not_lt.mp hge)⟩, fun h ↦ h.1⟩

/-- The least image is the greatest lower bound of the images. -/
theorem le_leastImage_iff (htop : ∀ v : β, v ≤ top) {v : β} {l : List α} :
    v ≤ leastImage top f l ↔ ∀ x ∈ l, v ≤ f x := by
  rw [leastImage, le_foldl_iff]
  exact and_iff_right (htop v)

theorem leastImage_union [Min β] [Std.LawfulOrderMin β] (htop : ∀ v : β, v ≤ top)
    {l l₁ l₂ : List α} (h : ∀ x, x ∈ l ↔ x ∈ l₁ ∨ x ∈ l₂) :
    leastImage top f l = min (leastImage top f l₁) (leastImage top f l₂) := by
  have hle : ∀ v, v ≤ leastImage top f l ↔
      v ≤ min (leastImage top f l₁) (leastImage top f l₂) := fun v ↦ by
    rw [Std.le_min_iff, le_leastImage_iff htop, le_leastImage_iff htop, le_leastImage_iff htop]
    simp only [h, or_imp, forall_and]
  exact Std.le_antisymm ((hle _).mp (Std.le_refl _)) ((hle _).mpr (Std.le_refl _))

omit [LE β] [Std.IsLinearOrder β] [Std.LawfulOrderLT β] in
theorem foldl_eq_or_exists (m : β) (l : List α) :
    l.foldl (fun m x ↦ if f x < m then f x else m) m = m ∨
      ∃ x ∈ l, f x = l.foldl (fun m x ↦ if f x < m then f x else m) m := by
  induction l generalizing m with
  | nil => exact Or.inl rfl
  | cons x l ih =>
      rw [List.foldl_cons]
      rcases ih (if f x < m then f x else m) with heq | ⟨y, hy, heq⟩
      · rw [heq]
        split
        · exact Or.inr ⟨x, List.mem_cons_self, rfl⟩
        · exact Or.inl rfl
      · exact Or.inr ⟨y, List.mem_cons_of_mem x hy, heq⟩

theorem exists_eq_leastImage (htop : ∀ v : β, v ≤ top) {l : List α} (hl : l ≠ []) :
    ∃ x ∈ l, f x = leastImage top f l := by
  rcases foldl_eq_or_exists (f := f) top l with heq | hex
  · -- the greatest element is attained, as nothing is above it
    obtain ⟨x, hx⟩ := List.exists_mem_of_ne_nil l hl
    have hleast : leastImage top f l = top := heq
    have hbound : top ≤ leastImage top f l := by
      rw [hleast]
      exact Std.le_refl top
    have hle : top ≤ f x := (le_leastImage_iff htop).mp hbound x hx
    exact ⟨x, hx, (Std.le_antisymm (htop _) hle).trans hleast.symm⟩
  · exact hex

end

/-- An injective function attains its least image once. -/
theorem existsUnique_leastImage {top : β} {f : α → β} (hf : Function.Injective f)
    (htop : ∀ v : β, v ≤ top) {l : List α} (hl : l ≠ []) :
    ∃! x, x ∈ l ∧ f x = leastImage top f l := by
  obtain ⟨x, hx, heq⟩ := exists_eq_leastImage (f := f) htop hl
  exact ⟨x, ⟨hx, heq⟩, fun y hy ↦ hf (hy.2.trans heq.symm)⟩

/-- Lists with one least image under an injective function share an element. -/
theorem exists_common {top : β} {f : α → β} (hf : Function.Injective f) (htop : ∀ v : β, v ≤ top)
    {l l' : List α} (hl : l ≠ []) (hl' : l' ≠ [])
    (h : leastImage top f l = leastImage top f l') : ∃ x, x ∈ l ∧ x ∈ l' := by
  obtain ⟨x, hx, heq⟩ := exists_eq_leastImage (f := f) htop hl
  obtain ⟨y, hy, heq'⟩ := exists_eq_leastImage (f := f) htop hl'
  have hxy : x = y := hf (by rw [heq, heq', h])
  exact ⟨x, hx, hxy ▸ hy⟩

end LeastImage
