import Mathlib

/-!
# Self-delimiting encodings

An encoding is self-delimiting when a reader knows where it ends: two texts that
begin with encodings and agree have the same value in front and the same rest.
Such encodings can be written one after the other without a length.
-/

namespace Delimited

variable {α β γ κ : Type*}

/-- The value in front of a text, and the rest, are determined by the text. -/
def Delimits (f : α → List γ) : Prop := ∀ x y s t, f x ++ s = f y ++ t → x = y ∧ s = t

theorem Delimits.injective {f : α → List γ} (h : Delimits f) : Function.Injective f := by
  intro x y hxy
  exact (h x y [] [] (by rw [hxy])).1

/-- Injective encodings of one length are self-delimiting. -/
theorem delimits_of_length {f : α → List γ} {n : ℕ} (hf : Function.Injective f)
    (hlen : ∀ x, (f x).length = n) : Delimits f := by
  intro x y s t h
  obtain ⟨hxy, hst⟩ := List.append_inj h ((hlen x).trans (hlen y).symm)
  exact ⟨hf hxy, hst⟩

theorem Delimits.comp {f : β → List γ} (h : Delimits f) {g : α → β}
    (hg : Function.Injective g) : Delimits fun x ↦ f (g x) := by
  intro x y s t hxy
  obtain ⟨heq, hst⟩ := h (g x) (g y) s t hxy
  exact ⟨hg heq, hst⟩

theorem Delimits.append {f : α → List γ} {g : β → List γ} (hf : Delimits f) (hg : Delimits g) :
    Delimits fun p : α × β ↦ f p.1 ++ g p.2 := by
  rintro ⟨x, x'⟩ ⟨y, y'⟩ s t h
  rw [List.append_assoc, List.append_assoc] at h
  obtain ⟨rfl, h⟩ := hf x y _ _ h
  obtain ⟨hlast, h⟩ := hg x' y' _ _ h
  exact ⟨Prod.ext rfl hlast, h⟩

/-! ## Tags -/

/-- A tag that tells the cases apart, in front of what each case holds. -/
theorem delimits_of_tag {f : α → List γ} {tag : α → γ} {body : α → List γ}
    (hf : ∀ x, f x = tag x :: body x)
    (hbody : ∀ x y, tag x = tag y → ∀ s t, body x ++ s = body y ++ t → x = y ∧ s = t) :
    Delimits f := by
  intro x y s t h
  rw [hf, hf, List.cons_append, List.cons_append] at h
  obtain ⟨htag, h⟩ := List.cons.inj h
  exact hbody x y htag s t h

theorem injective_of_tag {f : α → List γ} {tag : α → γ} {body : α → List γ}
    (hf : ∀ x, f x = tag x :: body x)
    (hbody : ∀ x y, tag x = tag y → body x = body y → x = y) : Function.Injective f := by
  intro x y h
  rw [hf, hf] at h
  obtain ⟨htag, h⟩ := List.cons.inj h
  exact hbody x y htag h

end Delimited
