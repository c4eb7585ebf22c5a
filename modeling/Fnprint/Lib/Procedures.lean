import Mathlib

/-!
# Procedures that may fail

A procedure over a state returns a value or an error, and keeps the state it
has reached in either case.  What each part of a procedure keeps, the whole
keeps; where the whole succeeds, each part has succeeded in its turn.
-/

namespace Procedure

variable {ε σ α β : Type}

theorem bind_eq_ok_iff {x : EStateM ε σ α} {f : α → EStateM ε σ β} {s t : σ} {b : β} :
    (x >>= f).run s = .ok b t ↔ ∃ a u, x.run s = .ok a u ∧ (f a).run u = .ok b t := by
  rw [EStateM.run_bind]
  cases x.run s <;> simp

theorem bind_eq_error_iff {x : EStateM ε σ α} {f : α → EStateM ε σ β} {s t : σ} {e : ε} :
    (x >>= f).run s = .error e t ↔
      x.run s = .error e t ∨ ∃ a u, x.run s = .ok a u ∧ (f a).run u = .error e t := by
  rw [EStateM.run_bind]
  cases x.run s <;> simp

theorem pure_eq_ok_iff {s t : σ} {a b : α} :
    (pure a : EStateM ε σ α).run s = .ok b t ↔ a = b ∧ s = t := by
  simp

theorem throw_ne_ok {s t : σ} {e : ε} {a : α} :
    (throw e : EStateM ε σ α).run s ≠ .ok a t := by
  intro h
  cases h

/-- The state that a procedure leaves, however it ends. -/
def leaves (x : EStateM ε σ α) (s : σ) : σ :=
  match x.run s with
  | .ok _ t | .error _ t => t

/-- What holds before the procedure holds after it, even if it fails. -/
def Keeps (P : σ → Prop) (x : EStateM ε σ α) : Prop := ∀ s, P s → P (leaves x s)

variable {P : σ → Prop}

theorem Keeps.ok {x : EStateM ε σ α} (hx : Keeps P x) {s t : σ} {a : α} (hs : P s)
    (h : x.run s = .ok a t) : P t := by
  have hleaves := hx s hs
  rwa [leaves, h] at hleaves

theorem Keeps.error {x : EStateM ε σ α} (hx : Keeps P x) {s t : σ} {e : ε} (hs : P s)
    (h : x.run s = .error e t) : P t := by
  have hleaves := hx s hs
  rwa [leaves, h] at hleaves

theorem keeps_pure (a : α) : Keeps P (pure a : EStateM ε σ α) := fun _ hs ↦ hs

theorem keeps_throw (e : ε) : Keeps P (throw e : EStateM ε σ α) := fun _ hs ↦ hs

theorem keeps_get : Keeps P (get : EStateM ε σ σ) := fun _ hs ↦ hs

theorem Keeps.bind {x : EStateM ε σ α} {f : α → EStateM ε σ β} (hx : Keeps P x)
    (hf : ∀ a, Keeps P (f a)) : Keeps P (x >>= f) := by
  intro s hs
  unfold leaves
  cases h : (x >>= f).run s with
  | ok b t =>
      obtain ⟨a, u, hrun, hrest⟩ := bind_eq_ok_iff.mp h
      exact (hf a).ok (hx.ok hs hrun) hrest
  | error e t =>
      rcases bind_eq_error_iff.mp h with hrun | ⟨a, u, hrun, hrest⟩
      · exact hx.error hs hrun
      · exact (hf a).error (hx.ok hs hrun) hrest

/-! ## Errors in their context -/

/-- A failure is reported under the context it came about in. -/
def inContext (c : ε) (x : EStateM (List ε) σ α) : EStateM (List ε) σ α :=
  x.adaptExcept (c :: ·)

theorem inContext_eq_ok_iff {c : ε} {x : EStateM (List ε) σ α} {s t : σ} {a : α} :
    (inContext c x).run s = .ok a t ↔ x.run s = .ok a t := by
  rw [inContext, EStateM.run_adaptExcept]
  cases x.run s <;> simp

theorem Keeps.inContext {x : EStateM (List ε) σ α} (hx : Keeps P x) (c : ε) :
    Keeps P (inContext c x) := by
  intro s hs
  unfold leaves
  rw [Procedure.inContext, EStateM.run_adaptExcept]
  cases h : x.run s with
  | ok a u => exact hx.ok hs h
  | error e u => exact hx.error hs h

end Procedure
