import Mathlib

/-!
# Machines that may abort

A machine takes an input to a next state and some outputs, or aborts.  A run
feeds it a list of inputs and collects the outputs.  A property that every
step preserves holds after every run.
-/

namespace Machine

variable {σ ι ω : Type*} (step : σ → ι → Option (σ × List ω))

def run : σ → List ι → Option (σ × List ω)
  | s, [] => some (s, [])
  | s, i :: l => (step s i).bind fun p ↦ (run p.1 l).map fun q ↦ (q.1, p.2 ++ q.2)

variable {step}

@[simp] theorem run_nil (s : σ) : run step s [] = some (s, []) := rfl

theorem run_cons_eq_some_iff {s u : σ} {i : ι} {l : List ι} {out : List ω} :
    run step s (i :: l) = some (u, out) ↔
      ∃ t front back, step s i = some (t, front) ∧ run step t l = some (u, back) ∧
        out = front ++ back := by
  rw [run, Option.bind_eq_some_iff]
  constructor
  · rintro ⟨⟨t, front⟩, hstep, h⟩
    obtain ⟨⟨u', back⟩, hrun, heq⟩ := Option.map_eq_some_iff.mp h
    obtain ⟨rfl, rfl⟩ := Prod.mk.inj heq
    exact ⟨t, front, back, hstep, hrun, rfl⟩
  · rintro ⟨t, front, back, hstep, hrun, rfl⟩
    exact ⟨(t, front), hstep, Option.map_eq_some_iff.mpr ⟨(u, back), hrun, rfl⟩⟩

theorem exists_run_cons {s t : σ} {i : ι} {l : List ι} {front : List ω}
    (hstep : step s i = some (t, front)) (h : ∃ u out, run step t l = some (u, out)) :
    ∃ u out, run step s (i :: l) = some (u, out) := by
  obtain ⟨u, out, hrun⟩ := h
  exact ⟨u, front ++ out, run_cons_eq_some_iff.mpr ⟨t, front, out, hstep, hrun, rfl⟩⟩

/-- What every step preserves, of the state and of the outputs so far, holds
after a run. -/
theorem run_invariant {P : σ → List ω → Prop}
    (hstep : ∀ s out i t front, P s out → step s i = some (t, front) → P t (out ++ front))
    {s u : σ} {out out' : List ω} {l : List ι} (hs : P s out) (h : run step s l = some (u, out')) :
    P u (out ++ out') := by
  induction l generalizing s out out' with
  | nil =>
      obtain ⟨rfl, rfl⟩ := Prod.mk.inj (Option.some.inj h)
      rwa [List.append_nil]
  | cons i l ih =>
      obtain ⟨t, front, back, hi, hrun, rfl⟩ := run_cons_eq_some_iff.mp h
      rw [← List.append_assoc]
      exact ih (hstep s out i t front hs hi) hrun

theorem run_preserves {P : σ → Prop}
    (hstep : ∀ s i t out, P s → step s i = some (t, out) → P t) {s u : σ} {out : List ω}
    {l : List ι} (hs : P s) (h : run step s l = some (u, out)) : P u := by
  have hstep' : ∀ (s : σ) (_ : List ω) (i : ι) (t : σ) (front : List ω), P s →
      step s i = some (t, front) → P t := fun s _ i t front hs hi ↦ hstep s i t front hs hi
  exact @run_invariant σ ι ω step (fun s _ ↦ P s) hstep' s u [] out l hs h

variable (step) in
/-- A condition holds of each state that an input finds. -/
def Along (P : σ → ι → Prop) : σ → List ι → Prop
  | _, [] => True
  | s, i :: l => P s i ∧ ∀ t out, step s i = some (t, out) → Along P t l

theorem along_of_preserved {P : σ → ι → Prop} {R : σ → Prop}
    (hstep : ∀ s i t out, R s → step s i = some (t, out) → R t) {s : σ} {l : List ι}
    (hP : ∀ t, R t → ∀ i ∈ l, P t i) (hs : R s) : Along step P s l := by
  induction l generalizing s with
  | nil => trivial
  | cons i l ih =>
      refine ⟨hP s hs i List.mem_cons_self, fun t out ht ↦ ?_⟩
      exact ih (fun t ht j hj ↦ hP t ht j (List.mem_cons_of_mem i hj)) (hstep s i t out hs ht)

/-- A machine whose steps another one can follow, with the same outputs, as long
as a condition holds is followed through whole runs along which it does. -/
theorem run_simulates {τ : Type*} {step' : τ → ι → Option (τ × List ω)} {R : σ → τ → Prop}
    {P : σ → ι → Prop}
    (hstep : ∀ s t i s' out, R s t → P s i → step s i = some (s', out) →
      ∃ t', step' t i = some (t', out) ∧ R s' t')
    {s s' : σ} {t : τ} {out : List ω} {l : List ι} (hR : R s t) (hP : Along step P s l)
    (h : run step s l = some (s', out)) : ∃ t', run step' t l = some (t', out) ∧ R s' t' := by
  induction l generalizing s t out with
  | nil =>
      obtain ⟨rfl, rfl⟩ := Prod.mk.inj (Option.some.inj h)
      exact ⟨t, rfl, hR⟩
  | cons i l ih =>
      obtain ⟨hi, hrest⟩ := hP
      obtain ⟨u, front, back, hu, hrun, rfl⟩ := run_cons_eq_some_iff.mp h
      obtain ⟨v, hv, hR'⟩ := hstep s t i u front hR hi hu
      obtain ⟨t', ht', hR''⟩ := ih hR' (hrest u front hu) hrun
      exact ⟨t', run_cons_eq_some_iff.mpr ⟨v, front, back, hv, ht', rfl⟩, hR''⟩

end Machine
