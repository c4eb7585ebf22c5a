import Mathlib

/-!
# Schedules

A system takes a state and an event to the next state, where the event is
enabled.  A schedule is a sequence of events, each allowed and enabled when its
turn comes.  Where no schedule goes on forever and no state but a final one is
stuck, every schedule can be carried on to a final state.  Systems side by side
take their events in any order; each of them sees a schedule of its own.
-/

namespace Schedule

variable {σ ι : Type*} (step : σ → ι → Option σ) (allowed : σ → ι → Prop)

/-- The events `l` lead from `s` to `t`. -/
def Leads : σ → List ι → σ → Prop
  | s, [], t => s = t
  | s, i :: l, t => ∃ u, allowed s i ∧ step s i = some u ∧ Leads u l t

/-- No allowed event is enabled. -/
def Stuck (s : σ) : Prop := ∀ i, allowed s i → step s i = none

variable {step allowed}

@[simp] theorem leads_nil {s t : σ} : Leads step allowed s [] t ↔ s = t := Iff.rfl

@[simp] theorem leads_cons {s t : σ} {i : ι} {l : List ι} :
    Leads step allowed s (i :: l) t ↔
      ∃ u, allowed s i ∧ step s i = some u ∧ Leads step allowed u l t := Iff.rfl

theorem Leads.mono {allowed' : σ → ι → Prop} (hle : ∀ s i, allowed s i → allowed' s i) {s t : σ}
    {l : List ι} (h : Leads step allowed s l t) : Leads step allowed' s l t := by
  induction l generalizing s with
  | nil => exact h
  | cons i l ih =>
      obtain ⟨u, hi, hu, hl⟩ := h
      exact ⟨u, hle s i hi, hu, ih hl⟩

/-- Where everything is allowed a schedule is a run. -/
theorem leads_of_foldlM {s t : σ} {l : List ι} (h : l.foldlM step s = some t) :
    Leads step (fun _ _ ↦ True) s l t := by
  induction l generalizing s with
  | nil => exact Option.some.inj h
  | cons i l ih =>
      rw [List.foldlM_cons] at h
      obtain ⟨u, hu, hl⟩ := Option.bind_eq_some_iff.mp h
      exact ⟨u, trivial, hu, ih hl⟩

/-- What every step preserves holds after a schedule. -/
theorem Leads.invariant {P : σ → Prop}
    (hstep : ∀ s i t, P s → allowed s i → step s i = some t → P t) {s t : σ} {l : List ι}
    (h : Leads step allowed s l t) (hs : P s) : P t := by
  induction l generalizing s with
  | nil =>
      obtain rfl := h
      exact hs
  | cons i l ih =>
      obtain ⟨u, hi, hu, hl⟩ := h
      exact ih hl (hstep s i u hs hi hu)

section Measure

variable {P : σ → Prop} {μ : σ → ℕ}
  (hstep : ∀ s i t, P s → allowed s i → step s i = some t → P t)
  (hless : ∀ s i t, P s → allowed s i → step s i = some t → μ t < μ s)

include hstep hless

/-- Every event uses up some of the measure. -/
theorem Leads.length_add_le {s t : σ} {l : List ι} (h : Leads step allowed s l t) (hs : P s) :
    l.length + μ t ≤ μ s := by
  induction l generalizing s with
  | nil =>
      obtain rfl := h
      simp
  | cons i l ih =>
      obtain ⟨u, hi, hu, hl⟩ := h
      have hrest := ih hl (hstep s i u hs hi hu)
      have hdrop := hless s i u hs hi hu
      rw [List.length_cons]
      omega

/-- A schedule can always be carried on until it is stuck. -/
theorem exists_leads_stuck {s : σ} (hs : P s) :
    ∃ l t, Leads step allowed s l t ∧ Stuck step allowed t := by
  induction hn : μ s using Nat.strong_induction_on generalizing s with
  | _ n ih =>
      by_cases hstuck : Stuck step allowed s
      · exact ⟨[], s, rfl, hstuck⟩
      · unfold Stuck at hstuck
        push Not at hstuck
        obtain ⟨i, hi, hne⟩ := hstuck
        obtain ⟨u, hu⟩ := Option.ne_none_iff_exists'.mp hne
        obtain ⟨l, t, hl, ht⟩ :=
          ih (μ u) (hn ▸ hless s i u hs hi hu) (hstep s i u hs hi hu) rfl
        exact ⟨i :: l, t, ⟨u, hi, hu, hl⟩, ht⟩

end Measure

/-! ## Systems side by side -/

section Interleaving

variable {κ : Type*} [DecidableEq κ]

variable (step allowed) in
/-- An event of one of the systems. -/
def sideBySide (s : κ → σ) (e : κ × ι) : Option (κ → σ) :=
  (step (s e.1) e.2).map (Function.update s e.1)

/-- Each system allows events of its own. -/
def eachAllowed (allowed : κ → σ → ι → Prop) (s : κ → σ) (e : κ × ι) : Prop :=
  allowed e.1 (s e.1) e.2

/-- The events of one system. -/
def eventsOf (k : κ) (l : List (κ × ι)) : List ι :=
  (l.filter fun e ↦ decide (e.1 = k)).map Prod.snd

theorem eventsOf_cons (k : κ) (e : κ × ι) (l : List (κ × ι)) :
    eventsOf k (e :: l) = if e.1 = k then e.2 :: eventsOf k l else eventsOf k l := by
  by_cases h : e.1 = k <;> simp [eventsOf, h]

variable {allowedAt : κ → σ → ι → Prop}

/-- Each system sees a schedule of its own. -/
theorem Leads.project {s t : κ → σ} {l : List (κ × ι)}
    (h : Leads (sideBySide step) (eachAllowed allowedAt) s l t) (k : κ) :
    Leads step (allowedAt k) (s k) (eventsOf k l) (t k) := by
  induction l generalizing s with
  | nil =>
      obtain rfl := h
      rfl
  | cons e l ih =>
      obtain ⟨u, hallowed, hu, hl⟩ := h
      obtain ⟨v, hv, rfl⟩ := Option.map_eq_some_iff.mp hu
      have hrest := ih hl
      rw [eventsOf_cons]
      by_cases hk : e.1 = k
      · subst hk
        rw [if_pos rfl]
        rw [Function.update_self] at hrest
        exact ⟨v, hallowed, hv, hrest⟩
      · rw [if_neg hk]
        rwa [Function.update_of_ne (Ne.symm hk)] at hrest

/-- A single system side by side with none. -/
theorem Leads.alone [Unique κ] {allowed : σ → ι → Prop} {s t : σ} {l : List ι}
    (h : Leads step allowed s l t) :
    Leads (sideBySide step) (eachAllowed fun _ ↦ allowed) (fun _ : κ ↦ s)
      (l.map fun i ↦ (default, i)) fun _ ↦ t := by
  induction l generalizing s with
  | nil =>
      obtain rfl := h
      rfl
  | cons i l ih =>
      obtain ⟨u, hi, hu, hl⟩ := h
      refine ⟨fun _ ↦ u, hi, Option.map_eq_some_iff.mpr ⟨u, hu, ?_⟩, ih hl⟩
      funext k
      rw [Unique.eq_default k, Function.update_self]

end Interleaving

end Schedule
