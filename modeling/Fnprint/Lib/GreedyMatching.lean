import Mathlib

/-!
# Greedy one-to-one matching

Candidates with two ends are scanned best first; a candidate is kept when
neither of its ends is claimed yet.  What is kept is a matching, every
candidate passed over meets a kept one at or before it, and these two facts
determine the result.
-/

namespace GreedyMatching

variable {γ δ α β : Type*} (left : γ → α) (right : γ → β)

/-- Two candidates meet when they claim a common end. -/
def Meets (c d : γ) : Prop := left c = left d ∨ right c = right d

theorem meets_self (c : γ) : Meets left right c c := Or.inl rfl

variable [DecidableEq α] [DecidableEq β]

instance (c d : γ) : Decidable (Meets left right c d) :=
  inferInstanceAs (Decidable (_ ∨ _))

/-- One look at a candidate: keep it unless it meets a kept one. -/
def keep (out : List γ) (c : γ) : List γ :=
  if ∃ d ∈ out, Meets left right d c then out else out ++ [c]

/-- The scan, from the candidates kept so far. -/
def greedyFrom (out l : List γ) : List γ := l.foldl (keep left right) out

def greedy (l : List γ) : List γ := greedyFrom left right [] l

variable {left right}

@[simp] theorem greedyFrom_nil (out : List γ) : greedyFrom left right out [] = out := rfl

theorem greedyFrom_cons (out : List γ) (c : γ) (l : List γ) :
    greedyFrom left right out (c :: l) = greedyFrom left right (keep left right out c) l := rfl

theorem greedyFrom_append (out l l' : List γ) :
    greedyFrom left right out (l ++ l') =
      greedyFrom left right (greedyFrom left right out l) l' :=
  List.foldl_append

theorem greedy_append_singleton (l : List γ) (c : γ) :
    greedy left right (l ++ [c]) = keep left right (greedy left right l) c :=
  greedyFrom_append [] l [c]

/-- The scan only appends, and only candidates it was given. -/
theorem greedyFrom_eq_append (left : γ → α) (right : γ → β) (out l : List γ) :
    ∃ t, greedyFrom left right out l = out ++ t ∧ t.Sublist l := by
  induction l generalizing out with
  | nil => exact ⟨[], by simp, List.Sublist.refl _⟩
  | cons c l ih =>
      rw [greedyFrom_cons, keep]
      by_cases hmeet : ∃ d ∈ out, Meets left right d c
      · rw [if_pos hmeet]
        obtain ⟨t, ht, hsub⟩ := ih out
        exact ⟨t, ht, hsub.cons c⟩
      · rw [if_neg hmeet]
        obtain ⟨t, ht, hsub⟩ := ih (out ++ [c])
        exact ⟨c :: t, by simp [ht], hsub.cons_cons c⟩

theorem greedy_sublist (l : List γ) : (greedy left right l).Sublist l := by
  obtain ⟨t, ht, hsub⟩ := greedyFrom_eq_append left right [] l
  rw [greedy, ht]
  exact hsub

theorem mem_of_mem_greedy {l : List γ} {c : γ} (h : c ∈ greedy left right l) : c ∈ l :=
  (greedy_sublist l).subset h

theorem greedy_pairwise (l : List γ) :
    (greedy left right l).Pairwise fun c d ↦ ¬Meets left right c d := by
  induction l using List.reverseRecOn with
  | nil => exact List.Pairwise.nil
  | append_singleton l c ih =>
      rw [greedy_append_singleton, keep]
      by_cases hmeet : ∃ d ∈ greedy left right l, Meets left right d c
      · rwa [if_pos hmeet]
      · rw [if_neg hmeet, List.pairwise_append]
        refine ⟨ih, List.pairwise_singleton _ c, fun d hd e he hde ↦ hmeet ⟨d, hd, ?_⟩⟩
        rwa [List.mem_singleton.mp he] at hde

theorem nodup_left_greedy (l : List γ) : ((greedy left right l).map left).Nodup := by
  rw [List.Nodup, List.pairwise_map]
  exact (greedy_pairwise l).imp fun h heq ↦ h (Or.inl heq)

theorem nodup_right_greedy (l : List γ) : ((greedy left right l).map right).Nodup := by
  rw [List.Nodup, List.pairwise_map]
  exact (greedy_pairwise l).imp fun h heq ↦ h (Or.inr heq)

/-- Every candidate is blocked by one kept at or before it, if only by itself. -/
theorem exists_mem_greedy_meets (pre suf : List γ) (c : γ) :
    ∃ d ∈ greedy left right (pre ++ c :: suf), d ∈ pre ++ [c] ∧ Meets left right d c := by
  have hsplit : pre ++ c :: suf = (pre ++ [c]) ++ suf := by simp
  obtain ⟨t, ht, -⟩ := greedyFrom_eq_append left right
    (greedy left right (pre ++ [c])) suf
  have hsub : ∀ d ∈ greedy left right (pre ++ [c]),
      d ∈ greedy left right (pre ++ c :: suf) := by
    intro d hd
    rw [hsplit, greedy, greedyFrom_append, ← greedy, ht]
    exact List.mem_append_left t hd
  have hblock : ∃ d ∈ greedy left right (pre ++ [c]), Meets left right d c := by
    rw [greedy_append_singleton, keep]
    by_cases hmeet : ∃ d ∈ greedy left right pre, Meets left right d c
    · rwa [if_pos hmeet]
    · rw [if_neg hmeet]
      exact ⟨c, by simp, meets_self left right c⟩
  obtain ⟨d, hd, hdc⟩ := hblock
  exact ⟨d, hsub d hd, mem_of_mem_greedy hd, hdc⟩

/-- The kept candidates are determined: a set of pairwise non-meeting
candidates, each other candidate meeting an earlier one of the set. -/
theorem greedy_eq_filter (p : γ → Bool) (l : List γ)
    (hp : (l.filter p).Pairwise fun c d ↦ ¬Meets left right c d)
    (hblock : ∀ pre c suf, l = pre ++ c :: suf → p c = false →
      ∃ d ∈ pre, p d = true ∧ Meets left right d c) :
    greedy left right l = l.filter p := by
  induction l using List.reverseRecOn with
  | nil => rfl
  | append_singleton l c ih =>
      rw [List.filter_append] at hp
      obtain ⟨hp, -, hcross⟩ := List.pairwise_append.mp hp
      have ih := ih hp fun pre d suf hl hd ↦
        hblock pre d (suf ++ [c]) (by simp [hl]) hd
      rw [greedy_append_singleton, ih, List.filter_append, keep]
      cases hc : p c with
      | true =>
          have hfree : ¬∃ d ∈ l.filter p, Meets left right d c := by
            rintro ⟨d, hd, hdc⟩
            exact hcross d hd c (by simp [hc]) hdc
          rw [if_neg hfree]
          simp [hc]
      | false =>
          obtain ⟨d, hd, hpd, hdc⟩ := hblock l c [] rfl hc
          rw [if_pos ⟨d, List.mem_filter.mpr ⟨hd, hpd⟩, hdc⟩]
          simp [hc]

/-- Candidates below a cut never change what is kept above it. -/
theorem filter_greedy_append (p : γ → Bool) {hi lo : List γ}
    (hhi : ∀ c ∈ hi, p c = true) (hlo : ∀ c ∈ lo, p c = false) :
    (greedy left right (hi ++ lo)).filter p = greedy left right hi := by
  obtain ⟨t, ht, hsub⟩ := greedyFrom_eq_append left right
    (greedy left right hi) lo
  have hkeep : (greedy left right hi).filter p = greedy left right hi :=
    List.filter_eq_self.mpr fun c hc ↦ hhi c (mem_of_mem_greedy hc)
  have hdrop : t.filter p = [] := by
    apply List.filter_eq_nil_iff.mpr
    intro c hc
    simp [hlo c (hsub.subset hc)]
  rw [greedy, greedyFrom_append, ← greedy, ht, List.filter_append, hkeep, hdrop, List.append_nil]

/-- The scan sees a candidate only through its ends. -/
theorem map_greedy {α' β' : Type*} [DecidableEq α'] [DecidableEq β']
    {left' : δ → α'} {right' : δ → β'} (f : γ → δ) {l : List γ}
    (h : ∀ c ∈ l, ∀ d ∈ l, Meets left' right' (f c) (f d) ↔ Meets left right c d) :
    (greedy left right l).map f = greedy left' right' (l.map f) := by
  induction l using List.reverseRecOn with
  | nil => rfl
  | append_singleton l c ih =>
      have ih := ih fun d hd e he ↦
        h d (List.mem_append_left _ hd) e (List.mem_append_left _ he)
      rw [List.map_append, List.map_singleton, greedy_append_singleton,
        greedy_append_singleton, ← ih, keep, keep]
      have hiff : (∃ d ∈ (greedy left right l).map f, Meets left' right' d (f c)) ↔
          ∃ d ∈ greedy left right l, Meets left right d c := by
        constructor
        · rintro ⟨e, he, hec⟩
          obtain ⟨d, hd, rfl⟩ := List.mem_map.mp he
          have hdl := List.mem_append_left [c] (mem_of_mem_greedy hd)
          exact ⟨d, hd, (h d hdl c (by simp)).mp hec⟩
        · rintro ⟨d, hd, hdc⟩
          have hdl := List.mem_append_left [c] (mem_of_mem_greedy hd)
          exact ⟨f d, List.mem_map_of_mem hd, (h d hdl c (by simp)).mpr hdc⟩
      by_cases hmeet : ∃ d ∈ greedy left right l, Meets left right d c
      · rw [if_pos hmeet, if_pos (hiff.mpr hmeet)]
      · rw [if_neg hmeet, if_neg (fun hh ↦ hmeet (hiff.mp hh)), List.map_append,
          List.map_singleton]

end GreedyMatching
