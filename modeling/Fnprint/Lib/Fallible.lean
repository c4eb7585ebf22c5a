import Mathlib

/-!
# Computations that can fail

When a sequence or a loop of fallible steps succeeds, and with what.
-/

namespace Fallible

universe u v

variable {ε : Type v} {α β : Type u}

/-- The result of a computation, with a value in place of a failure. -/
def okOr (d : α) : Except ε α → α
  | .ok x => x
  | .error _ => d

@[simp] theorem okOr_ok (d x : α) : okOr d (.ok x : Except ε α) = x := rfl

theorem eq_ok_okOr {x : Except ε α} {d : α} (h : ∃ y, x = .ok y) : x = .ok (okOr d x) := by
  obtain ⟨y, rfl⟩ := h
  rfl

theorem eq_ok_of_toOption {x : Except ε α} {y : α} (h : x.toOption = some y) : x = .ok y := by
  cases x with
  | error e => cases h
  | ok z => exact congrArg Except.ok (Option.some.inj h)

theorem bind_eq_ok_iff {x : Except ε α} {f : α → Except ε β} {y : β} :
    x >>= f = .ok y ↔ ∃ a, x = .ok a ∧ f a = .ok y := by
  cases x with
  | error e => simp [bind, Except.bind]
  | ok a => simp [bind, Except.bind]

theorem exists_bind_eq_ok {x : Except ε α} {f : α → Except ε β} {a : α} (hx : x = .ok a)
    (hf : ∃ y, f a = .ok y) : ∃ y, x >>= f = .ok y := by
  obtain ⟨y, hy⟩ := hf
  exact ⟨y, bind_eq_ok_iff.mpr ⟨a, hx, hy⟩⟩

theorem bind_ne_error {x : Except ε α} {f : α → Except ε β} {e : ε} (hx : x ≠ .error e)
    (hf : ∀ a, f a ≠ .error e) : x >>= f ≠ .error e := by
  cases x with
  | error e' => exact fun h ↦ hx (congrArg Except.error (Except.error.inj h))
  | ok a => exact hf a

theorem map_eq_ok_iff {x : Except ε α} {f : α → β} {y : β} :
    x.map f = .ok y ↔ ∃ z, x = .ok z ∧ f z = y := by
  cases x with
  | error e => simp [Except.map]
  | ok z => simp [Except.map]

theorem pure_eq_ok_iff {x y : α} : (pure x : Except ε α) = .ok y ↔ x = y :=
  Except.ok.injEq x y ▸ Iff.rfl

theorem mapM_eq_ok_iff {f : α → Except ε β} (d : β) {l : List α} {ys : List β} :
    l.mapM f = .ok ys ↔ (∀ x ∈ l, ∃ y, f x = .ok y) ∧ ys = l.map fun x ↦ okOr d (f x) := by
  induction l generalizing ys with
  | nil =>
      rw [List.mapM_nil, pure_eq_ok_iff]
      simp [eq_comm]
  | cons x l ih =>
      rw [List.mapM_cons, bind_eq_ok_iff]
      constructor
      · rintro ⟨y, hy, h⟩
        obtain ⟨zs, hzs, h⟩ := bind_eq_ok_iff.mp h
        obtain ⟨hall, rfl⟩ := ih.mp hzs
        rw [← pure_eq_ok_iff.mp h, List.map_cons, hy]
        refine ⟨?_, rfl⟩
        intro z hz
        rcases List.mem_cons.mp hz with rfl | hz
        · exact ⟨y, hy⟩
        · exact hall z hz
      · rintro ⟨hall, rfl⟩
        refine ⟨_, eq_ok_okOr (hall x List.mem_cons_self), bind_eq_ok_iff.mpr
          ⟨_, ih.mpr ⟨fun z hz ↦ hall z (List.mem_cons_of_mem x hz), rfl⟩, rfl⟩⟩

theorem forall₂_iff_mapM {f : α → Except ε β} {l : List α} {ys : List β} :
    List.Forall₂ (fun x y ↦ f x = .ok y) l ys ↔ l.mapM f = .ok ys := by
  induction l generalizing ys with
  | nil => rw [List.forall₂_nil_left_iff, List.mapM_nil, pure_eq_ok_iff, eq_comm]
  | cons x l ih =>
      rw [List.forall₂_cons_left_iff, List.mapM_cons]
      simp only [bind_eq_ok_iff, pure_eq_ok_iff, ih]
      constructor
      · rintro ⟨y, ys, hy, hys, rfl⟩
        exact ⟨y, hy, ys, hys, rfl⟩
      · rintro ⟨y, hy, ys, hys, rfl⟩
        exact ⟨y, ys, hy, hys, rfl⟩

theorem foldlM_cons_eq_ok_iff {f : β → α → Except ε β} {s t : β} {x : α} {l : List α} :
    (x :: l).foldlM f s = .ok t ↔ ∃ s', f s x = .ok s' ∧ l.foldlM f s' = .ok t := by
  rw [List.foldlM_cons, bind_eq_ok_iff]

/-- What every successful step preserves holds after a successful loop. -/
theorem foldlM_invariant {P : β → Prop} {f : β → α → Except ε β}
    (hstep : ∀ s x s', P s → f s x = .ok s' → P s') {s t : β} {l : List α} (hs : P s)
    (h : l.foldlM f s = .ok t) : P t := by
  induction l generalizing s with
  | nil =>
      obtain rfl := pure_eq_ok_iff.mp h
      exact hs
  | cons x l ih =>
      obtain ⟨s', hx, h⟩ := foldlM_cons_eq_ok_iff.mp h
      exact ih (hstep s x s' hs hx) h

theorem isSome_mapM {f : α → Option β} {l : List α} (h : ∀ x ∈ l, (f x).isSome) :
    (l.mapM f).isSome := by
  induction l with
  | nil => rfl
  | cons x l ih =>
      obtain ⟨hx, hl⟩ := List.forall_mem_cons.mp h
      obtain ⟨y, hy⟩ := Option.isSome_iff_exists.mp hx
      obtain ⟨ys, hys⟩ := Option.isSome_iff_exists.mp (ih hl)
      rw [List.mapM_cons, hy, hys]
      rfl

theorem mapM_eq_some_map {f : α → Option β} {g : α → β} {l : List α}
    (h : ∀ x ∈ l, f x = some (g x)) : l.mapM f = some (l.map g) := by
  induction l with
  | nil => rfl
  | cons x l ih =>
      obtain ⟨hx, hl⟩ := List.forall_mem_cons.mp h
      rw [List.mapM_cons, hx, ih hl]
      rfl

theorem forall₂_of_mapM {f : α → Option β} {l : List α} {ys : List β} (h : l.mapM f = some ys) :
    List.Forall₂ (fun x y ↦ f x = some y) l ys := by
  induction l generalizing ys with
  | nil =>
      rw [List.mapM_nil] at h
      rw [← Option.some.inj h]
      exact .nil
  | cons x l ih =>
      rw [List.mapM_cons] at h
      obtain ⟨y, hy, h⟩ := Option.bind_eq_some_iff.mp h
      obtain ⟨ys', hys', h⟩ := Option.bind_eq_some_iff.mp h
      rw [← Option.some.inj h]
      exact .cons hy (ih hys')

/-- Every result of a loop comes from one of its steps. -/
theorem exists_of_mem_mapM {f : α → Option β} {l : List α} {ys : List β} (h : l.mapM f = some ys)
    {y : β} (hy : y ∈ ys) : ∃ x ∈ l, f x = some y := by
  induction l generalizing ys with
  | nil =>
      rw [← Option.some.inj h] at hy
      cases hy
  | cons x l ih =>
      rw [List.mapM_cons] at h
      obtain ⟨z, hz, h⟩ := Option.bind_eq_some_iff.mp h
      obtain ⟨zs, hzs, h⟩ := Option.bind_eq_some_iff.mp h
      rw [← Option.some.inj h] at hy
      rcases List.mem_cons.mp hy with rfl | hy
      · exact ⟨x, List.mem_cons_self, hz⟩
      · obtain ⟨x', hx', hy'⟩ := ih hzs hy
        exact ⟨x', List.mem_cons_of_mem x hx', hy'⟩

/-- Where the successes come first, they keep their places. -/
theorem getElem?_filterMap_of_front {f : α → Option β} {l : List α}
    (h : l.Pairwise fun x y ↦ (f y).isSome = true → (f x).isSome = true) {i : ℕ} {y : β}
    (hy : (l.filterMap f)[i]? = some y) : ∃ x, l[i]? = some x ∧ f x = some y := by
  induction l generalizing i with
  | nil => cases hy
  | cons x l ih =>
      obtain ⟨hx, hl⟩ := List.pairwise_cons.mp h
      cases hfx : f x with
      | none =>
          have hnone : l.filterMap f = [] := List.filterMap_eq_nil_iff.mpr fun z hz ↦ by
            have hz' := hx z hz
            rw [hfx] at hz'
            exact Option.not_isSome_iff_eq_none.mp fun hsome ↦ Bool.false_ne_true (hz' hsome)
          rw [List.filterMap_cons_none hfx, hnone] at hy
          cases hy
      | some z =>
          rw [List.filterMap_cons_some hfx] at hy
          cases i with
          | zero => exact ⟨x, rfl, hfx.trans hy⟩
          | succ i => exact ih hl hy

end Fallible
