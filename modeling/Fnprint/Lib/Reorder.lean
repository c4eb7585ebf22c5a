import Fnprint.Lib.StableSort

/-!
# Reordering a list

A relation between a list and its reorderings follows from adjacent swaps.  In
a stable sort an element stands behind the smaller ones and behind those of
its ties that were listed before it.
-/

namespace Reorder

open StableSort

variable {α β : Type*}

theorem perm_of_swaps {R : List α → List α → Prop} (hrefl : ∀ l, R l l)
    (htrans : ∀ {l l' l''}, R l l' → R l' l'' → R l l'')
    (hswap : ∀ pre x y suf, R (pre ++ x :: y :: suf) (pre ++ y :: x :: suf)) {l l' : List α}
    (h : l.Perm l') : R l l' := by
  suffices hpre : ∀ pre, R (pre ++ l) (pre ++ l') from hpre []
  induction h with
  | nil => exact fun pre ↦ hrefl _
  | cons x _ ih =>
      intro pre
      have hx := ih (pre ++ [x])
      rwa [List.append_assoc, List.append_assoc] at hx
  | swap x y l => exact fun pre ↦ hswap pre y x l
  | trans _ _ ih₁ ih₂ => exact fun pre ↦ htrans (ih₁ pre) (ih₂ pre)

/-- Every reordering of an image is the image of a reordering. -/
theorem exists_perm_of_perm_map {f : α → β} {l : List α} {m : List β} (h : m.Perm (l.map f)) :
    ∃ l' : List α, l'.Perm l ∧ l'.map f = m := by
  induction m generalizing l with
  | nil =>
      obtain rfl := List.map_eq_nil_iff.mp h.nil_eq.symm
      exact ⟨[], List.Perm.refl _, rfl⟩
  | cons y m ih =>
      obtain ⟨x, hx, rfl⟩ := List.mem_map.mp (h.subset List.mem_cons_self)
      obtain ⟨pre, suf, rfl⟩ := List.append_of_mem hx
      have htail : m.Perm ((pre ++ suf).map f) := by
        rw [List.map_append, List.map_cons] at h
        rw [List.map_append]
        exact (h.trans List.perm_middle).cons_inv
      obtain ⟨l', hl', rfl⟩ := ih htail
      exact ⟨x :: l', (hl'.cons x).trans List.perm_middle.symm, rfl⟩

/-- Every reordering of the elements kept comes from one of the list. -/
theorem exists_perm_filter {p : α → Bool} {l m : List α} (h : m.Perm (l.filter p)) :
    ∃ l' : List α, l'.Perm l ∧ l'.filter p = m := by
  refine ⟨m ++ l.filter fun x ↦ !p x, ?_, ?_⟩
  · exact (h.append_right _).trans (List.filter_append_perm p l)
  · have hm : m.filter p = m :=
      List.filter_eq_self.mpr fun x hx ↦ (List.mem_filter.mp (h.mem_iff.mp hx)).2
    have hrest : (l.filter fun x ↦ !p x).filter p = [] :=
      List.filter_eq_nil_iff.mpr fun x hx ↦ by simpa using (List.mem_filter.mp hx).2
    rw [List.filter_append, hm, hrest, List.append_nil]

theorem exists_perm_cons_cons {l : List α} {x y : α} (hx : x ∈ l) (hy : y ∈ l) (hne : x ≠ y) :
    ∃ rest, l.Perm (x :: y :: rest) := by
  obtain ⟨pre, suf, rfl⟩ := List.append_of_mem hx
  have hy' : y ∈ pre ++ suf := by
    rcases List.mem_append.mp hy with hy | hy
    · exact List.mem_append_left _ hy
    · exact List.mem_append_right _ (List.mem_of_ne_of_mem hne.symm hy)
  obtain ⟨pre', suf', hsplit⟩ := List.append_of_mem hy'
  refine ⟨pre' ++ suf', List.perm_middle.trans ?_⟩
  rw [hsplit]
  exact List.perm_middle.cons x

theorem map_swap_perm [DecidableEq α] {l : List α} (hl : l.Nodup) {x y : α} (hx : x ∈ l)
    (hy : y ∈ l) : (l.map (Equiv.swap x y)).Perm l := by
  have hswap : ∀ z ∈ l, Equiv.swap x y z ∈ l := by
    intro z hz
    rw [Equiv.swap_apply_def]
    split_ifs
    · exact hy
    · exact hx
    · exact hz
  rw [List.perm_ext_iff_of_nodup (hl.map (Equiv.injective _)) hl]
  intro z
  rw [List.mem_map]
  constructor
  · rintro ⟨w, hw, rfl⟩
    exact hswap w hw
  · exact fun hz ↦ ⟨_, hswap z hz, Equiv.swap_apply_self x y z⟩

theorem findIdx_append_cons {p : α → Bool} {A B : List α} {x : α} (hA : ∀ y ∈ A, p y = false)
    (hx : p x = true) : (A ++ x :: B).findIdx p = A.length := by
  rw [List.findIdx_append, List.findIdx_eq_length_of_false hA, if_neg (lt_irrefl _),
    List.findIdx_cons, hx, cond_true, Nat.zero_add]

/-! ## Places in a stable sort -/

section Places

variable (cmp : α → α → Ordering) [Std.TransCmp cmp]

omit [Std.TransCmp cmp] in
theorem orderedInsert_append_left {A B : List α} {x y : α} (h : (cmp y x).isLE = true) :
    (A ++ x :: B).orderedInsert (Le cmp) y = A.orderedInsert (Le cmp) y ++ x :: B := by
  induction A with
  | nil => exact List.orderedInsert_cons_of_le (Le cmp) B h
  | cons z A ih =>
      by_cases hz : Le cmp y z
      · rw [List.cons_append, List.orderedInsert_cons_of_le (Le cmp) _ hz,
          List.orderedInsert_cons_of_le (Le cmp) _ hz]
        rfl
      · rw [List.cons_append, List.orderedInsert_of_not_le (Le cmp) _ hz,
          List.orderedInsert_of_not_le (Le cmp) _ hz, ih]
        rfl

omit [Std.TransCmp cmp] in
theorem orderedInsert_append_right {A B : List α} {y : α}
    (h : ∀ z ∈ A, ¬(cmp y z).isLE = true) :
    (A ++ B).orderedInsert (Le cmp) y = A ++ B.orderedInsert (Le cmp) y := by
  induction A with
  | nil => rfl
  | cons z A ih =>
      rw [List.cons_append, List.orderedInsert_of_not_le (Le cmp) _ (h z List.mem_cons_self),
        ih fun w hw ↦ h w (List.mem_cons_of_mem z hw)]
      rfl

/-- The elements in front of `x` once `pre ++ x :: suf` is sorted. -/
def ahead (x : α) (pre suf : List α) : ℕ :=
  pre.countP (fun y ↦ (cmp y x).isLE) + suf.countP fun y ↦ cmp y x = .lt

theorem sortBy_split (x : α) (pre suf : List α) :
    ∃ A B, sortBy cmp (pre ++ x :: suf) = A ++ x :: B ∧ A.length = ahead cmp x pre suf := by
  induction pre with
  | nil =>
      let below : α → Bool := fun y ↦ cmp y x = .lt
      have hsplit := eq_filter_append_filter cmp below (pairwise_sortBy cmp suf)
        fun y _ z _ hyz hz ↦
          decide_eq_true (Std.TransCmp.lt_of_isLE_of_lt hyz (of_decide_eq_true hz))
      refine ⟨(sortBy cmp suf).filter below, (sortBy cmp suf).filter fun y ↦ !below y, ?_, ?_⟩
      · rw [List.nil_append, sortBy_cons]
        conv_lhs => rw [hsplit]
        rw [orderedInsert_append_right]
        · congr 1
          cases hB : (sortBy cmp suf).filter fun y ↦ !below y with
          | nil => rfl
          | cons z B =>
              have hz : (!below z) = true :=
                (List.mem_filter.mp (hB ▸ List.mem_cons_self :
                  z ∈ (sortBy cmp suf).filter fun y ↦ !below y)).2
              refine List.orderedInsert_cons_of_le (Le cmp) B ?_
              rw [Le, ← Std.OrientedCmp.isGE_iff_isLE]
              have hz' : cmp z x ≠ .lt := by simpa [below] using hz
              cases hc : cmp z x with
              | lt => exact absurd hc hz'
              | eq => rfl
              | gt => rfl
        · intro z hz hle
          have hlt := of_decide_eq_true (List.mem_filter.mp hz).2
          rw [@Std.OrientedCmp.eq_swap α cmp _ x z, hlt] at hle
          cases hle
      · rw [ahead, List.countP_nil, Nat.zero_add, ← (perm_sortBy cmp suf).countP_eq,
          List.countP_eq_length_filter]
  | cons y pre ih =>
      obtain ⟨A, B, hsort, hlen⟩ := ih
      have hsorted : (A ++ x :: B).Pairwise (Le cmp) := hsort ▸ pairwise_sortBy cmp _
      rw [List.cons_append, sortBy_cons, hsort]
      by_cases hle : (cmp y x).isLE = true
      · refine ⟨A.orderedInsert (Le cmp) y, B, orderedInsert_append_left cmp hle, ?_⟩
        rw [List.orderedInsert_length, hlen, ahead, ahead, List.countP_cons, if_pos hle]
        omega
      · have hA : ∀ z ∈ A, ¬(cmp y z).isLE = true := fun z hz hyz ↦
          hle (Std.TransCmp.isLE_trans hyz ((List.pairwise_append.mp hsorted).2.2 z hz x (by simp)))
        refine ⟨A, B.orderedInsert (Le cmp) y, ?_, ?_⟩
        · rw [orderedInsert_append_right cmp hA, List.orderedInsert_of_not_le (Le cmp) _ hle]
        · rw [hlen, ahead, ahead, List.countP_cons, if_neg hle, Nat.add_zero]

end Places

end Reorder
