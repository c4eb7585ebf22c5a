import Mathlib

/-!
# Stable sorting by a comparison function

`sortBy cmp` is the stable sort of a list by a three-way comparison.  The
rules below say how it commutes with filters and maps, when two inputs have
the same sorted output, and what removing adjacent repeats leaves of it.
-/

namespace StableSort

open List Std

variable {α β : Type*}

/-- The order a three-way comparison stands for. -/
abbrev Le (cmp : α → α → Ordering) (x y : α) : Prop := (cmp x y).isLE = true

/-- The stable sort of a list by a three-way comparison. -/
def sortBy (cmp : α → α → Ordering) (l : List α) : List α :=
  l.insertionSort (Le cmp)

section Basic

variable (cmp : α → α → Ordering)

@[simp] theorem sortBy_nil : sortBy cmp ([] : List α) = [] := rfl

theorem sortBy_cons (x : α) (l : List α) :
    sortBy cmp (x :: l) =
      (sortBy cmp l).orderedInsert (Le cmp) x := rfl

theorem perm_sortBy (l : List α) : (sortBy cmp l).Perm l :=
  List.perm_insertionSort _ l

@[simp] theorem mem_sortBy {l : List α} {x : α} : x ∈ sortBy cmp l ↔ x ∈ l :=
  (perm_sortBy cmp l).mem_iff

@[simp] theorem length_sortBy (l : List α) : (sortBy cmp l).length = l.length :=
  (perm_sortBy cmp l).length_eq

/-- Sorting sees a comparison only through its values on the list. -/
theorem map_sortBy {cmp : α → α → Ordering} {cmp' : β → β → Ordering} (f : α → β)
    {l : List α} (h : ∀ x ∈ l, ∀ y ∈ l, cmp' (f x) (f y) = cmp x y) :
    (sortBy cmp l).map f = sortBy cmp' (l.map f) := by
  unfold sortBy
  apply List.map_insertionSort
  intro x hx y hy
  simp only [Le, h x hx y hy]

theorem sortBy_eq_self {l : List α} (h : l.Pairwise (Le cmp)) :
    sortBy cmp l = l :=
  List.Pairwise.insertionSort_eq h

/-- A sorted list splits at any set its order respects: the elements of an
upper set come first. -/
theorem eq_filter_append_filter {l : List α} (p : α → Bool)
    (hl : l.Pairwise (Le cmp))
    (hp : ∀ x ∈ l, ∀ y ∈ l, (cmp x y).isLE = true → p y = true → p x = true) :
    l = l.filter p ++ l.filter fun x ↦ !p x := by
  induction l with
  | nil => rfl
  | cons x l ih =>
      obtain ⟨hx, hl'⟩ := List.pairwise_cons.mp hl
      cases hpx : p x with
      | true =>
          rw [List.filter_cons_of_pos hpx, List.filter_cons_of_neg (by simp [hpx])]
          rw [List.cons_append, ← ih hl' fun y hy z hz ↦
            hp y (List.mem_cons_of_mem x hy) z (List.mem_cons_of_mem x hz)]
      | false =>
          have hnone : ∀ y ∈ x :: l, p y = false := by
            intro y hy
            rcases List.mem_cons.mp hy with rfl | hyl
            · exact hpx
            · by_contra hpy
              have := hp x List.mem_cons_self y hy (hx y hyl) (by simpa using hpy)
              simp [hpx] at this
          have h₁ : (x :: l).filter p = [] := by
            apply List.filter_eq_nil_iff.mpr
            intro y hy
            simp [hnone y hy]
          have h₂ : ((x :: l).filter fun x ↦ !p x) = x :: l := by
            apply List.filter_eq_self.mpr
            intro y hy
            simp [hnone y hy]
          rw [h₁, h₂, List.nil_append]

end Basic

section Trans

variable (cmp : α → α → Ordering) [TransCmp cmp]

instance instTotalLe : Std.Total (Le cmp) where
  total x y := by
    rw [Le, Le, ← OrientedCmp.isGE_iff_isLE]
    cases cmp y x <;> simp

instance instTransLe : IsTrans α (Le cmp) where
  trans _ _ _ hxy hyz := TransCmp.isLE_trans hxy hyz

theorem pairwise_sortBy (l : List α) :
    (sortBy cmp l).Pairwise (Le cmp) :=
  List.pairwise_insertionSort _ l

private theorem filter_orderedInsert (p : α → Bool) (x : α) :
    ∀ l : List α, l.Pairwise (Le cmp) →
      (l.orderedInsert (Le cmp) x).filter p =
        if p x then (l.filter p).orderedInsert (Le cmp) x
        else l.filter p
  | [], _ => by cases hx : p x <;> simp [hx]
  | y :: l, hl => by
      obtain ⟨hy, hl'⟩ := List.pairwise_cons.mp hl
      have ih := filter_orderedInsert p x l hl'
      by_cases hxy : (cmp x y).isLE = true
      · -- everything after `y` is above `x` too, so `x` goes in front of the filtered list
        have hall : ∀ z ∈ (y :: l).filter p, (cmp x z).isLE = true := by
          intro z hz
          rcases List.mem_cons.mp (List.mem_filter.mp hz).1 with rfl | hzl
          · exact hxy
          · exact TransCmp.isLE_trans hxy (hy z hzl)
        rw [List.orderedInsert_cons_of_le (Le cmp) l hxy]
        cases hx : p x with
        | false => simp [hx]
        | true =>
            rw [List.filter_cons_of_pos hx, if_pos rfl]
            cases hf : (y :: l).filter p with
            | nil => rfl
            | cons z t =>
                have hz := hall z (by rw [hf]; exact List.mem_cons_self)
                rw [List.orderedInsert_cons_of_le (Le cmp) t hz]
      · rw [List.orderedInsert_of_not_le (Le cmp) l hxy]
        cases hpy : p y with
        | false => simp [hpy, ih]
        | true =>
            cases hx : p x with
            | false => simp [hpy, ih, hx]
            | true => simp [hpy, ih, hx, hxy]

/-- Stability: filtering commutes with sorting. -/
theorem filter_sortBy (p : α → Bool) (l : List α) :
    (sortBy cmp l).filter p = sortBy cmp (l.filter p) := by
  induction l with
  | nil => rfl
  | cons x l ih =>
      rw [sortBy_cons, filter_orderedInsert cmp p x _ (pairwise_sortBy cmp l), ih]
      cases hx : p x with
      | false => simp [hx]
      | true => simp [hx, sortBy_cons]

/-- Two sorted permutations of each other agree when only equal elements tie. -/
theorem eq_of_perm_of_pairwise {l l' : List α} (hperm : l.Perm l')
    (hl : l.Pairwise (Le cmp))
    (hl' : l'.Pairwise (Le cmp))
    (htie : ∀ x ∈ l, ∀ y ∈ l, cmp x y = .eq → x = y) : l = l' := by
  refine List.Perm.eq_of_pairwise ?_ hl hl' hperm
  intro x y hx hy hxy hyx
  have hy' : y ∈ l := hperm.mem_iff.mpr hy
  apply htie x hx y hy'
  rw [Le, ← OrientedCmp.isGE_iff_isLE] at hyx
  rw [Le] at hxy
  cases hc : cmp x y with
  | lt => simp [hc] at hyx
  | eq => rfl
  | gt => simp [hc] at hxy

/-- The sorted list depends on the elements only, when no two of them tie. -/
theorem sortBy_eq_of_perm {l l' : List α} (hperm : l.Perm l')
    (htie : ∀ x ∈ l, ∀ y ∈ l, cmp x y = .eq → x = y) : sortBy cmp l = sortBy cmp l' := by
  apply eq_of_perm_of_pairwise cmp
  · exact (perm_sortBy cmp l).trans (hperm.trans (perm_sortBy cmp l').symm)
  · exact pairwise_sortBy cmp l
  · exact pairwise_sortBy cmp l'
  · simpa using htie

/-- `x` stands first among the least elements of a list. -/
def FirstLeast (l : List α) (x : α) : Prop :=
  ∃ pre suf, l = pre ++ x :: suf ∧ (∀ y ∈ pre, cmp x y = .lt) ∧ ∀ y ∈ suf, (cmp x y).isLE = true

omit [TransCmp cmp] in
theorem firstLeast_cons_self {l : List α} {x : α} (h : ∀ y ∈ l, (cmp x y).isLE = true) :
    FirstLeast cmp (x :: l) x :=
  ⟨[], l, rfl, by simp, h⟩

theorem FirstLeast.isLE {l : List α} {x : α} (h : FirstLeast cmp l x) :
    ∀ y ∈ l, (cmp x y).isLE = true := by
  obtain ⟨pre, suf, rfl, hpre, hsuf⟩ := h
  intro y hy
  rcases List.mem_append.mp hy with hy | hy
  · rw [hpre y hy]
    rfl
  · rcases List.mem_cons.mp hy with rfl | hy
    · exact ReflCmp.isLE_rfl
    · exact hsuf y hy

omit [TransCmp cmp] in
theorem FirstLeast.cons {l : List α} {x y : α} (h : FirstLeast cmp l x) (hlt : cmp x y = .lt) :
    FirstLeast cmp (y :: l) x := by
  obtain ⟨pre, suf, rfl, hpre, hsuf⟩ := h
  refine ⟨y :: pre, suf, rfl, fun z hz ↦ ?_, hsuf⟩
  rcases List.mem_cons.mp hz with rfl | hz
  · exact hlt
  · exact hpre z hz

theorem FirstLeast.unique {l : List α} {x y : α} (hx : FirstLeast cmp l x)
    (hy : FirstLeast cmp l y) : x = y := by
  have hxy := hx.isLE
  have hyx := hy.isLE
  obtain ⟨pre, suf, rfl, hpre, hsuf⟩ := hx
  obtain ⟨pre', suf', heq, hpre', hsuf'⟩ := hy
  have hanti : ∀ {x y : α}, cmp x y = .lt → (cmp y x).isLE = true → False := by
    intro x y hlt hle
    rw [@OrientedCmp.eq_swap α cmp _ y x, hlt] at hle
    cases hle
  rcases List.append_eq_append_iff.mp heq with ⟨mid, rfl, hmid⟩ | ⟨mid, rfl, hmid⟩
  · cases mid with
    | nil => exact (List.cons.inj hmid).1
    | cons z mid =>
        obtain ⟨rfl, -⟩ := List.cons.inj hmid
        exact (hanti (hpre' x (by simp)) (hxy y (by rw [heq]; simp))).elim
  · cases mid with
    | nil => exact (List.cons.inj hmid).1.symm
    | cons z mid =>
        obtain ⟨rfl, -⟩ := List.cons.inj hmid
        exact (hanti (hpre y (by simp)) (hyx x (by simp))).elim

theorem exists_firstLeast {l : List α} (h : l ≠ []) :
    ∃ x, (sortBy cmp l).head? = some x ∧ FirstLeast cmp l x := by
  induction l with
  | nil => exact absurd rfl h
  | cons y l ih =>
      rcases List.eq_nil_or_concat l with rfl | hne
      · exact ⟨y, rfl, firstLeast_cons_self cmp (by simp)⟩
      · have hne : l ≠ [] := by
          obtain ⟨l', z, rfl⟩ := hne
          simp
        obtain ⟨x, hhead, hx⟩ := ih hne
        obtain ⟨rest, hrest⟩ : ∃ rest, sortBy cmp l = x :: rest := by
          cases hs : sortBy cmp l with
          | nil => simp [hs] at hhead
          | cons z rest => exact ⟨rest, by rw [hs] at hhead; rw [Option.some.inj hhead]⟩
        rw [sortBy_cons, hrest]
        by_cases hyx : (cmp y x).isLE = true
        · refine ⟨y, ?_, firstLeast_cons_self cmp fun z hz ↦
            TransCmp.isLE_trans hyx (hx.isLE cmp z hz)⟩
          rw [List.orderedInsert_cons_of_le (Le cmp) rest hyx]
          rfl
        · refine ⟨x, ?_, hx.cons cmp ?_⟩
          · rw [List.orderedInsert_of_not_le (Le cmp) rest hyx]
            rfl
          · rw [@OrientedCmp.eq_swap α cmp _ x y]
            cases hc : cmp y x <;> simp_all

/-- A stable sort puts the first of the least elements in front. -/
theorem head?_sortBy_eq_some_iff {l : List α} {x : α} :
    (sortBy cmp l).head? = some x ↔ FirstLeast cmp l x := by
  by_cases hl : l = []
  · subst hl
    simp [FirstLeast]
  · obtain ⟨y, hhead, hy⟩ := exists_firstLeast cmp hl
    rw [hhead, Option.some.injEq]
    exact ⟨fun h ↦ h ▸ hy, fun h ↦ hy.unique cmp h⟩

/-- What ranks strictly before an element of a sorted list stands before it. -/
theorem mem_of_pairwise_of_lt {pre suf : List α} {x y : α}
    (hl : (pre ++ y :: suf).Pairwise (Le cmp)) (hx : x ∈ pre ++ y :: suf)
    (hlt : cmp x y = .lt) : x ∈ pre := by
  have hnot : ¬(cmp y x).isLE = true := by
    rw [@OrientedCmp.eq_swap α cmp _ y x, hlt]
    decide
  rcases List.mem_append.mp hx with hx | hx
  · exact hx
  · obtain ⟨-, hsuf, -⟩ := List.pairwise_append.mp hl
    rcases List.mem_cons.mp hx with rfl | hx
    · exact absurd (@ReflCmp.isLE_rfl α cmp _ x) hnot
    · exact absurd ((List.pairwise_cons.mp hsuf).1 x hx) hnot

end Trans

/-! ## Comparisons through a key -/

section Keys

/-- Compare by a key. -/
def byKey (f : α → β) (cmp : β → β → Ordering) (x y : α) : Ordering := cmp (f x) (f y)

/-- The reversed comparison. -/
def descending (cmp : α → α → Ordering) (x y : α) : Ordering := cmp y x

instance instTransCmpByKey (f : α → β) (cmp : β → β → Ordering) [TransCmp cmp] :
    TransCmp (byKey f cmp) where
  eq_swap {x y} := @OrientedCmp.eq_swap β cmp _ (f x) (f y)
  isLE_trans {x y z} := @TransCmp.isLE_trans β cmp _ (f x) (f y) (f z)

instance instTransCmpDescending (cmp : α → α → Ordering) [TransCmp cmp] :
    TransCmp (descending cmp) :=
  inferInstanceAs (TransCmp fun x y ↦ cmp y x)

theorem compareLex_eq_iff {cmp cmp' : α → α → Ordering} {x y : α} :
    compareLex cmp cmp' x y = .eq ↔ cmp x y = .eq ∧ cmp' x y = .eq := by
  simp [compareLex, Ordering.then_eq_eq]

theorem compareLex_eq_lt_iff {cmp cmp' : α → α → Ordering} {x y : α} :
    compareLex cmp cmp' x y = .lt ↔ cmp x y = .lt ∨ cmp x y = .eq ∧ cmp' x y = .lt := by
  simp [compareLex, Ordering.then_eq_lt]

/-- A lexicographic step down: not above in the first place, below in the second. -/
theorem compareLex_eq_lt {cmp cmp' : α → α → Ordering} {x y : α}
    (h : (cmp x y).isLE = true) (h' : cmp' x y = .lt) : compareLex cmp cmp' x y = .lt := by
  rw [compareLex_eq_lt_iff]
  cases hc : cmp x y with
  | lt => exact Or.inl rfl
  | eq => exact Or.inr ⟨rfl, h'⟩
  | gt => simp [hc] at h

theorem compareLex_isLE_iff {cmp cmp' : α → α → Ordering} {x y : α} :
    (compareLex cmp cmp' x y).isLE = true ↔
      cmp x y = .lt ∨ cmp x y = .eq ∧ (cmp' x y).isLE = true := by
  unfold compareLex
  cases cmp x y <;> simp [Ordering.then]

end Keys

/-! ## Removing repeats -/

section Dedup

variable {κ : Type*} [DecidableEq κ]

/-- Drop every element whose key repeats the one kept before it. -/
def dedupBy (f : α → κ) (l : List α) : List α := l.destutter fun x y ↦ f x ≠ f y

theorem dedupBy_sublist (f : α → κ) (l : List α) : (dedupBy f l).Sublist l :=
  List.destutter_sublist _ l

private theorem find?_destutter' (f : α → κ) (k : κ) (x : α) (l : List α) :
    (l.destutter' (fun x y ↦ f x ≠ f y) x).find? (fun y ↦ f y == k) =
      (x :: l).find? fun y ↦ f y == k := by
  induction l generalizing x with
  | nil => rfl
  | cons y l ih =>
      by_cases hxy : f x = f y
      · rw [List.destutter'_cons_neg l (not_not.mpr hxy), ih, List.find?_cons, List.find?_cons,
          List.find?_cons, hxy]
        cases f y == k <;> rfl
      · rw [List.destutter'_cons_pos (R := fun x y ↦ f x ≠ f y) l hxy, List.find?_cons,
          List.find?_cons, ih]

/-- Of every key, the first element is kept. -/
theorem find?_dedupBy (f : α → κ) (k : κ) (l : List α) :
    (dedupBy f l).find? (fun x ↦ f x == k) = l.find? fun x ↦ f x == k := by
  cases l with
  | nil => rfl
  | cons x l => exact find?_destutter' f k x l

/-- On a list sorted by key, what is kept is strictly sorted. -/
theorem pairwise_dedupBy (f : α → κ) (cmp : κ → κ → Ordering) [TransCmp cmp] [LawfulEqCmp cmp]
    {l : List α} (hl : l.Pairwise (Le (byKey f cmp))) :
    (dedupBy f l).Pairwise fun x y ↦ cmp (f x) (f y) = .lt := by
  have hsorted : (dedupBy f l).IsChain (Le (byKey f cmp)) :=
    (hl.sublist (dedupBy_sublist f l)).isChain
  have hne : (dedupBy f l).IsChain fun x y ↦ f x ≠ f y := List.isChain_destutter _ l
  have hlt : (dedupBy f l).IsChain fun x y ↦ cmp (f x) (f y) = .lt := by
    rw [List.isChain_iff_getElem] at hsorted hne ⊢
    intro i hi
    have hle := hsorted i hi
    have hneq := fun heq ↦ hne i hi (@LawfulEqCmp.eq_of_compare κ cmp _ _ _ heq)
    rw [Le, byKey] at hle
    cases hc : cmp (f (dedupBy f l)[i]) (f (dedupBy f l)[i + 1]) with
    | lt => rfl
    | eq => exact absurd hc hneq
    | gt => simp [hc] at hle
  have htrans : IsTrans α fun x y ↦ cmp (f x) (f y) = .lt :=
    ⟨fun _ _ _ h h' ↦ TransCmp.lt_trans h h'⟩
  exact List.isChain_iff_pairwise.mp hlt

variable [DecidableEq α] (cmp : α → α → Ordering)

/-- Sort and drop repeats. -/
def sortDedup (l : List α) : List α := (sortBy cmp l).destutter (· ≠ ·)

variable [TransCmp cmp] [LawfulEqCmp cmp]

instance instAntisymmLe : Std.Antisymm (Le cmp) where
  antisymm x y hxy hyx := by
    rw [Le, ← OrientedCmp.isGE_iff_isLE] at hyx
    rw [Le] at hxy
    apply @LawfulEqCmp.eq_of_compare α cmp
    cases hc : cmp x y with
    | lt => simp [hc] at hyx
    | eq => rfl
    | gt => simp [hc] at hxy

theorem sortDedup_eq_dedup (l : List α) : sortDedup cmp l = (sortBy cmp l).dedup :=
  (pairwise_sortBy cmp l).destutter_eq_dedup

@[simp] theorem mem_sortDedup {l : List α} {x : α} : x ∈ sortDedup cmp l ↔ x ∈ l := by
  rw [sortDedup_eq_dedup, List.mem_dedup, mem_sortBy]

theorem pairwise_sortDedup (l : List α) :
    (sortDedup cmp l).Pairwise fun x y ↦ cmp x y = .lt :=
  pairwise_dedupBy id cmp (pairwise_sortBy cmp l)

omit [LawfulEqCmp cmp] [DecidableEq α] in
theorem eq_of_mem_iff {l l' : List α} (hl : l.Pairwise fun x y ↦ cmp x y = .lt)
    (hl' : l'.Pairwise fun x y ↦ cmp x y = .lt) (hmem : ∀ x, x ∈ l ↔ x ∈ l') : l = l' := by
  have hirr : ∀ {x y : α}, cmp x y = .lt → x ≠ y := by
    rintro x y hxy rfl
    exact OrientedCmp.not_lt_of_lt hxy hxy
  have hperm : l.Perm l' :=
    (List.perm_ext_iff_of_nodup (hl.imp hirr) (hl'.imp hirr)).mpr hmem
  refine List.Perm.eq_of_pairwise ?_ hl hl' hperm
  intro x y _ _ hxy hyx
  exact absurd hyx (OrientedCmp.not_lt_of_lt hxy)

end Dedup

/-- Sorted positions without repeats are a filter of the positions. -/
theorem sortDedup_eq_filter_range {n : ℕ} {l : List ℕ} (hl : ∀ x ∈ l, x < n) :
    sortDedup compare l = (List.range n).filter (· ∈ l) := by
  apply eq_of_mem_iff compare (pairwise_sortDedup compare l)
  · apply List.Pairwise.filter
    exact List.pairwise_lt_range.imp fun h ↦ Nat.compare_eq_lt.mpr h
  · intro x
    simp only [mem_sortDedup, List.mem_filter, List.mem_range, decide_eq_true_eq]
    exact ⟨fun hx ↦ ⟨hl x hx, hx⟩, fun hx ↦ hx.2⟩

end StableSort
