import Mathlib

/-!
# Maps built from lists

A finite map collected from a list of pairs, where a later pair overwrites an
earlier one, and a map of buckets filled by appending.  Both are Mathlib's
association lists; the rules below describe their lookups by the list alone.
-/

namespace KeyMap

variable {κ ν : Type*} [DecidableEq κ]

/-- A finite map from keys to values. -/
abbrev Map (κ ν : Type*) := AList fun _ : κ ↦ ν

theorem lookup_insert_eq_some_iff {m : Map κ ν} {k j : κ} {v w : ν} :
    (m.insert k v).lookup j = some w ↔ j = k ∧ v = w ∨ j ≠ k ∧ m.lookup j = some w := by
  by_cases hj : j = k
  · subst hj
    rw [AList.lookup_insert]
    simp
  · rw [AList.lookup_insert_ne hj]
    simp [hj]

theorem lookup_of_union {m m' : Map κ ν} {k : κ} {v : ν} (h : (m' ∪ m).lookup k = some v) :
    m'.lookup k = some v ∨ m.lookup k = some v :=
  (AList.mem_lookup_union.mp h).imp_right And.right

theorem lookup_empty_ne_some (k : κ) (v : ν) : (∅ : Map κ ν).lookup k ≠ some v := by
  simp

theorem length_keys_le {κ ν : Type*} {m m' : Map κ ν} (h : ∀ k ∈ m, k ∈ m') :
    m.keys.length ≤ m'.keys.length :=
  (m.keys_nodup.subperm fun k hk ↦ AList.mem_keys.mp (h k (AList.mem_keys.mpr hk))).length_le

theorem length_keys_lt {κ ν : Type*} {m m' : Map κ ν} (h : ∀ k ∈ m, k ∈ m') {j : κ} (hj : j ∈ m')
    (hnew : j ∉ m) : m.keys.length < m'.keys.length := by
  have hnodup : (j :: m.keys).Nodup := List.nodup_cons.mpr ⟨hnew, m.keys_nodup⟩
  refine (hnodup.subperm fun k hk ↦ ?_).length_le
  rcases List.mem_cons.mp hk with rfl | hk
  · exact AList.mem_keys.mp hj
  · exact AList.mem_keys.mp (h k (AList.mem_keys.mpr hk))

/-- Collect a list of pairs, later pairs overwriting earlier ones. -/
def collect (l : List (κ × ν)) : Map κ ν :=
  l.foldl (fun m p ↦ m.insert p.1 p.2) ∅

@[simp] theorem lookup_collect_nil (k : κ) :
    (collect ([] : List (κ × ν))).lookup k = none := rfl

theorem collect_append_singleton (l : List (κ × ν)) (p : κ × ν) :
    collect (l ++ [p]) = (collect l).insert p.1 p.2 := by
  simp [collect]

theorem lookup_collect_append_singleton (l : List (κ × ν)) (p : κ × ν) (k : κ) :
    (collect (l ++ [p])).lookup k = if k = p.1 then some p.2 else (collect l).lookup k := by
  rw [collect_append_singleton]
  by_cases hk : k = p.1
  · subst hk
    simp
  · rw [if_neg hk, AList.lookup_insert_ne hk]

/-- The value of a key is the one of its last pair. -/
theorem lookup_collect_eq_some_iff {l : List (κ × ν)} {k : κ} {v : ν} :
    (collect l).lookup k = some v ↔
      ∃ pre suf, l = pre ++ (k, v) :: suf ∧ ∀ p ∈ suf, p.1 ≠ k := by
  induction l using List.reverseRecOn with
  | nil => simp
  | append_singleton l p ih =>
      rw [lookup_collect_append_singleton]
      by_cases hk : k = p.1
      · rw [if_pos hk]
        constructor
        · intro hv
          refine ⟨l, [], ?_, by simp⟩
          rw [hk, ← Option.some.inj hv]
        · rintro ⟨pre, suf, hl, hsuf⟩
          rcases List.eq_nil_or_concat suf with rfl | ⟨suf, q, rfl⟩
          · have hp := (List.append_inj' hl rfl).2
            simp [(List.cons.inj hp).1]
          · have hsplit : l ++ [p] = (pre ++ (k, v) :: suf) ++ [q] := by
              simpa [List.append_assoc] using hl
            have hp := (List.append_inj' hsplit rfl).2
            exact (hsuf p (by simp [(List.cons.inj hp).1]) hk.symm).elim
      · rw [if_neg hk, ih]
        constructor
        · rintro ⟨pre, suf, rfl, hsuf⟩
          refine ⟨pre, suf ++ [p], by simp, ?_⟩
          intro q hq
          rcases List.mem_append.mp hq with hq | hq
          · exact hsuf q hq
          · rw [List.mem_singleton.mp hq]
            exact fun h ↦ hk h.symm
        · rintro ⟨pre, suf, hl, hsuf⟩
          rcases List.eq_nil_or_concat suf with rfl | ⟨suf, q, rfl⟩
          · have hp := (List.append_inj' hl rfl).2
            exact (hk (by simp [(List.cons.inj hp).1])).elim
          · have hsplit : l ++ [p] = (pre ++ (k, v) :: suf) ++ [q] := by
              simpa [List.append_assoc] using hl
            refine ⟨pre, suf, (List.append_inj' hsplit rfl).1, fun r hr ↦ ?_⟩
            exact hsuf r (by simp [hr])

theorem mem_of_lookup_collect {l : List (κ × ν)} {k : κ} {v : ν}
    (h : (collect l).lookup k = some v) : (k, v) ∈ l := by
  obtain ⟨pre, suf, rfl, -⟩ := lookup_collect_eq_some_iff.mp h
  simp

theorem lookup_collect_eq_none_iff {l : List (κ × ν)} {k : κ} :
    (collect l).lookup k = none ↔ ∀ p ∈ l, p.1 ≠ k := by
  induction l using List.reverseRecOn with
  | nil => simp
  | append_singleton l p ih =>
      rw [lookup_collect_append_singleton]
      by_cases hk : k = p.1
      · rw [if_pos hk]
        simp only [reduceCtorEq, List.mem_append, List.mem_singleton, false_iff]
        intro h
        exact h p (Or.inr rfl) hk.symm
      · rw [if_neg hk, ih]
        constructor
        · intro h q hq
          rcases List.mem_append.mp hq with hq | hq
          · exact h q hq
          · rw [List.mem_singleton.mp hq]
            exact fun h ↦ hk h.symm
        · intro h q hq
          exact h q (List.mem_append_left _ hq)

theorem lookup_collect_of_nodup {l : List (κ × ν)} (hl : (l.map Prod.fst).Nodup)
    {k : κ} {v : ν} : (collect l).lookup k = some v ↔ (k, v) ∈ l := by
  refine ⟨mem_of_lookup_collect, fun h ↦ ?_⟩
  obtain ⟨pre, suf, rfl⟩ := List.append_of_mem h
  refine lookup_collect_eq_some_iff.mpr ⟨pre, suf, rfl, fun p hp hpk ↦ ?_⟩
  rw [List.map_append, List.map_cons] at hl
  have hnot := (List.nodup_cons.mp (List.nodup_append.mp hl).2.1).1
  exact hnot (List.mem_map.mpr ⟨p, hp, hpk⟩)

/-- Renaming the keys apart renames the lookups. -/
theorem lookup_collect_map {κ' : Type*} [DecidableEq κ'] {f : κ → κ'}
    (hf : Function.Injective f) (l : List (κ × ν)) (k : κ) :
    (collect (l.map fun p ↦ (f p.1, p.2))).lookup (f k) = (collect l).lookup k := by
  induction l using List.reverseRecOn with
  | nil => rfl
  | append_singleton l p ih =>
      rw [List.map_append, List.map_singleton, lookup_collect_append_singleton,
        lookup_collect_append_singleton, ih]
      simp only [hf.eq_iff]

/-! ## Positions by key -/

/-- The position of the last element with a key; some elements have none. -/
def indexByOpt {α : Type*} (f : α → Option κ) (l : List α) : Map κ ℕ :=
  collect (l.zipIdx.filterMap fun p ↦ (f p.1).map fun k ↦ (k, p.2))

def indexBy {α : Type*} (f : α → κ) (l : List α) : Map κ ℕ :=
  collect (l.zipIdx.map fun p ↦ (f p.1, p.2))

section Positions

variable {α : Type*}

theorem map_getD_range (l : List α) (d : α) :
    (List.range l.length).map (fun i ↦ l.getD i d) = l := by
  apply List.ext_getElem (by simp)
  intro i h₁ h₂
  rw [List.getElem_map, List.getElem_range, List.getD_eq_getElem l d h₂]

theorem zipIdx_eq_map_range {α : Type*} (l : List α) (d : α) :
    l.zipIdx = (List.range l.length).map fun i ↦ (l.getD i d, i) := by
  apply List.ext_getElem (by simp)
  intro i h₁ h₂
  have hi : i < l.length := by simpa using h₂
  simp [hi]

theorem getElem?_append_singleton_iff {l : List α} {x y : α} {i : ℕ} :
    (l ++ [y])[i]? = some x ↔ l[i]? = some x ∨ i = l.length ∧ y = x := by
  rw [List.getElem?_append]
  by_cases hi : i < l.length
  · simp [hi, hi.ne]
  · rw [if_neg hi, List.getElem?_eq_none (not_lt.mp hi), List.getElem?_singleton]
    by_cases h0 : i - l.length = 0
    · rw [if_pos h0]
      simp [Nat.le_antisymm (Nat.sub_eq_zero_iff_le.mp h0) (not_lt.mp hi)]
    · rw [if_neg h0]
      have hne : i ≠ l.length := fun h ↦ h0 (by rw [h, Nat.sub_self])
      simp [hne]

theorem lookup_indexByOpt_append_singleton (f : α → Option κ) (l : List α) (y : α) (k : κ) :
    (indexByOpt f (l ++ [y])).lookup k =
      if f y = some k then some l.length else (indexByOpt f l).lookup k := by
  rw [indexByOpt, List.zipIdx_append, List.filterMap_append, List.zipIdx_singleton]
  cases hy : f y with
  | none => simp [indexByOpt, hy]
  | some k' =>
      simp only [List.filterMap_cons, List.filterMap_nil, hy, Option.map_some, Nat.zero_add]
      rw [lookup_collect_append_singleton]
      by_cases hk : k = k'
      · simp [hk]
      · rw [if_neg hk, if_neg fun h ↦ hk (Option.some.inj h).symm]
        rfl

theorem lookup_indexByOpt_eq_some_iff {f : α → Option κ} {l : List α} {k : κ} {j : ℕ} :
    (indexByOpt f l).lookup k = some j ↔
      (∃ x, l[j]? = some x ∧ f x = some k) ∧
        ∀ i x, j < i → l[i]? = some x → f x ≠ some k := by
  induction l using List.reverseRecOn with
  | nil => simp [indexByOpt]
  | append_singleton l y ih =>
      rw [lookup_indexByOpt_append_singleton]
      by_cases hk : f y = some k
      · rw [if_pos hk]
        constructor
        · intro hj
          obtain rfl : l.length = j := Option.some.inj hj
          refine ⟨⟨y, by simp, hk⟩, fun i x hi hx ↦ ?_⟩
          have hlen := (List.getElem?_eq_some_iff.mp hx).1
          rw [List.length_append, List.length_singleton] at hlen
          exact absurd hi (not_lt.mpr (Nat.lt_succ_iff.mp hlen))
        · rintro ⟨⟨x, hx, -⟩, hafter⟩
          have hle : l.length ≤ j :=
            not_lt.mp fun hlt ↦ hafter l.length y hlt (by simp) hk
          rcases getElem?_append_singleton_iff.mp hx with hx | ⟨rfl, -⟩
          · exact absurd (List.getElem?_eq_some_iff.mp hx).1 (not_lt.mpr hle)
          · rfl
      · rw [if_neg hk, ih]
        constructor
        · rintro ⟨⟨x, hx, hfx⟩, hafter⟩
          refine ⟨⟨x, getElem?_append_singleton_iff.mpr (Or.inl hx), hfx⟩, fun i z hi hz ↦ ?_⟩
          rcases getElem?_append_singleton_iff.mp hz with hz | ⟨-, rfl⟩
          · exact hafter i z hi hz
          · exact hk
        · rintro ⟨⟨x, hx, hfx⟩, hafter⟩
          refine ⟨?_, fun i z hi hz ↦
            hafter i z hi (getElem?_append_singleton_iff.mpr (Or.inl hz))⟩
          rcases getElem?_append_singleton_iff.mp hx with hx | ⟨-, rfl⟩
          · exact ⟨x, hx, hfx⟩
          · exact absurd hfx hk

theorem lookup_indexBy_eq_some_iff {f : α → κ} {l : List α} {k : κ} {j : ℕ} :
    (indexBy f l).lookup k = some j ↔
      (∃ x, l[j]? = some x ∧ f x = k) ∧ ∀ i x, j < i → l[i]? = some x → f x ≠ k := by
  have heq : indexBy f l = indexByOpt (fun x ↦ some (f x)) l := by
    rw [indexBy, indexByOpt, ← List.filterMap_eq_map]
    rfl
  rw [heq, lookup_indexByOpt_eq_some_iff]
  simp

end Positions

/-! ## Buckets -/

/-- Append a value to the bucket of a key. -/
def push (m : Map κ (List ν)) (p : κ × ν) : Map κ (List ν) :=
  m.insert p.1 ((m.lookup p.1).getD [] ++ [p.2])

def buckets (l : List (κ × ν)) : Map κ (List ν) := l.foldl push ∅

/-- The bucket of a key holds the values of its pairs, in order. -/
theorem lookup_buckets (l : List (κ × ν)) (k : κ) :
    ((buckets l).lookup k).getD [] = (l.filter fun p ↦ p.1 = k).map Prod.snd := by
  induction l using List.reverseRecOn with
  | nil => rfl
  | append_singleton l p ih =>
      rw [buckets, List.foldl_append, List.foldl_cons, List.foldl_nil, ← buckets, push,
        List.filter_append, List.map_append, ← ih]
      by_cases hk : p.1 = k
      · subst hk
        simp
      · rw [AList.lookup_insert_ne (Ne.symm hk)]
        simp [hk]

/-! ## Vectors filled by position -/

section Fill

variable {ν : Type*}

/-- A vector of `n` defaults with some positions written, later writes winning. -/
def fill (n : ℕ) (d : ν) (l : List (ℕ × ν)) : List ν :=
  l.foldl (fun v p ↦ v.set p.1 p.2) (List.replicate n d)

@[simp] theorem fill_nil (n : ℕ) (d : ν) : fill n d [] = List.replicate n d := rfl

theorem fill_append_singleton (n : ℕ) (d : ν) (l : List (ℕ × ν)) (p : ℕ × ν) :
    fill n d (l ++ [p]) = (fill n d l).set p.1 p.2 := by
  simp [fill]

@[simp] theorem length_fill (n : ℕ) (d : ν) (l : List (ℕ × ν)) : (fill n d l).length = n := by
  induction l using List.reverseRecOn with
  | nil => simp
  | append_singleton l p ih => rw [fill_append_singleton, List.length_set, ih]

/-- Inside the vector, filling is collecting. -/
theorem getD_fill {n : ℕ} (d : ν) (l : List (ℕ × ν)) {i : ℕ} (hi : i < n) :
    (fill n d l).getD i d = ((collect l).lookup i).getD d := by
  induction l using List.reverseRecOn with
  | nil => simp [hi]
  | append_singleton l p ih =>
      rw [fill_append_singleton, lookup_collect_append_singleton, List.getD_eq_getElem?_getD,
        List.getElem?_set, length_fill]
      by_cases hp : p.1 = i
      · simp [hp, hi]
      · rw [if_neg hp, if_neg (Ne.symm hp), ← List.getD_eq_getElem?_getD, ih]

theorem getD_fill_of_le {n : ℕ} (d : ν) (l : List (ℕ × ν)) {i : ℕ} (hi : n ≤ i) :
    (fill n d l).getD i d = d :=
  List.getD_eq_default _ d (by rwa [length_fill])

end Fill

/-- A vector of `n` buckets, each value appended to the bucket of its position. -/
def scatter {ν : Type*} (n : ℕ) (l : List (ℕ × ν)) : List (List ν) :=
  l.foldl (fun v p ↦ v.modify p.1 (· ++ [p.2])) (List.replicate n [])

@[simp] theorem length_scatter {ν : Type*} (n : ℕ) (l : List (ℕ × ν)) :
    (scatter n l).length = n := by
  induction l using List.reverseRecOn with
  | nil => simp [scatter]
  | append_singleton l p ih =>
      rw [scatter, List.foldl_append, List.foldl_cons, List.foldl_nil, ← scatter,
        List.length_modify, ih]

/-- Inside the vector a bucket holds the values of its position, in order. -/
theorem getD_scatter {ν : Type*} {n : ℕ} (l : List (ℕ × ν)) {i : ℕ} (hi : i < n) :
    (scatter n l).getD i [] = (l.filter fun p ↦ p.1 = i).map Prod.snd := by
  induction l using List.reverseRecOn with
  | nil => simp [scatter, hi]
  | append_singleton l p ih =>
      have hlen : i < (scatter n l).length := by rwa [length_scatter]
      rw [List.getD_eq_getElem _ [] hlen] at ih
      have hlen' : i < ((scatter n l).modify p.1 (· ++ [p.2])).length := by
        rwa [List.length_modify]
      rw [scatter, List.foldl_append, List.foldl_cons, List.foldl_nil, ← scatter,
        List.getD_eq_getElem _ [] hlen', List.getElem_modify, ih, List.filter_append,
        List.map_append]
      by_cases hp : p.1 = i
      · simp [hp]
      · simp [hp]

end KeyMap
