import Fnprint.Align

/-!
# Neighbour lists and binaries

A callee entry becomes a neighbour through a map from entries to positions.
On the corpus side of a query that map is keyed by the binary as well.  An
index loaded back from a corpus has lost the binary, so its edges stay inside
their binary exactly when the last row of each callee entry does.
-/

namespace Fnprint

open StableSort KeyMap

/-! ## Callees and callers -/

/-- The calls of some callee lists, as (callee, caller). -/
def calls (callees : List (List ℕ)) : List (ℕ × ℕ) :=
  callees.zipIdx.flatMap fun p ↦ p.1.map fun c ↦ (c, p.2)

theorem mem_calls {callees : List (List ℕ)} {c i : ℕ} :
    (c, i) ∈ calls callees ↔ c ∈ callees.getD i [] := by
  rw [List.getD_eq_getElem?_getD]
  constructor
  · intro h
    obtain ⟨⟨cs, k⟩, hk, hmem⟩ := List.mem_flatMap.mp h
    obtain ⟨c', hc', heq⟩ := List.mem_map.mp hmem
    obtain ⟨rfl, rfl⟩ := Prod.mk.inj heq
    rw [List.mem_zipIdx_iff_getElem?.mp hk]
    exact hc'
  · intro h
    cases hcs : callees[i]? with
    | none => simp [hcs] at h
    | some cs =>
        rw [hcs, Option.getD_some] at h
        exact List.mem_flatMap.mpr
          ⟨(cs, i), List.mem_zipIdx_iff_getElem?.mpr hcs, List.mem_map.mpr ⟨c, h, rfl⟩⟩

theorem reverse_eq (callees : List (List ℕ)) (n : ℕ) :
    reverse callees n = (scatter n (calls callees)).map (sortDedup compare) := by
  rw [reverse, scatter, calls, List.foldl_flatMap]
  simp only [List.foldl_map]

/-- The callers of `c` are the positions that have `c` among their callees. -/
theorem mem_reverse {callees : List (List ℕ)} {n c i : ℕ} (hc : c < n) :
    i ∈ (reverse callees n).getD c [] ↔ c ∈ callees.getD i [] := by
  have hlen : c < (scatter n (calls callees)).length := by rwa [length_scatter]
  have hget : (reverse callees n).getD c [] =
      sortDedup compare ((scatter n (calls callees)).getD c []) := by
    rw [reverse_eq, List.getD_eq_getElem _ [] (by rwa [List.length_map]), List.getElem_map,
      List.getD_eq_getElem _ [] hlen]
  rw [hget, mem_sortDedup, getD_scatter _ hc, ← mem_calls]
  simp only [List.mem_map, List.mem_filter, decide_eq_true_eq]
  constructor
  · rintro ⟨⟨c', i'⟩, ⟨hmem, rfl⟩, rfl⟩
    exact hmem
  · intro hmem
    exact ⟨(c, i), ⟨hmem, rfl⟩, rfl⟩

theorem reverse_of_le {callees : List (List ℕ)} {n c : ℕ} (hc : n ≤ c) :
    (reverse callees n).getD c [] = [] :=
  List.getD_eq_default _ _ (by rwa [reverse_eq, List.length_map, length_scatter])

theorem pairwise_reverse (callees : List (List ℕ)) (n c : ℕ) :
    ((reverse callees n).getD c []).Pairwise fun i j ↦ compare i j = .lt := by
  rcases Nat.lt_or_ge c n with hc | hc
  · rw [reverse_eq, List.getD_eq_getElem _ [] (by rwa [List.length_map, length_scatter]),
      List.getElem_map]
    exact pairwise_sortDedup compare _
  · rw [reverse_of_le hc]
    exact List.Pairwise.nil

theorem increasing_reverse (callees : List (List ℕ)) (n c : ℕ) :
    ((reverse callees n).getD c []).Pairwise (· < ·) :=
  (pairwise_reverse callees n c).imp fun h ↦ Nat.compare_eq_lt.mp h

theorem mem_aCallees {a : List Node} {i j : ℕ} :
    j ∈ (aCallees a).getD i [] ↔
      ∃ n, a[i]? = some n ∧ ∃ e ∈ n.callees, (aIdx a).lookup e = some j := by
  rw [aCallees, List.getD_eq_getElem?_getD, List.getElem?_map]
  cases h : a[i]? with
  | none => simp
  | some n => simp [List.mem_filterMap]

theorem mem_bCallees {b : List Node} {i j : ℕ} :
    j ∈ (bCallees b).getD i [] ↔
      ∃ n, b[i]? = some n ∧ ∃ e ∈ n.callees, (bIdx b).lookup (n.group, e) = some j := by
  rw [bCallees, List.getD_eq_getElem?_getD, List.getElem?_map]
  cases h : b[i]? with
  | none => simp
  | some n => simp [List.mem_filterMap]

/-! ## Rows behind the edges -/

/-- The call goes from one row to another of the same binary. -/
def Linked (rows : List FuncRec) (caller callee : ℕ) : Prop :=
  ∃ r s, rows[caller]? = some r ∧ rows[callee]? = some s ∧
    r.binary = s.binary ∧ s.entry ∈ r.callees

/-- All edges of some neighbour lists are calls inside a binary. -/
structure StayInside (rows : List FuncRec) (callees callers : List (List ℕ)) : Prop where
  callee : ∀ n m, m ∈ callees.getD n [] → Linked rows n m
  caller : ∀ n m, m ∈ callers.getD n [] → Linked rows m n

/-- The callers are the callees read backwards, so one half is enough. -/
theorem stayInside_reverse_iff {rows : List FuncRec} {callees : List (List ℕ)} {n : ℕ} :
    StayInside rows callees (reverse callees n) ↔
      ∀ n m, m ∈ callees.getD n [] → Linked rows n m := by
  refine ⟨fun h ↦ h.callee, fun h ↦ ⟨h, fun i j hj ↦ ?_⟩⟩
  rcases Nat.lt_or_ge i n with hi | hi
  · exact h j i ((mem_reverse hi).mp hj)
  · rw [reverse_of_le hi] at hj
    exact absurd hj List.not_mem_nil

/-- The conversion of a corpus into an index. -/
def loadIndex (recs : List FuncRec) : List IndexedFunc :=
  recs.map fun r ↦
    { name := r.name
      entry := r.entry
      source := .symtab
      fp := r.fp
      coverage := 1.0
      callees := r.callees }

/-- The rows a query aligns with: the named ones. -/
def queryRows (recs : List FuncRec) : List FuncRec := recs.filter fun r ↦ r.name.isSome

/-- Whatever a corpus is aligned with, and on whatever side, its call edges
stay inside their binary. -/
structure EdgesInside (recs : List FuncRec) : Prop where
  query : ∀ target, let g := graphOf target ((queryRows recs).map Node.fromRec)
    StayInside (queryRows recs) g.bCallees g.bCallers
  loaded_a : ∀ other, let g := graphOf ((loadIndex recs).map Node.fromIndexed) other
    StayInside recs g.aCallees g.aCallers
  loaded_b : ∀ other, let g := graphOf other ((loadIndex recs).map Node.fromIndexed)
    StayInside recs g.bCallees g.bCallers

/-- The row at a position, no later row having its entry. -/
structure LastAt (recs : List FuncRec) (j : ℕ) (s : FuncRec) : Prop where
  row : recs[j]? = some s
  last : ∀ i t, j < i → recs[i]? = some t → t.entry ≠ s.entry

/-- The last row of every callee entry belongs to the caller's binary. -/
def SelfContained (recs : List FuncRec) : Prop :=
  ∀ r ∈ recs, ∀ j s, LastAt recs j s → s.entry ∈ r.callees → s.binary = r.binary

theorem getElem?_loaded (recs : List FuncRec) (i : ℕ) :
    ((loadIndex recs).map Node.fromIndexed)[i]? =
      recs[i]?.map fun r ↦ ⟨r.fp, r.entry, r.callees, r.name, ""⟩ := by
  rw [loadIndex, List.map_map, List.getElem?_map]
  rfl

/-- A map that looks at the entry alone links a loaded row to the last one with
the callee's entry. -/
theorem linked_iff_selfContained {recs : List FuncRec} {callees : List (List ℕ)}
    (hmem : ∀ i j, j ∈ callees.getD i [] ↔ ∃ r, recs[i]? = some r ∧
      ∃ s, LastAt recs j s ∧ s.entry ∈ r.callees) :
    (∀ n m, m ∈ callees.getD n [] → Linked recs n m) ↔ SelfContained recs := by
  constructor
  · intro h r hr j s hs he
    obtain ⟨i, hi, rfl⟩ := List.mem_iff_getElem.mp hr
    have hri : recs[i]? = some recs[i] := List.getElem?_eq_getElem hi
    obtain ⟨r', s', hr', hs', hbinary, -⟩ :=
      h i j ((hmem i j).mpr ⟨recs[i], hri, s, hs, he⟩)
    rw [hri] at hr'
    rw [hs.row] at hs'
    rw [Option.some.inj hr', Option.some.inj hs']
    exact hbinary.symm
  · intro h i j hj
    obtain ⟨r, hr, s, hs, he⟩ := (hmem i j).mp hj
    exact ⟨r, s, hr, hs.row, (h r (List.mem_of_getElem? hr) j s hs he).symm, he⟩

theorem mem_aCallees_loaded {recs : List FuncRec} {i j : ℕ} :
    j ∈ (aCallees ((loadIndex recs).map Node.fromIndexed)).getD i [] ↔
      ∃ r, recs[i]? = some r ∧ ∃ s, LastAt recs j s ∧ s.entry ∈ r.callees := by
  simp only [mem_aCallees, aIdx, lookup_indexBy_eq_some_iff, getElem?_loaded,
    Option.map_eq_some_iff]
  constructor
  · rintro ⟨-, ⟨r, hr, rfl⟩, e, he, ⟨-, ⟨s, hs, rfl⟩, rfl⟩, hlast⟩
    exact ⟨r, hr, s, ⟨hs, fun k t hk ht ↦ hlast k _ hk ⟨t, ht, rfl⟩⟩, he⟩
  · rintro ⟨r, hr, s, ⟨hs, hlast⟩, he⟩
    refine ⟨_, ⟨r, hr, rfl⟩, s.entry, he, ⟨_, ⟨s, hs, rfl⟩, rfl⟩, ?_⟩
    rintro k - hk ⟨t, ht, rfl⟩
    exact hlast k t hk ht

theorem mem_bCallees_loaded {recs : List FuncRec} {i j : ℕ} :
    j ∈ (bCallees ((loadIndex recs).map Node.fromIndexed)).getD i [] ↔
      ∃ r, recs[i]? = some r ∧ ∃ s, LastAt recs j s ∧ s.entry ∈ r.callees := by
  simp only [mem_bCallees, bIdx, lookup_indexBy_eq_some_iff, getElem?_loaded,
    Option.map_eq_some_iff]
  constructor
  · rintro ⟨-, ⟨r, hr, rfl⟩, e, he, ⟨-, ⟨s, hs, rfl⟩, heq⟩, hlast⟩
    obtain rfl : s.entry = e := (Prod.mk.inj heq).2
    refine ⟨r, hr, s, ⟨hs, fun k t hk ht hte ↦ hlast k _ hk ⟨t, ht, rfl⟩ ?_⟩, he⟩
    rw [hte]
  · rintro ⟨r, hr, s, ⟨hs, hlast⟩, he⟩
    refine ⟨_, ⟨r, hr, rfl⟩, s.entry, he, ⟨_, ⟨s, hs, rfl⟩, rfl⟩, ?_⟩
    rintro k - hk ⟨t, ht, rfl⟩ heq
    exact hlast k t hk ht (Prod.mk.inj heq).2

/-- Keyed by binary and entry, the corpus side of a query never leaves a binary. -/
theorem linked_of_mem_bCallees_fromRec {rows : List FuncRec} {i j : ℕ}
    (h : j ∈ (bCallees (rows.map Node.fromRec)).getD i []) : Linked rows i j := by
  simp only [mem_bCallees, bIdx, lookup_indexBy_eq_some_iff, List.getElem?_map,
    Option.map_eq_some_iff] at h
  obtain ⟨-, ⟨r, hr, rfl⟩, e, he, ⟨-, ⟨s, hs, rfl⟩, heq⟩, -⟩ := h
  obtain ⟨hbinary, hentry⟩ := Prod.mk.inj heq
  refine ⟨r, s, hr, hs, hbinary.symm, ?_⟩
  rw [← hentry] at he
  exact he

/-- The edges of a corpus stay inside their binaries, however it is aligned,
exactly when the entries alone already tell the binaries apart. -/
theorem edgesInside_iff (recs : List FuncRec) : EdgesInside recs ↔ SelfContained recs := by
  have ha : ∀ other, (let g := graphOf ((loadIndex recs).map Node.fromIndexed) other
      StayInside recs g.aCallees g.aCallers) ↔ SelfContained recs := fun other ↦
    stayInside_reverse_iff.trans (linked_iff_selfContained fun _ _ ↦ mem_aCallees_loaded)
  have hb : ∀ other, (let g := graphOf other ((loadIndex recs).map Node.fromIndexed)
      StayInside recs g.bCallees g.bCallers) ↔ SelfContained recs := fun other ↦
    stayInside_reverse_iff.trans (linked_iff_selfContained fun _ _ ↦ mem_bCallees_loaded)
  have hquery : ∀ target, let g := graphOf target ((queryRows recs).map Node.fromRec)
      StayInside (queryRows recs) g.bCallees g.bCallers := fun target ↦
    stayInside_reverse_iff.mpr fun _ _ ↦ linked_of_mem_bCallees_fromRec
  exact ⟨fun h ↦ (ha []).mp (h.loaded_a []),
    fun h ↦ ⟨hquery, fun other ↦ (ha other).mpr h, fun other ↦ (hb other).mpr h⟩⟩

/-- Two binaries with a function at the same entry; the first calls its own. -/
def twoBinaries : List FuncRec :=
  [⟨1, "x", none, 0x10, "symtab", default, [0x20]⟩, ⟨2, "x", none, 0x20, "symtab", default, []⟩,
    ⟨3, "y", none, 0x20, "symtab", default, []⟩]

/-- The call of the first row is read as one into the other binary. -/
theorem edge_into_other_binary :
    2 ∈ (graphOf ((loadIndex twoBinaries).map Node.fromIndexed) []).aCallees.getD 0 [] ∧
      ¬Linked twoBinaries 0 2 ∧ ¬EdgesInside twoBinaries := by
  have hedge :
      2 ∈ (graphOf ((loadIndex twoBinaries).map Node.fromIndexed) []).aCallees.getD 0 [] := by
    decide
  have hnot : ¬Linked twoBinaries 0 2 := by
    rintro ⟨r, s, hr, hs, hbinary, -⟩
    obtain rfl := Option.some.inj hr
    obtain rfl := Option.some.inj hs
    exact absurd hbinary (by decide)
  exact ⟨hedge, hnot, fun h ↦ hnot ((h.loaded_a []).callee 0 2 hedge)⟩

end Fnprint
