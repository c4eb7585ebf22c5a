import Fnprint.Lib.Selection
import Fnprint.Triage

/-!
# The band index and the exact scan

The scan of a pool selects the least of its live keys: the similarity counted
down, then the name and the binary.  Over an in-memory corpus of full
signatures the band index is exact as soon as some live row is more than three
quarters similar.
-/

namespace Fnprint

open Binary64 StableSort KeyMap Selection

/-! ## The scan as a selection -/

/-- A row that can win: named and complex enough. -/
def live (r : FuncRec) : Bool := r.name.isSome && minComplexity ≤ r.fp.complexity

/-- What a live row offers. -/
def liveKey (fp : Fingerprint) (r : FuncRec) : Option Best :=
  if live r then some (fp.similarity r.fp, r.name.getD "", r.binary) else none

/-- Larger similarity first, then the smaller (name, binary). -/
def bestCmp : Best → Best → Ordering :=
  compareLex (byKey (fun b ↦ b.1) (descending totalCmp))
    (compareLex (byKey (fun b ↦ b.2.1) compare) (byKey (fun b ↦ b.2.2) compare))

instance : Std.TransCmp bestCmp :=
  inferInstanceAs (Std.TransCmp (compareLex _ _))

theorem eq_of_bestCmp {x y : Best} (h : bestCmp x y = .eq) : x = y := by
  obtain ⟨hsim, hrest⟩ := compareLex_eq_iff.mp h
  obtain ⟨hname, hbinary⟩ := compareLex_eq_iff.mp hrest
  have h₁ : x.1 = y.1 := (totalCmp_eq_iff.mp hsim).symm
  have h₂ : x.2.1 = y.2.1 := Std.LawfulEqCmp.eq_of_compare hname
  have h₃ : x.2.2 = y.2.2 := Std.LawfulEqCmp.eq_of_compare hbinary
  exact Prod.ext h₁ (Prod.ext h₂ h₃)

theorem better_iff {s sim : Float} {bn bb name binary : String} (hs : bits s ≤ inf)
    (hsim : bits sim ≤ inf) :
    better (some (s, bn, bb)) sim name binary = true ↔
      bestCmp (sim, name, binary) (s, bn, bb) = .lt := by
  have hlt : totalCmp s sim = .lt ↔ s < sim := by
    rw [lt_iff_bits hs hsim, ← not_le, ← totalCmp_isLE_iff hsim hs, ← Std.OrientedCmp.isGE_iff_isLE]
    cases totalCmp s sim <;> simp
  have heq : totalCmp s sim = .eq ↔ (sim == s) = true := by
    rw [totalCmp_eq_iff, beq_iff_eq_of_le hsim hs]
    exact eq_comm
  simp only [better, bestCmp, compareLex, byKey, descending, Ordering.then_eq_lt, hlt, heq,
    Bool.or_eq_true, Bool.and_eq_true, decide_eq_true_eq, beq_iff_eq]

/-- Dead rows are skipped; among live keys the scan keeps the least. -/
theorem scan_eq_select (fp : Fingerprint) (pool : List FuncRec) :
    scan fp pool = select bestCmp (pool.filterMap (liveKey fp)) := by
  induction pool using List.reverseRecOn with
  | nil => rfl
  | append_singleton pool r ih =>
      have hstep : scan fp (pool ++ [r]) = scanStep fp (scan fp pool) r := by
        simp [scan]
      rw [hstep, List.filterMap_append, ih]
      by_cases hcomplex : r.fp.complexity < minComplexity
      · have hdead : liveKey fp r = none := by
          simp [liveKey, live, UInt32.not_le.mpr hcomplex]
        simp [scanStep, hcomplex, hdead]
      · cases hname : r.name with
        | none =>
            have hdead : liveKey fp r = none := by simp [liveKey, live, hname]
            simp [scanStep, hname, hdead]
        | some name =>
            have hlive : liveKey fp r = some (fp.similarity r.fp, name, r.binary) := by
              simp [liveKey, live, hname, UInt32.not_lt.mp hcomplex]
            rw [List.filterMap_cons_some hlive, List.filterMap_nil, select_append_singleton]
            cases hsel : select bestCmp (pool.filterMap (liveKey fp)) with
            | none => simp [scanStep, hcomplex, hname, better, consider]
            | some best =>
                obtain ⟨s, bn, bb⟩ := best
                -- the similarity held is one of the pool's, hence a number
                have hs : bits s ≤ inf := by
                  obtain ⟨r', -, hr'⟩ := List.mem_filterMap.mp (mem_of_select hsel)
                  unfold liveKey at hr'
                  split at hr'
                  · have hsim : fp.similarity r'.fp = s := congrArg Prod.fst (Option.some.inj hr')
                    rw [← hsim]
                    exact (fp.bits_similarity_lt_inf r'.fp).le
                  · cases hr'
                have hiff := @better_iff s (fp.similarity r.fp) bn bb name r.binary hs
                  (fp.bits_similarity_lt_inf r.fp).le
                simp [scanStep, hcomplex, hname, consider, hiff]

/-! ## The candidates of an in-memory corpus -/

theorem candidates_fromRecords (recs : List FuncRec) (fp : Fingerprint) :
    (MemCorpus.fromRecords recs).candidates fp =
      recs.filter fun r ↦ SharesBand fp r.fp := by
  have hmem : ∀ j, j ∈ bandHits (MemCorpus.fromRecords recs).bands fp ↔
      ∃ r, recs[j]? = some r ∧ SharesBand fp r.fp := by
    intro j
    rw [MemCorpus.fromRecords, mem_bandHits]
    constructor
    · rintro ⟨y, hy, hshare⟩
      obtain ⟨⟨r, k⟩, hr, heq⟩ := List.mem_map.mp hy
      obtain ⟨rfl, rfl⟩ := Prod.mk.inj heq
      exact ⟨r, List.mem_zipIdx_iff_getElem?.mp hr, hshare⟩
    · rintro ⟨r, hr, hshare⟩
      exact ⟨r.fp, List.mem_map.mpr ⟨(r, j), List.mem_zipIdx_iff_getElem?.mpr hr, rfl⟩, hshare⟩
  have hlt : ∀ j ∈ bandHits (MemCorpus.fromRecords recs).bands fp, j < recs.length := by
    intro j hj
    obtain ⟨r, hr, -⟩ := (hmem j).mp hj
    exact (List.getElem?_eq_some_iff.mp hr).1
  rw [MemCorpus.candidates, sortDedup_eq_filter_range hlt]
  conv_rhs => rw [← map_getD_range recs default, List.filter_map]
  congr 1
  apply List.filter_congr
  intro j hj
  have hj := List.mem_range.mp hj
  rw [Function.comp_apply, decide_eq_decide, hmem, List.getD_eq_getElem recs default hj,
    List.getElem?_eq_getElem hj]
  simp

/-! ## Exactness above three quarters -/

/-- The result of scanning everything: the largest similarity among the live
rows, and the least (name, binary) among those that reach it. -/
structure IsBest (fp : Fingerprint) (recs : List FuncRec) (b : Best) : Prop where
  attained : ∃ r ∈ recs, live r ∧ b = (fp.similarity r.fp, r.name.getD "", r.binary)
  largest : ∀ r ∈ recs, live r → fp.similarity r.fp ≤ b.1
  least : ∀ r ∈ recs, live r → fp.similarity r.fp = b.1 →
    ((compare b.2.1 (r.name.getD "")).then (compare b.2.2 r.binary)).isLE = true

theorem mem_filterMap_liveKey {fp : Fingerprint} {recs : List FuncRec} {b : Best} :
    b ∈ recs.filterMap (liveKey fp) ↔
      ∃ r ∈ recs, live r ∧ b = (fp.similarity r.fp, r.name.getD "", r.binary) := by
  simp only [List.mem_filterMap, liveKey]
  refine exists_congr fun r ↦ and_congr_right fun _ ↦ ?_
  by_cases hr : live r
  · simp [hr, eq_comm]
  · simp [hr]

theorem isBest_of_scan {fp : Fingerprint} {recs : List FuncRec} {b : Best}
    (h : scan fp recs = some b) : IsBest fp recs b := by
  rw [scan_eq_select] at h
  have hattained := mem_filterMap_liveKey.mp (mem_of_select h)
  have hle : ∀ r ∈ recs, live r →
      (bestCmp b (fp.similarity r.fp, r.name.getD "", r.binary)).isLE = true := fun r hr hlive ↦
    isLE_of_select h _ (mem_filterMap_liveKey.mpr ⟨r, hr, hlive, rfl⟩)
  have hb : bits b.1 ≤ inf := by
    obtain ⟨r, -, -, rfl⟩ := hattained
    exact (fp.bits_similarity_lt_inf r.fp).le
  refine ⟨hattained, fun r hr hlive ↦ ?_, fun r hr hlive hsim ↦ ?_⟩
  · have hr' := (fp.bits_similarity_lt_inf r.fp).le
    rw [le_iff_bits hr' hb, ← totalCmp_isLE_iff hr' hb]
    rcases compareLex_isLE_iff.mp (hle r hr hlive) with hlt | ⟨heq, -⟩
    · rw [byKey, descending] at hlt
      rw [hlt]
      rfl
    · rw [byKey, descending] at heq
      rw [heq]
      rfl
  · rcases compareLex_isLE_iff.mp (hle r hr hlive) with hlt | ⟨-, hrest⟩
    · rw [byKey, descending, hsim] at hlt
      exact absurd hlt (by rw [totalCmp_eq_iff.mpr rfl]; decide)
    · exact hrest

/-- Pools with the same live keys give the same best. -/
theorem scan_eq_of_isLE {fp : Fingerprint} {pool pool' : List FuncRec} {b : Best}
    (h : scan fp pool = some b) (hsub : ∀ r ∈ pool', live r → r ∈ pool)
    (hb : b ∈ pool'.filterMap (liveKey fp)) : scan fp pool' = some b := by
  rw [scan_eq_select] at h ⊢
  refine (select_eq_some_iff fun _ _ ↦ eq_of_bestCmp).mpr ⟨hb, fun k hk ↦ ?_⟩
  obtain ⟨r, hr, hlive, rfl⟩ := mem_filterMap_liveKey.mp hk
  exact isLE_of_select h _ (mem_filterMap_liveKey.mpr ⟨r, hsub r hr hlive, hlive, rfl⟩)

/-- Above three quarters the band index loses nothing: whatever the fallback
pool, the best of the corpus is the best of the whole scan. -/
theorem bestInCorpus_exact (fp : Fingerprint) (recs all : List FuncRec)
    (hfp : fp.sig.length = sigLen) (hrecs : ∀ r ∈ recs, r.fp.sig.length = sigLen)
    (h : ∃ r ∈ recs, live r ∧ (0.75 : Float) < fp.similarity r.fp) :
    ∃ b, bestInCorpus fp (MemCorpus.fromRecords recs).toCorpus all = .ok (some b) ∧
      scan fp recs = some b ∧ IsBest fp recs b := by
  obtain ⟨r, hr, hlive, hsim⟩ := h
  have hkey : (fp.similarity r.fp, r.name.getD "", r.binary) ∈ recs.filterMap (liveKey fp) :=
    mem_filterMap_liveKey.mpr ⟨r, hr, hlive, rfl⟩
  obtain ⟨b, hscan⟩ : ∃ b, scan fp recs = some b := by
    cases hs : scan fp recs with
    | some b => exact ⟨b, rfl⟩
    | none =>
        rw [scan_eq_select, select_eq_none_iff] at hs
        rw [hs] at hkey
        simp at hkey
  have hbest := isBest_of_scan hscan
  refine ⟨b, ?_, hscan, hbest⟩
  -- the best row is above three quarters too, so it is a candidate
  obtain ⟨r₀, hr₀, hlive₀, rfl⟩ := hbest.attained
  have hsim₀ : (0.75 : Float) < fp.similarity r₀.fp :=
    float_lt_of_lt_of_le hsim (hbest.largest r hr hlive)
  have hshare := sharesBand_of_lt_similarity hfp (hrecs r₀ hr₀) hsim₀
  have hmem : r₀ ∈ recs.filter fun r ↦ SharesBand fp r.fp := by
    simp [hr₀, hshare]
  have hcands := candidates_fromRecords recs fp
  have hnonempty : (recs.filter fun r ↦ SharesBand fp r.fp).isEmpty = false := by
    rw [List.isEmpty_eq_false_iff]
    exact List.ne_nil_of_mem hmem
  have hpool := @scan_eq_of_isLE _ _ (recs.filter fun r ↦ SharesBand fp r.fp) _ hscan
    (fun r hr _ ↦ (List.mem_filter.mp hr).1)
    (mem_filterMap_liveKey.mpr ⟨r₀, hmem, hlive₀, rfl⟩)
  simp only [bestInCorpus, MemCorpus.toCorpus, hcands, bind, Except.bind, hnonempty,
    Bool.false_eq_true, if_false, hpool]
  rfl

def namedRow (name : String) (fp : Fingerprint) : FuncRec :=
  ⟨1, "lib", some name, 0x40, "symtab", fp, []⟩

theorem bestInCorpus_exact_twins :
    ∃ b, bestInCorpus (constPrint 7) (MemCorpus.fromRecords
        [namedRow "b" (constPrint 7), namedRow "a" (constPrint 7)]).toCorpus [] = .ok (some b) ∧
      scan (constPrint 7) [namedRow "b" (constPrint 7), namedRow "a" (constPrint 7)] = some b ∧
      IsBest (constPrint 7) [namedRow "b" (constPrint 7), namedRow "a" (constPrint 7)] b :=
  bestInCorpus_exact (constPrint 7) _ [] (by decide +kernel) (by decide +kernel)
    ⟨namedRow "a" (constPrint 7), by simp, by decide, by decide +kernel⟩

end Fnprint
