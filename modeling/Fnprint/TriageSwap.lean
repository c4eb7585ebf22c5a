import Fnprint.TriageAlone
import Fnprint.TriageExact

/-!
# Triage with its corpora swapped

A verdict compares the best similarities of the two sides.  Swapping the
corpora swaps the verdicts as long as the sides cannot separate in both
directions at once, which a margin of zero allows on a tie.
-/

namespace Fnprint

open Binary64 StableSort Fallible Selection

def Verdict.swap : Verdict → Verdict
  | .vulnerable => .patched
  | .patched => .vulnerable
  | .inconclusive => .inconclusive

/-- A hit with its two sides exchanged. -/
def TriageHit.swap (h : TriageHit) : TriageHit :=
  { h with
    verdict := h.verdict.swap
    vulnSim := h.patchedSim
    vulnName := h.patchedName
    patchedSim := h.vulnSim
    patchedName := h.vulnName }

/-! ## The verdict of two similarities -/

section Verdicts

variable {minSim margin x y : Float}

theorem maxNum_comm (hx : bits x < inf) (hy : bits y < inf) : maxNum x y = maxNum y x := by
  have hnan : ∀ {z : Float}, bits z < inf → ¬z.isNaN = true := fun hz h ↦
    not_nan_of_le hz.le (isNaN_iff.mp h)
  simp only [maxNum, if_neg (hnan hx), if_neg (hnan hy), lt_iff_bits hx.le hy.le,
    lt_iff_bits hy.le hx.le]
  rcases lt_trichotomy (bits x) (bits y) with h | h | h
  · rw [if_pos h, if_neg h.not_gt]
  · rw [bits_injective h]
  · rw [if_neg h.not_gt, if_pos h]

/-- Equal sides are inconclusive when a margin is asked for, or below the
similarity of a lead. -/
theorem verdictOf_self (hx : bits x < inf) (hm : 0.0 ≤ margin) :
    verdictOf minSim margin x x = .inconclusive ↔ 0.0 < margin ∨ x < minSim := by
  have hmax : maxNum x x = x := by
    unfold maxNum
    split <;> simp
  have hmargin : margin ≤ 0.0 ↔ ¬0.0 < margin := by
    obtain ⟨h0, hn, -⟩ := le_iff.mp hm
    rw [le_iff, lt_iff]
    simp [h0, hn]
  rw [verdictOf, hmax, sub_self hx]
  by_cases hsim : x < minSim
  · simp [hsim]
  · by_cases hpos : 0.0 < margin
    · simp [hsim, hpos, hmargin]
    · simp [hsim, hpos, hmargin]

theorem verdictOf_swap (hx : bits x < inf) (hy : bits y < inf) (hm : 0.0 ≤ margin)
    (htie : x = y → verdictOf minSim margin x y = .inconclusive) :
    verdictOf minSim margin y x = (verdictOf minSim margin x y).swap := by
  by_cases hxy : x = y
  · have hsame := htie hxy
    rw [← hxy] at hsame ⊢
    rw [hsame]
    rfl
  · have hnot : ¬(margin ≤ x - y ∧ margin ≤ y - x) := fun h ↦
      hxy (eq_of_le_sub_of_le_sub hx hy hm h.1 h.2)
    rw [verdictOf, verdictOf, maxNum_comm hy hx]
    by_cases htop : maxNum x y < minSim
    · simp [htop, Verdict.swap]
    · by_cases hv : margin ≤ x - y
      · have hp : ¬margin ≤ y - x := fun h ↦ hnot ⟨hv, h⟩
        simp [htop, hv, hp, Verdict.swap]
      · by_cases hp : margin ≤ y - x
        · simp [htop, hv, hp, Verdict.swap]
        · simp [htop, hv, hp, Verdict.swap]

end Verdicts

/-! ## The best similarity of a side -/

/-- The rows a print is compared with: the candidates, or all named rows. -/
def poolFor (db : Corpus) (fp : Fingerprint) : List FuncRec :=
  if (okOr [] (db.candidates fp)).isEmpty then
    (okOr [] db.all).filter fun r ↦ r.name.isSome
  else okOr [] (db.candidates fp)

/-- The best similarity some rows offer: the largest among the live ones, zero
if there is none. -/
structure TopSim (fp : Fingerprint) (rows : List FuncRec) (x : Float) : Prop where
  le : ∀ r ∈ rows, live r = true → fp.similarity r.fp ≤ x
  attained : (∃ r ∈ rows, live r = true ∧ fp.similarity r.fp = x) ∨
    (∀ r ∈ rows, live r = false) ∧ x = 0.0

theorem TopSim.bits_lt {fp : Fingerprint} {rows : List FuncRec} {x : Float}
    (h : TopSim fp rows x) : bits x < inf := by
  rcases h.attained with ⟨r, -, -, rfl⟩ | ⟨-, rfl⟩
  · exact fp.bits_similarity_lt_inf r.fp
  · exact zero_lt_inf

theorem TopSim.unique {fp : Fingerprint} {rows : List FuncRec} {x y : Float}
    (hx : TopSim fp rows x) (hy : TopSim fp rows y) : x = y := by
  rcases hx.attained with ⟨r, hr, hlive, hrx⟩ | ⟨hnone, hx0⟩
  · rcases hy.attained with ⟨s, hs, hlives, hsy⟩ | ⟨hnone, -⟩
    · have hxy := hy.le r hr hlive
      have hyx := hx.le s hs hlives
      rw [hrx, le_iff_bits hx.bits_lt.le hy.bits_lt.le] at hxy
      rw [hsy, le_iff_bits hy.bits_lt.le hx.bits_lt.le] at hyx
      exact bits_injective (le_antisymm hxy hyx)
    · rw [hnone r hr] at hlive
      cases hlive
  · rcases hy.attained with ⟨s, hs, hlives, -⟩ | ⟨-, hy0⟩
    · rw [hnone s hs] at hlives
      cases hlives
    · rw [hx0, hy0]

theorem topSim_scan (fp : Fingerprint) (rows : List FuncRec) :
    TopSim fp rows (((scan fp rows).map Prod.fst).getD 0.0) := by
  cases hscan : scan fp rows with
  | none =>
      rw [scan_eq_select, select_eq_none_iff, List.filterMap_eq_nil_iff] at hscan
      have hdead : ∀ r ∈ rows, live r = false := by
        intro r hr
        have hkey := hscan r hr
        unfold liveKey at hkey
        by_contra hlive
        rw [if_pos (by simpa using hlive)] at hkey
        cases hkey
      exact
        { le := by
            intro r hr hlive
            rw [hdead r hr] at hlive
            cases hlive
          attained := Or.inr ⟨hdead, rfl⟩ }
  | some b =>
      have hbest := isBest_of_scan hscan
      obtain ⟨r, hr, hlive, rfl⟩ := hbest.attained
      exact ⟨hbest.largest, Or.inl ⟨r, hr, hlive, rfl⟩⟩

/-- The similarity a function gets on a side. -/
def sideSim (db : Corpus) (f : IndexedFunc) : Float := ((sideValue db f).getD (0.0, "")).1

theorem topSim_sideSim {db : Corpus} {target : List IndexedFunc} (h : Answers db target)
    {f : IndexedFunc} (hf : f ∈ target) (hlow : lowSignal f.fp = false) :
    TopSim f.fp (poolFor db f.fp) (sideSim db f) := by
  obtain ⟨s, hs⟩ := h.side f hf
  have hvalue : sideValue db f = s := by rw [sideValue, hs, okOr_ok]
  obtain ⟨all, hall, hrest⟩ := bind_eq_ok_iff.mp hs
  rw [hlow, if_neg Bool.false_ne_true] at hrest
  obtain ⟨best, hbest, hrest⟩ := bind_eq_ok_iff.mp hrest
  obtain ⟨cands, hcands, hbest⟩ := bind_eq_ok_iff.mp hbest
  have hpool : scan f.fp (poolFor db f.fp) = best := by
    rw [poolFor, hcands, hall]
    exact pure_eq_ok_iff.mp hbest
  have hsim : sideSim db f = ((scan f.fp (poolFor db f.fp)).map Prod.fst).getD 0.0 := by
    rw [sideSim, hvalue, hpool, ← pure_eq_ok_iff.mp hrest]
    cases best <;> rfl
  rw [hsim]
  exact topSim_scan f.fp _

/-! ## The swapped run -/

/-- The best similarities of a judged function tie, at no less than a lead. -/
def TiedLead (minSim : Float) (V P : Corpus) (f : IndexedFunc) : Prop :=
  lowSignal f.fp = false ∧ ∃ x, TopSim f.fp (poolFor V f.fp) x ∧
    TopSim f.fp (poolFor P f.fp) x ∧ ¬x < minSim

/-- Swapping the corpora swaps the sides of every hit, and equal sides are
inconclusive. -/
structure SwapsSides (target : List IndexedFunc) (V P : Corpus) (minSim margin : Float)
    (hits : List TriageHit) : Prop where
  swapped : ∃ hits', triage target P V minSim margin = .ok hits' ∧
    hits'.Perm (hits.map TriageHit.swap)
  tied : ∀ h ∈ hits, (h.vulnSim == h.patchedSim) = true → h.verdict = .inconclusive

section Swap

variable {target : List IndexedFunc} {V P : Corpus} {minSim margin : Float} {hits : List TriageHit}

/-- What the verdict of a function turns on when its sides are equal. -/
theorem verdict_tied_iff (hm : 0.0 ≤ margin) (hV : Answers V target) (hP : Answers P target)
    {f : IndexedFunc} (hf : f ∈ target) (hlow : lowSignal f.fp = false)
    (heq : sideSim V f = sideSim P f) :
    verdictOf minSim margin (sideSim V f) (sideSim P f) = .inconclusive ↔
      0.0 < margin ∨ ¬TiedLead minSim V P f := by
  have hv := topSim_sideSim hV hf hlow
  have hp := topSim_sideSim hP hf hlow
  rw [← heq] at hp
  rw [← heq, verdictOf_self hv.bits_lt hm]
  refine or_congr Iff.rfl ⟨?_, ?_⟩
  · rintro hlt ⟨-, x, hxv, -, hx⟩
    rw [hxv.unique hv] at hx
    exact hx hlt
  · intro hnot
    by_contra hx
    exact hnot ⟨hlow, _, hv, hp, hx⟩

theorem hitFor_swap (hm : 0.0 ≤ margin) (hV : Answers V target) (hP : Answers P target)
    {f : IndexedFunc} (hf : f ∈ target) (hlow : lowSignal f.fp = false)
    (htie : 0.0 < margin ∨ ¬TiedLead minSim V P f) :
    hitFor minSim margin P V f = (hitFor minSim margin V P f).swap := by
  have hv := (topSim_sideSim hV hf hlow).bits_lt
  have hp := (topSim_sideSim hP hf hlow).bits_lt
  have hverdict : verdictOf minSim margin ((sideValue P f).getD (0.0, "")).1
      ((sideValue V f).getD (0.0, "")).1 =
        (verdictOf minSim margin (sideSim V f) (sideSim P f)).swap :=
    verdictOf_swap hv hp hm fun heq ↦ (verdict_tied_iff hm hV hP hf hlow heq).mpr htie
  simp only [hitFor, hitOf, TriageHit.swap, hverdict]
  rfl

/-- Swapping the corpora of a triage swaps its verdicts, and equal sides are
inconclusive, exactly when the margin is positive or no function of the target
is tied at a lead. -/
theorem triage_swap_iff (hm : 0.0 ≤ margin) (h : triage target V P minSim margin = .ok hits) :
    SwapsSides target V P minSim margin hits ↔
      0.0 < margin ∨ ∀ f ∈ target, ¬TiedLead minSim V P f := by
  obtain ⟨hV, hP, rfl⟩ := triage_eq_ok_iff.mp h
  have hmem : ∀ {f}, f ∈ target.filter (fun f ↦ !lowSignal f.fp) →
      f ∈ target ∧ lowSignal f.fp = false := fun hf ↦
    ⟨(List.mem_filter.mp hf).1, by simpa using (List.mem_filter.mp hf).2⟩
  constructor
  · intro hswaps
    by_contra hnot
    obtain ⟨hpos, htied⟩ := not_or.mp hnot
    push Not at htied
    obtain ⟨f, hf, hlow, x, hxv, hxp, hx⟩ := htied
    have heq : sideSim V f = sideSim P f :=
      ((topSim_sideSim hV hf hlow).unique hxv).trans (hxp.unique (topSim_sideSim hP hf hlow))
    have hhit : hitFor minSim margin V P f ∈ hitsFor minSim margin V P target :=
      List.mem_map_of_mem (List.mem_filter.mpr ⟨hf, by simp [hlow]⟩)
    have hverdict := hswaps.tied _ ((mem_sortBy hitCmp).mpr hhit) (by
      change (sideSim V f == sideSim P f) = true
      have hle := (topSim_sideSim hP hf hlow).bits_lt.le
      rw [heq, beq_iff_eq_of_le hle hle])
    rcases (verdict_tied_iff hm hV hP hf hlow heq).mp hverdict with hm' | hlead
    · exact hpos hm'
    · exact hlead ⟨hlow, x, hxv, hxp, hx⟩
  · intro hcond
    have hcond : ∀ f ∈ target, 0.0 < margin ∨ ¬TiedLead minSim V P f :=
      fun f hf ↦ hcond.imp id fun hnone ↦ hnone f hf
    refine ⟨⟨_, triage_eq_ok_iff.mpr ⟨hP, hV, rfl⟩, ?_⟩, ?_⟩
    · have hswap : hitsFor minSim margin P V target =
          (hitsFor minSim margin V P target).map TriageHit.swap := by
        rw [hitsFor, hitsFor, List.map_map]
        apply List.map_congr_left
        intro f hf
        obtain ⟨hf, hlow⟩ := hmem hf
        exact hitFor_swap hm hV hP hf hlow (hcond f hf)
      refine (perm_sortBy _ _).trans ?_
      rw [hswap]
      exact (perm_sortBy _ _).symm.map _
    · intro hit hhit hsides
      obtain ⟨f, hf, rfl⟩ := List.mem_map.mp ((mem_sortBy _).mp hhit)
      obtain ⟨hf, hlow⟩ := hmem hf
      have heq : sideSim V f = sideSim P f :=
        (beq_iff_eq_of_le (topSim_sideSim hV hf hlow).bits_lt.le
          (topSim_sideSim hP hf hlow).bits_lt.le).mp hsides
      exact (verdict_tied_iff hm hV hP hf hlow heq).mpr (hcond f hf)

end Swap

/-- A function that both corpora hold a twin of. -/
def tiedFunc : IndexedFunc := ⟨none, 0x10, .ehFrame, constPrint 7, 1.0, []⟩

def tiedHit (verdict : Verdict) : TriageHit := ⟨0x10, verdict, 1.0, "f", 1.0, "f", 1.0⟩

theorem triage_swap_iff_tiedFunc :
    SwapsSides [tiedFunc] oneRow oneRow 0.5 0.1 [tiedHit .inconclusive] :=
  (triage_swap_iff (by decide +kernel) (by decide +kernel)).mpr (Or.inl (by decide +kernel))

/-- At a margin of zero the twin is vulnerable, whichever corpus is which. -/
theorem tied_vulnerable_both_ways :
    ∃ hits, triage [tiedFunc] oneRow oneRow 0.5 0.0 = .ok hits ∧
      ¬SwapsSides [tiedFunc] oneRow oneRow 0.5 0.0 hits := by
  refine ⟨[tiedHit .vulnerable], by decide +kernel, fun h ↦ ?_⟩
  have hverdict := h.tied _ List.mem_cons_self (by decide)
  cases hverdict

end Fnprint
