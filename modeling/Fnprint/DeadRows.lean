import Fnprint.TriageAlone
import Fnprint.TriageExact

/-!
# Rows that can never win

Unnamed rows and rows of low complexity are skipped by the scan, but they sit
in the band index: a print that only they share a band with is not compared
with the rest of the corpus.  Deleting them can therefore bring the fallback
scan back, and the exact condition for that is stated here.
-/

namespace Fnprint

open Binary64 StableSort Selection Fallible

/-- Some rows that cannot win are left out; the others stay in order. -/
structure Deletes (recs recs' : List FuncRec) : Prop where
  sublist : recs'.Sublist recs
  live_eq : recs'.filter live = recs.filter live

/-- Every band hit of a print was deleted, and the live rows offer something
other than a nameless zero. -/
structure Exposed (fp : Fingerprint) (recs recs' : List FuncRec) : Prop where
  hit : ∃ r ∈ recs, SharesBand fp r.fp
  deleted : ∀ r ∈ recs', ¬SharesBand fp r.fp
  offer : ∃ r ∈ recs, live r
  visible : ¬((∀ r ∈ recs, live r → fp.similarity r.fp = 0.0) ∧
    ∃ r ∈ recs, live r ∧ r.name = some "")

/-! ## The best of one side -/

/-- The similarity and the name triage reads off one side. -/
def sideOf (fp : Fingerprint) (recs : List FuncRec) : Float × String :=
  let pool := recs.filter fun r ↦ SharesBand fp r.fp
  let best := scan fp (if pool.isEmpty then recs.filter fun r ↦ r.name.isSome else pool)
  (best.map fun b ↦ (b.1, b.2.1)).getD (0.0, "")

theorem filterMap_liveKey_filter (fp : Fingerprint) (recs : List FuncRec) :
    (recs.filter live).filterMap (liveKey fp) = recs.filterMap (liveKey fp) := by
  rw [List.filterMap_filter]
  apply List.filterMap_congr
  intro r _
  cases hr : live r <;> simp [liveKey, hr]

theorem filterMap_liveKey_named (fp : Fingerprint) (recs : List FuncRec) :
    (recs.filter fun r ↦ r.name.isSome).filterMap (liveKey fp) =
      recs.filterMap (liveKey fp) := by
  rw [List.filterMap_filter]
  apply List.filterMap_congr
  intro r _
  cases hr : r.name.isSome
  · simp [liveKey, live, hr]
  · simp

theorem Deletes.filterMap_eq {recs recs' : List FuncRec} (h : Deletes recs recs')
    (fp : Fingerprint) : recs'.filterMap (liveKey fp) = recs.filterMap (liveKey fp) := by
  rw [← filterMap_liveKey_filter, h.live_eq, filterMap_liveKey_filter]

theorem Deletes.filter {recs recs' : List FuncRec} (h : Deletes recs recs')
    (p : FuncRec → Bool) : Deletes (recs.filter p) (recs'.filter p) where
  sublist := h.sublist.filter p
  live_eq := by rw [List.filter_comm, h.live_eq, List.filter_comm]

theorem not_sharesBand_iff {fp : Fingerprint} {recs : List FuncRec} :
    (recs.filter fun r ↦ SharesBand fp r.fp).isEmpty = true ↔
      ∀ r ∈ recs, ¬SharesBand fp r.fp := by
  rw [List.isEmpty_iff, List.filter_eq_nil_iff]
  simp

/-- A deletion that leaves a band hit, or had none to leave, changes nothing. -/
theorem sideOf_eq_of_isEmpty_eq {fp : Fingerprint} {recs recs' : List FuncRec}
    (h : Deletes recs recs')
    (hempty : (recs'.filter fun r ↦ SharesBand fp r.fp).isEmpty =
      (recs.filter fun r ↦ SharesBand fp r.fp).isEmpty) : sideOf fp recs' = sideOf fp recs := by
  have hpool : scan fp (recs'.filter fun r ↦ SharesBand fp r.fp) =
      scan fp (recs.filter fun r ↦ SharesBand fp r.fp) := by
    rw [scan_eq_select, scan_eq_select, (h.filter _).filterMap_eq]
  have hall : scan fp (recs'.filter fun r ↦ r.name.isSome) =
      scan fp (recs.filter fun r ↦ r.name.isSome) := by
    rw [scan_eq_select, scan_eq_select, (h.filter _).filterMap_eq]
  unfold sideOf
  dsimp only
  rw [hempty]
  split
  · rw [hall]
  · rw [hpool]

theorem eq_empty_of_compare {a : String} (h : (compare a "").isLE = true) : a = "" := by
  by_contra hne
  have hnot : ¬a < "" := by
    rw [String.lt_iff_toList_lt]
    exact List.not_lt_nil _
  have hgt : compare a "" = .gt := by
    change compareOfLessAndEq a "" = .gt
    rw [compareOfLessAndEq, if_neg hnot, if_neg hne]
  rw [hgt] at h
  exact absurd h (by decide)

theorem name_eq_of_live {r : FuncRec} (h : live r = true) : r.name = some (r.name.getD "") := by
  cases hn : r.name with
  | none => simp [live, hn] at h
  | some name => rfl

/-- Over the whole corpus the side is a nameless zero exactly when there is no
live row, or none above zero and one without a visible name. -/
theorem scan_eq_zero_iff (fp : Fingerprint) (recs : List FuncRec) :
    ((scan fp recs).map fun b ↦ (b.1, b.2.1)).getD (0.0, "") = (0.0, "") ↔
      (¬∃ r ∈ recs, live r) ∨
        ((∀ r ∈ recs, live r → fp.similarity r.fp = 0.0) ∧
          ∃ r ∈ recs, live r ∧ r.name = some "") := by
  cases hs : scan fp recs with
  | none =>
      have hnone : ¬∃ r ∈ recs, live r := by
        rintro ⟨r, hr, hlive⟩
        rw [scan_eq_select, select_eq_none_iff] at hs
        have hkey : (fp.similarity r.fp, r.name.getD "", r.binary) ∈
            recs.filterMap (liveKey fp) := mem_filterMap_liveKey.mpr ⟨r, hr, hlive, rfl⟩
        rw [hs] at hkey
        exact absurd hkey List.not_mem_nil
      simp [hnone]
  | some b =>
      have hbest := isBest_of_scan hs
      obtain ⟨r₀, hr₀, hlive₀, hb⟩ := hbest.attained
      have hexists : ∃ r ∈ recs, live r := ⟨r₀, hr₀, hlive₀⟩
      simp only [Option.map_some, Option.getD_some, Prod.mk.injEq, hexists, not_true_eq_false,
        false_or]
      constructor
      · rintro ⟨hzero, hempty⟩
        refine ⟨fun r hr hlive ↦ ?_, r₀, hr₀, hlive₀, ?_⟩
        · have hle := hbest.largest r hr hlive
          rw [hzero, le_iff_bits (fp.bits_similarity_lt_inf r.fp).le zero_lt_inf.le,
            bits_zero] at hle
          exact bits_injective ((Nat.le_zero.mp hle).trans bits_zero.symm)
        · rw [hb] at hempty
          rw [name_eq_of_live hlive₀]
          exact congrArg some hempty
      · rintro ⟨hzero, r, hr, hlive, hrname⟩
        have hb₀ : b.1 = 0.0 := by
          rw [hb]
          exact hzero r₀ hr₀ hlive₀
        refine ⟨hb₀, ?_⟩
        -- the empty name is the least one, and it is offered at the same similarity
        have hleast := hbest.least r hr hlive ((hzero r hr hlive).trans hb₀.symm)
        rw [hrname, Option.getD_some] at hleast
        apply eq_empty_of_compare
        cases hc : compare b.2.1 "" with
        | lt => rfl
        | eq => rfl
        | gt => simp [hc, Ordering.then] at hleast

theorem Deletes.mem_of_live {recs recs' : List FuncRec} (h : Deletes recs recs') {r : FuncRec}
    (hr : r ∈ recs) (hlive : live r) : r ∈ recs' := by
  have hmem : r ∈ recs.filter live := List.mem_filter.mpr ⟨hr, hlive⟩
  rw [← h.live_eq] at hmem
  exact (List.mem_filter.mp hmem).1

section Mixed

variable {fp : Fingerprint} {recs recs' : List FuncRec}

/-- When all band hits were deleted, none of them was live. -/
theorem sideOf_of_deleted (h : Deletes recs recs') (hit : ∃ r ∈ recs, SharesBand fp r.fp)
    (hdeleted : ∀ r ∈ recs', ¬SharesBand fp r.fp) : sideOf fp recs = (0.0, "") := by
  have hnonempty : (recs.filter fun r ↦ SharesBand fp r.fp).isEmpty = false := by
    rw [Bool.eq_false_iff, ne_eq, not_sharesBand_iff]
    push Not
    exact hit
  have hnone : scan fp (recs.filter fun r ↦ SharesBand fp r.fp) = none := by
    rw [scan_eq_select, select_eq_none_iff, List.filterMap_eq_nil_iff]
    intro r hr
    obtain ⟨hmem, hshare⟩ := List.mem_filter.mp hr
    have hdead : ¬live r = true := fun hlive ↦
      hdeleted r (h.mem_of_live hmem hlive) (of_decide_eq_true hshare)
    simp [liveKey, hdead]
  simp [sideOf, hnonempty, hnone]

/-- The remaining corpus is then scanned as a whole. -/
theorem sideOf_after_deleted (h : Deletes recs recs')
    (hdeleted : ∀ r ∈ recs', ¬SharesBand fp r.fp) :
    sideOf fp recs' = ((scan fp recs).map fun b ↦ (b.1, b.2.1)).getD (0.0, "") := by
  have hall : scan fp (recs'.filter fun r ↦ r.name.isSome) = scan fp recs := by
    rw [scan_eq_select, scan_eq_select, filterMap_liveKey_named, h.filterMap_eq]
  simp only [sideOf, not_sharesBand_iff.mpr hdeleted, if_true, hall]

theorem sideOf_of_exposed (h : Deletes recs recs') (hexposed : Exposed fp recs recs') :
    sideOf fp recs = (0.0, "") :=
  sideOf_of_deleted h hexposed.hit hexposed.deleted

/-- The side of a print survives a deletion unless the deletion exposes it. -/
theorem sideOf_eq_iff (h : Deletes recs recs') :
    sideOf fp recs' = sideOf fp recs ↔ ¬Exposed fp recs recs' := by
  by_cases hit : ∃ r ∈ recs, SharesBand fp r.fp
  · by_cases hdeleted : ∀ r ∈ recs', ¬SharesBand fp r.fp
    · rw [sideOf_of_deleted h hit hdeleted, sideOf_after_deleted h hdeleted, scan_eq_zero_iff]
      constructor
      · rintro (hoffer | hzero) hexposed
        · exact hoffer hexposed.offer
        · exact hexposed.visible hzero
      · intro hexposed
        by_contra hnot
        obtain ⟨hoffer, hvisible⟩ := not_or.mp hnot
        exact hexposed ⟨hit, hdeleted, not_not.mp hoffer, hvisible⟩
    · have hempty : (recs'.filter fun r ↦ SharesBand fp r.fp).isEmpty =
          (recs.filter fun r ↦ SharesBand fp r.fp).isEmpty := by
        rw [Bool.eq_iff_iff, not_sharesBand_iff, not_sharesBand_iff]
        exact ⟨fun hnone ↦ absurd hnone hdeleted,
          fun hnone ↦ absurd hit (by push Not; exact hnone)⟩
      exact ⟨fun _ hexposed ↦ hdeleted hexposed.deleted,
        fun _ ↦ sideOf_eq_of_isEmpty_eq h hempty⟩
  · have hnone : ∀ r ∈ recs, ¬SharesBand fp r.fp := by push Not at hit; exact hit
    have hempty : (recs'.filter fun r ↦ SharesBand fp r.fp).isEmpty =
        (recs.filter fun r ↦ SharesBand fp r.fp).isEmpty := by
      rw [not_sharesBand_iff.mpr hnone, not_sharesBand_iff]
      exact fun r hr ↦ hnone r (h.sublist.subset hr)
    exact ⟨fun _ hexposed ↦ hit hexposed.hit, fun _ ↦ sideOf_eq_of_isEmpty_eq h hempty⟩

end Mixed

/-! ## The review queue -/

/-- The hit of a target function against two in-memory corpora. -/
def hitAt (minSim margin : Float) (V P : List FuncRec) (f : IndexedFunc) : TriageHit :=
  hitOf minSim margin f (some (sideOf f.fp V)) (some (sideOf f.fp P))

theorem sideFor_fromRecords (recs : List FuncRec) (f : IndexedFunc) :
    ∃ best, sideFor (MemCorpus.fromRecords recs).toCorpus f = .ok best ∧
      (lowSignal f.fp = false → best.getD (0.0, "") = sideOf f.fp recs) := by
  by_cases hf : lowSignal f.fp = true
  · exact ⟨none, if_pos hf, fun hnot ↦ absurd hf (by rw [hnot]; exact Bool.false_ne_true)⟩
  · let pool := recs.filter fun r ↦ SharesBand f.fp r.fp
    let best := (scan f.fp (if pool.isEmpty then recs.filter fun r ↦ r.name.isSome else pool)).map
      fun b ↦ (b.1, b.2.1)
    have hside : sideFor (MemCorpus.fromRecords recs).toCorpus f = .ok best := by
      change (if lowSignal f.fp then Except.ok none else _) = _
      rw [if_neg hf]
      simp only [bestInCorpus, MemCorpus.toCorpus, candidates_fromRecords]
      rfl
    exact ⟨best, hside, fun _ ↦ rfl⟩

theorem answers_fromRecords (target : List IndexedFunc) (recs : List FuncRec) :
    Answers (MemCorpus.fromRecords recs).toCorpus target where
  all := ⟨recs, rfl⟩
  side f _ := by
    obtain ⟨best, hbest, -⟩ := sideFor_fromRecords recs f
    exact ⟨best, hbest⟩

theorem sideValue_fromRecords {f : IndexedFunc} (hf : lowSignal f.fp = false)
    (recs : List FuncRec) :
    (sideValue (MemCorpus.fromRecords recs).toCorpus f).getD (0.0, "") = sideOf f.fp recs := by
  obtain ⟨best, hbest, hside⟩ := sideFor_fromRecords recs f
  rw [sideValue, hbest, okOr_ok, hside hf]

theorem triage_fromRecords (target : List IndexedFunc) (V P : List FuncRec)
    (minSim margin : Float) :
    triage target (MemCorpus.fromRecords V).toCorpus (MemCorpus.fromRecords P).toCorpus
        minSim margin =
      .ok (sortBy hitCmp ((target.filter fun f ↦ !lowSignal f.fp).map
        (hitAt minSim margin V P))) := by
  refine triage_eq_ok_iff.mpr ⟨answers_fromRecords target V, answers_fromRecords target P,
    congrArg (sortBy hitCmp) (List.map_congr_left fun f hf ↦ ?_)⟩
  have hsignal : lowSignal f.fp = false := by simpa using (List.mem_filter.mp hf).2
  rw [hitFor, hitOf, sideValue_fromRecords hsignal, sideValue_fromRecords hsignal]
  rfl

theorem eq_of_countP_eq {α : Type*} {p q : α → Bool} {l : List α}
    (himp : ∀ x ∈ l, p x = true → q x = true) (hcount : l.countP p = l.countP q) :
    ∀ x ∈ l, q x = true → p x = true := by
  have hsub : (l.filter p).Sublist (l.filter q) := by
    have hpq : l.filter p = (l.filter q).filter p := by
      rw [List.filter_filter]
      apply List.filter_congr
      intro x hx
      cases hp : p x
      · simp
      · simp [himp x hx hp]
    rw [hpq]
    exact List.filter_sublist
  have heq := hsub.eq_of_length (by rwa [← List.countP_eq_length_filter,
    ← List.countP_eq_length_filter])
  intro x hx hq
  have hmem : x ∈ l.filter p := heq ▸ List.mem_filter.mpr ⟨hx, hq⟩
  exact (List.mem_filter.mp hmem).2

theorem hitAt_eq_iff {minSim margin : Float} {V P V' P' : List FuncRec} {f : IndexedFunc} :
    hitAt minSim margin V' P' f = hitAt minSim margin V P f ↔
      sideOf f.fp V' = sideOf f.fp V ∧ sideOf f.fp P' = sideOf f.fp P := by
  constructor
  · intro h
    exact ⟨Prod.ext (congrArg TriageHit.vulnSim h) (congrArg TriageHit.vulnName h),
      Prod.ext (congrArg TriageHit.patchedSim h) (congrArg TriageHit.patchedName h)⟩
  · rintro ⟨hV, hP⟩
    simp only [hitAt, hV, hP]

/-- A queue that comes out equal has, function by function, equal sides: a side
only ever moves away from a nameless zero, so the zeros cannot trade places. -/
theorem sides_eq_of_perm {α : Type*} {l : List α}
    {hit hit' : α → TriageHit} {side : TriageHit → Float × String}
    (hmoves : ∀ f ∈ l, side (hit' f) ≠ side (hit f) → side (hit f) = (0.0, ""))
    (hperm : (l.map hit').Perm (l.map hit)) : ∀ f ∈ l, side (hit' f) = side (hit f) := by
  have hcount := hperm.countP_eq fun h ↦ decide (side h = (0.0, ""))
  rw [List.countP_map, List.countP_map] at hcount
  have hback := eq_of_countP_eq (fun f hf hzero ↦ ?_) hcount
  · intro f hf
    by_contra hne
    have hzero := hmoves f hf hne
    have hzero' : side (hit' f) = (0.0, "") :=
      of_decide_eq_true (hback f hf (decide_eq_true hzero))
    exact hne (hzero'.trans hzero.symm)
  · have hzero' : side (hit' f) = (0.0, "") := of_decide_eq_true hzero
    by_cases hne : side (hit' f) = side (hit f)
    · exact decide_eq_true (hne.symm.trans hzero')
    · exact decide_eq_true (hmoves f hf hne)

/-- Deleting rows that cannot win leaves triage alone exactly when no judged
function is exposed by it, on either side. -/
theorem triage_delete_iff {target : List IndexedFunc} {V P V' P' : List FuncRec}
    {minSim margin : Float} (hV : Deletes V V') (hP : Deletes P P') :
    triage target (MemCorpus.fromRecords V').toCorpus (MemCorpus.fromRecords P').toCorpus
        minSim margin =
      triage target (MemCorpus.fromRecords V).toCorpus (MemCorpus.fromRecords P).toCorpus
        minSim margin ↔
      ∀ f ∈ target, lowSignal f.fp = false → ¬Exposed f.fp V V' ∧ ¬Exposed f.fp P P' := by
  have hjudged : ∀ f : IndexedFunc, f ∈ target.filter (fun f ↦ !lowSignal f.fp) ↔
      f ∈ target ∧ lowSignal f.fp = false := by
    intro f
    rw [List.mem_filter, Bool.not_eq_true']
  rw [triage_fromRecords, triage_fromRecords, Except.ok.injEq]
  constructor
  · intro heq f hf hsignal
    have hperm : ((target.filter fun f ↦ !lowSignal f.fp).map (hitAt minSim margin V' P')).Perm
        ((target.filter fun f ↦ !lowSignal f.fp).map (hitAt minSim margin V P)) :=
      (perm_sortBy hitCmp _).symm.trans (heq ▸ perm_sortBy hitCmp _)
    have hmem := (hjudged f).mpr ⟨hf, hsignal⟩
    rw [← sideOf_eq_iff hV, ← sideOf_eq_iff hP]
    constructor
    · have hside := @sides_eq_of_perm _ _ _ _ (fun h ↦ (h.vulnSim, h.vulnName))
        (fun g _ hne ↦ ?_) hperm f hmem
      · exact hside
      · exact sideOf_of_exposed hV (not_not.mp fun hnot ↦ hne ((sideOf_eq_iff hV).mpr hnot))
    · have hside := @sides_eq_of_perm _ _ _ _ (fun h ↦ (h.patchedSim, h.patchedName))
        (fun g _ hne ↦ ?_) hperm f hmem
      · exact hside
      · exact sideOf_of_exposed hP (not_not.mp fun hnot ↦ hne ((sideOf_eq_iff hP).mpr hnot))
  · intro hnot
    congr 1
    apply List.map_congr_left
    intro f hf
    obtain ⟨hmem, hsignal⟩ := (hjudged f).mp hf
    obtain ⟨hnotV, hnotP⟩ := hnot f hmem hsignal
    exact hitAt_eq_iff.mpr ⟨(sideOf_eq_iff hV).mpr hnotV, (sideOf_eq_iff hP).mpr hnotP⟩

/-- A print whose slots take two values in turn. -/
def stripedPrint (v w : UInt64) : Fingerprint :=
  ⟨(List.range sigLen).map fun i ↦ if i % 2 = 0 then v else w, 5, 9, false,
    by rw [List.length_map, List.length_range]; decide⟩

def unnamedRow (fp : Fingerprint) : FuncRec := ⟨2, "lib", none, 0x80, "eh_frame", fp, []⟩

/-- A lead at one half, hidden behind an unnamed row with the target's own print. -/
def hiddenLead : List FuncRec :=
  [unnamedRow (constPrint 7), namedRow "f" (stripedPrint 7 8)]

def judged (fp : Fingerprint) : IndexedFunc := ⟨none, 0x10, .ehFrame, fp, 1.0, []⟩

theorem deletes_hiddenLead : Deletes hiddenLead hiddenLead.tail where
  sublist := List.tail_sublist _
  live_eq := by decide

theorem deletes_nil : Deletes [] [] where
  sublist := List.Sublist.refl _
  live_eq := rfl

theorem triage_delete_iff_hiddenLead :
    triage [judged (constPrint 7)] (MemCorpus.fromRecords hiddenLead.tail).toCorpus
        (MemCorpus.fromRecords []).toCorpus 0.3 0.1 =
      triage [judged (constPrint 7)] (MemCorpus.fromRecords hiddenLead).toCorpus
        (MemCorpus.fromRecords []).toCorpus 0.3 0.1 ↔
      ∀ f ∈ [judged (constPrint 7)], lowSignal f.fp = false →
        ¬Exposed f.fp hiddenLead hiddenLead.tail ∧ ¬Exposed f.fp [] [] :=
  triage_delete_iff deletes_hiddenLead deletes_nil

/-- Deleting the unnamed row turns an inconclusive verdict into a vulnerable one. -/
theorem unnamed_row_hides_lead :
    Deletes hiddenLead hiddenLead.tail ∧
      triage [judged (constPrint 7)] (MemCorpus.fromRecords hiddenLead.tail).toCorpus
          (MemCorpus.fromRecords []).toCorpus 0.3 0.1 ≠
        triage [judged (constPrint 7)] (MemCorpus.fromRecords hiddenLead).toCorpus
          (MemCorpus.fromRecords []).toCorpus 0.3 0.1 := by
  refine ⟨deletes_hiddenLead, fun h ↦ ?_⟩
  have hbefore : (triage [judged (constPrint 7)] (MemCorpus.fromRecords hiddenLead).toCorpus
      (MemCorpus.fromRecords []).toCorpus 0.3 0.1).toOption =
        some [⟨0x10, .inconclusive, 0.0, "", 0.0, "", 1.0⟩] := by decide +kernel
  have hafter : (triage [judged (constPrint 7)] (MemCorpus.fromRecords hiddenLead.tail).toCorpus
      (MemCorpus.fromRecords []).toCorpus 0.3 0.1).toOption =
        some [⟨0x10, .vulnerable, 0.5, "f", 0.0, "", 1.0⟩] := by decide +kernel
  rw [h, hbefore] at hafter
  exact absurd hafter (by decide)

end Fnprint
