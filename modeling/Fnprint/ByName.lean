import Fnprint.Match

/-!
# What the diff by name reports

The two name maps hold one function for every name.  The diff accounts for
exactly the functions they hold, so it drops a function when it has no name or
when a later function has the same name.
-/

namespace Fnprint

open StableSort KeyMap

/-! ## The tally -/

def Visit.isCompared : Visit → Bool
  | .compared .. => true
  | .onlyA .. => false

def Visit.onlyName : Visit → Option String
  | .compared .. => none
  | .onlyA name _ => some name

/-- The comparisons counted so far were each put in one of three places. -/
def Balanced (rep : MatchReport) : Prop :=
  rep.compared = rep.same + rep.changed.length + rep.lowSignal

theorem balanced_tally (a b : List IndexedFunc) {rep : MatchReport} (h : Balanced rep)
    (v : Visit) : Balanced (tally a b rep v) := by
  unfold Balanced at h ⊢
  cases v with
  | onlyA name i => exact h
  | compared name i j =>
      simp only [tally]
      split
      · simp only [h]
        rfl
      · split
        · simp only [h]
          ac_rfl
        · simp only [h, List.length_append, List.length_singleton]
          ac_rfl

theorem compared_tally (a b : List IndexedFunc) (rep : MatchReport) (v : Visit) :
    (tally a b rep v).compared = rep.compared + if v.isCompared then 1 else 0 := by
  cases v with
  | onlyA name i => rfl
  | compared name i j =>
      simp only [tally]
      split
      · rfl
      · split <;> rfl

theorem onlyA_tally (a b : List IndexedFunc) (rep : MatchReport) (v : Visit) :
    (tally a b rep v).onlyA = rep.onlyA ++ v.onlyName.toList := by
  cases v with
  | onlyA name i => rfl
  | compared name i j =>
      simp only [tally, Visit.onlyName, Option.toList_none, List.append_nil]
      split
      · rfl
      · split <;> rfl

theorem foldl_tally (a b : List IndexedFunc) (vs : List Visit) {rep : MatchReport}
    (h : Balanced rep) :
    Balanced (vs.foldl (tally a b) rep) ∧
      (vs.foldl (tally a b) rep).compared = rep.compared + vs.countP Visit.isCompared ∧
      (vs.foldl (tally a b) rep).onlyA = rep.onlyA ++ vs.filterMap Visit.onlyName := by
  induction vs generalizing rep with
  | nil => exact ⟨h, by simp, by simp⟩
  | cons v vs ih =>
      obtain ⟨hbalanced, hcompared, honly⟩ := ih (balanced_tally a b h v)
      refine ⟨hbalanced, ?_, ?_⟩
      · rw [List.foldl_cons, hcompared, compared_tally, List.countP_cons, Nat.add_assoc,
          Nat.add_comm (if v.isCompared then 1 else 0)]
      · rw [List.foldl_cons, honly, onlyA_tally, List.append_assoc]
        cases hv : v.onlyName <;> simp [hv]

section Report

variable (a b : List IndexedFunc)

theorem balanced_matchByName : Balanced (matchByName a b) := by
  have hstart : Balanced MatchReport.default := rfl
  have hbalanced := (foldl_tally a b (visits a b) hstart).1
  simp only [Balanced, matchByName, MatchReport.sorted, length_sortBy] at hbalanced ⊢
  exact hbalanced

theorem compared_matchByName :
    (matchByName a b).compared = (visits a b).countP Visit.isCompared := by
  have hstart : Balanced MatchReport.default := rfl
  have hcompared := (foldl_tally a b (visits a b) hstart).2.1
  exact hcompared.trans (Nat.zero_add _)

variable {a b}

theorem mem_onlyA_matchByName {name : String} :
    name ∈ (matchByName a b).onlyA ↔ ∃ i, Visit.onlyA name i ∈ visits a b := by
  have hstart : Balanced MatchReport.default := rfl
  have honly : ((visits a b).foldl (tally a b) MatchReport.default).onlyA =
      (visits a b).filterMap Visit.onlyName := (foldl_tally a b (visits a b) hstart).2.2
  simp only [matchByName, MatchReport.sorted, mem_sortBy, honly, List.mem_filterMap]
  constructor
  · rintro ⟨v, hv, hname⟩
    cases v with
    | compared n i j => cases hname
    | onlyA n i =>
        obtain rfl := Option.some.inj hname
        exact ⟨i, hv⟩
  · rintro ⟨i, hv⟩
    exact ⟨_, hv, rfl⟩

theorem mem_onlyB_matchByName {name : String} :
    name ∈ (matchByName a b).onlyB ↔ ∃ j, Sigma.mk name j ∈ unmatchedB a b := by
  simp only [matchByName, MatchReport.sorted, mem_sortBy, List.mem_map]
  constructor
  · rintro ⟨⟨n, j⟩, hmem, rfl⟩
    exact ⟨j, hmem⟩
  · rintro ⟨j, hmem⟩
    exact ⟨_, hmem, rfl⟩

/-! ## Functions accounted for -/

/-- Every function with signal is compared with one of the other index, and
every comparison is counted, or it is listed as only in its own. -/
structure DropsNothing (a b : List IndexedFunc) : Prop where
  balanced : Balanced (matchByName a b)
  counted : (matchByName a b).compared = (visits a b).countP Visit.isCompared
  of_a : ∀ (i : ℕ) (f : IndexedFunc), a[i]? = some f → lowSignal f.fp = false →
    (∃ name j, Visit.compared name i j ∈ visits a b) ∨
      ∃ name ∈ (matchByName a b).onlyA, Visit.onlyA name i ∈ visits a b
  of_b : ∀ (j : ℕ) (g : IndexedFunc), b[j]? = some g → lowSignal g.fp = false →
    (∃ name i, Visit.compared name i j ∈ visits a b) ∨
      ∃ name ∈ (matchByName a b).onlyB, Sigma.mk name j ∈ unmatchedB a b

/-- Every function with signal has a name, and no later function has it too. -/
def HoldNames (l : List IndexedFunc) : Prop :=
  ∀ (i : ℕ) (f : IndexedFunc), l[i]? = some f → lowSignal f.fp = false →
    ∃ name, f.name = some name ∧
      ∀ (k : ℕ) (g : IndexedFunc), i < k → l[k]? = some g → g.name ≠ some name

theorem mem_entries_nameMap {l : List IndexedFunc} {name : String} {i : ℕ} :
    Sigma.mk name i ∈ (nameMap l).entries ↔ (nameMap l).lookup name = some i :=
  AList.mem_lookup_iff.symm

theorem holdNames_iff {l : List IndexedFunc} :
    HoldNames l ↔ ∀ (i : ℕ) (f : IndexedFunc), l[i]? = some f → lowSignal f.fp = false →
      ∃ name, (nameMap l).lookup name = some i := by
  simp only [HoldNames, nameMap, lookup_indexByOpt_eq_some_iff]
  refine forall₂_congr fun i f ↦ forall₂_congr fun hf _ ↦ exists_congr fun name ↦ ?_
  refine and_congr_left fun _ ↦ ⟨fun h ↦ ⟨f, hf, h⟩, ?_⟩
  rintro ⟨g, hg, hname⟩
  rw [hf] at hg
  rwa [Option.some.inj hg]

theorem compared_mem_visits {name : String} {i j : ℕ} :
    Visit.compared name i j ∈ visits a b ↔
      (nameMap a).lookup name = some i ∧ (nameMap b).lookup name = some j := by
  rw [visits, List.mem_map]
  constructor
  · rintro ⟨⟨n, k⟩, hmem, hv⟩
    unfold visit at hv
    split at hv
    next j' hj =>
      obtain ⟨rfl, rfl, rfl⟩ := Visit.compared.inj hv
      exact ⟨mem_entries_nameMap.mp hmem, hj⟩
    next => cases hv
  · rintro ⟨hi, hj⟩
    exact ⟨⟨name, i⟩, mem_entries_nameMap.mpr hi, by simp [visit, hj]⟩

theorem onlyA_mem_visits {name : String} {i : ℕ} :
    Visit.onlyA name i ∈ visits a b ↔
      (nameMap a).lookup name = some i ∧ (nameMap b).lookup name = none := by
  rw [visits, List.mem_map]
  constructor
  · rintro ⟨⟨n, k⟩, hmem, hv⟩
    unfold visit at hv
    split at hv
    next => cases hv
    next hnone =>
      obtain ⟨rfl, rfl⟩ := Visit.onlyA.inj hv
      exact ⟨mem_entries_nameMap.mp hmem, hnone⟩
  · rintro ⟨hi, hnone⟩
    exact ⟨⟨name, i⟩, mem_entries_nameMap.mpr hi, by simp [visit, hnone]⟩

theorem mem_unmatchedB {name : String} {j : ℕ} :
    Sigma.mk name j ∈ unmatchedB a b ↔
      (nameMap b).lookup name = some j ∧ (nameMap a).lookup name = none := by
  rw [unmatchedB, List.mem_filter, mem_entries_nameMap, Option.isNone_iff_eq_none]

theorem accounted_a_iff {i : ℕ} :
    ((∃ name j, Visit.compared name i j ∈ visits a b) ∨
      ∃ name ∈ (matchByName a b).onlyA, Visit.onlyA name i ∈ visits a b) ↔
        ∃ name, (nameMap a).lookup name = some i := by
  constructor
  · rintro (⟨name, j, hv⟩ | ⟨name, -, hv⟩)
    · exact ⟨name, (compared_mem_visits.mp hv).1⟩
    · exact ⟨name, (onlyA_mem_visits.mp hv).1⟩
  · rintro ⟨name, hi⟩
    cases hb : (nameMap b).lookup name with
    | some j => exact Or.inl ⟨name, j, compared_mem_visits.mpr ⟨hi, hb⟩⟩
    | none =>
        have hv := onlyA_mem_visits.mpr ⟨hi, hb⟩
        exact Or.inr ⟨name, mem_onlyA_matchByName.mpr ⟨i, hv⟩, hv⟩

theorem accounted_b_iff {j : ℕ} :
    ((∃ name i, Visit.compared name i j ∈ visits a b) ∨
      ∃ name ∈ (matchByName a b).onlyB, Sigma.mk name j ∈ unmatchedB a b) ↔
        ∃ name, (nameMap b).lookup name = some j := by
  constructor
  · rintro (⟨name, i, hv⟩ | ⟨name, -, hv⟩)
    · exact ⟨name, (compared_mem_visits.mp hv).2⟩
    · exact ⟨name, (mem_unmatchedB.mp hv).1⟩
  · rintro ⟨name, hj⟩
    cases ha : (nameMap a).lookup name with
    | some i => exact Or.inl ⟨name, i, compared_mem_visits.mpr ⟨ha, hj⟩⟩
    | none =>
        have hv := mem_unmatchedB.mpr ⟨hj, ha⟩
        exact Or.inr ⟨name, mem_onlyB_matchByName.mpr ⟨j, hv⟩, hv⟩

end Report

/-- Where both sides have names the diff goes by name, and it drops nothing
exactly when the names hold on to all functions with signal. -/
theorem matchReport_dropsNothing_iff {a b : List IndexedFunc} (h : bothNamed a b = true)
    (graphWeight : Float) :
    matchReport false a b graphWeight = matchByName a b ∧
      (DropsNothing a b ↔ HoldNames a ∧ HoldNames b) := by
  constructor
  · simp [matchReport, h]
  · rw [holdNames_iff, holdNames_iff]
    constructor
    · intro hdrops
      exact ⟨fun i f hf hsignal ↦ accounted_a_iff.mp (hdrops.of_a i f hf hsignal),
        fun j g hg hsignal ↦ accounted_b_iff.mp (hdrops.of_b j g hg hsignal)⟩
    · rintro ⟨ha, hb⟩
      exact
        { balanced := balanced_matchByName a b
          counted := compared_matchByName a b
          of_a := fun i f hf hsignal ↦ accounted_a_iff.mpr (ha i f hf hsignal)
          of_b := fun j g hg hsignal ↦ accounted_b_iff.mpr (hb j g hg hsignal) }

/-- An export that kept its name next to a static function that lost it. -/
def halfNamed (v : UInt64) : List IndexedFunc :=
  [⟨some "export", 0x10, .dynSym, constPrint 7, 1.0, []⟩,
    ⟨none, 0x20, .ehFrame, constPrint v, 1.0, []⟩]

theorem matchReport_dropsNothing_iff_halfNamed :
    matchReport false (halfNamed 1) (halfNamed 2) 1.0 = matchByName (halfNamed 1) (halfNamed 2) ∧
      (DropsNothing (halfNamed 1) (halfNamed 2) ↔
        HoldNames (halfNamed 1) ∧ HoldNames (halfNamed 2)) :=
  matchReport_dropsNothing_iff (by decide) 1.0

/-- The static function changed completely, and the diff does not mention it. -/
theorem unnamed_function_dropped :
    bothNamed (halfNamed 1) (halfNamed 2) = true ∧ ¬DropsNothing (halfNamed 1) (halfNamed 2) ∧
      (matchByName (halfNamed 1) (halfNamed 2)).compared = 1 ∧
      (matchByName (halfNamed 1) (halfNamed 2)).onlyA = [] := by
  refine ⟨by decide, fun h ↦ ?_, by decide +kernel, by decide +kernel⟩
  have hlost := h.of_a 1 ⟨none, 0x20, .ehFrame, constPrint 1, 1.0, []⟩ rfl (by decide)
  obtain ⟨name, hname⟩ := accounted_a_iff.mp hlost
  obtain ⟨⟨f, hf, hfname⟩, -⟩ := lookup_indexByOpt_eq_some_iff.mp hname
  obtain rfl := Option.some.inj hf
  cases hfname

end Fnprint
