import Fnprint.Lib.Fallible
import Fnprint.Triage

/-!
# Triage, function by function

A review queue is put together from what each target function gets on its own,
over any corpora: no function of the target has a say in the hit of another.
-/

namespace Fnprint

open Binary64 StableSort Fallible

instance : Std.TransCmp hitCmp := inferInstanceAs (Std.TransCmp (compareLex _ _))

/-- The best of one side for one function. -/
def sideFor (db : Corpus) (f : IndexedFunc) : Except String (Option (Float × String)) := do
  let all ← db.all
  if lowSignal f.fp then .ok none
  else do
    let best ← bestInCorpus f.fp db (all.filter fun r ↦ r.name.isSome)
    return best.map fun b ↦ (b.1, b.2.1)

def sideValue (db : Corpus) (f : IndexedFunc) : Option (Float × String) :=
  okOr none (sideFor db f)

/-- A corpus that answers for every function of a target. -/
structure Answers (db : Corpus) (target : List IndexedFunc) : Prop where
  all : ∃ all, db.all = .ok all
  side : ∀ f ∈ target, ∃ s, sideFor db f = .ok s

theorem triageSide_eq_ok_iff {target : List IndexedFunc} {db : Corpus}
    {sides : List (Option (Float × String))} :
    triageSide target db = .ok sides ↔ Answers db target ∧ sides = target.map (sideValue db) := by
  have hstep : ∀ all, db.all = .ok all → ∀ f, sideFor db f =
      if lowSignal f.fp then .ok none
      else do
        let best ← bestInCorpus f.fp db (all.filter fun r ↦ r.name.isSome)
        return best.map fun b ↦ (b.1, b.2.1) := by
    intro all hall f
    rw [sideFor, hall]
    rfl
  rw [triageSide, bind_eq_ok_iff]
  constructor
  · rintro ⟨all, hall, h⟩
    simp only [← hstep all hall] at h
    obtain ⟨hside, hsides⟩ := (mapM_eq_ok_iff none).mp h
    exact ⟨⟨⟨all, hall⟩, hside⟩, hsides⟩
  · rintro ⟨⟨⟨all, hall⟩, hside⟩, hsides⟩
    refine ⟨all, hall, ?_⟩
    simp only [← hstep all hall]
    exact (mapM_eq_ok_iff none).mpr ⟨hside, hsides⟩

/-- The hit of one function. -/
def hitFor (minSim margin : Float) (V P : Corpus) (f : IndexedFunc) : TriageHit :=
  hitOf minSim margin f (sideValue V f) (sideValue P f)

/-- The hits of a target before they are sorted. -/
def hitsFor (minSim margin : Float) (V P : Corpus) (target : List IndexedFunc) : List TriageHit :=
  (target.filter fun f ↦ !lowSignal f.fp).map (hitFor minSim margin V P)

section Run

variable {target : List IndexedFunc} {V P : Corpus} {minSim margin : Float} {hits : List TriageHit}

theorem triage_eq_ok_iff : triage target V P minSim margin = .ok hits ↔
    Answers V target ∧ Answers P target ∧
      hits = sortBy hitCmp (hitsFor minSim margin V P target) := by
  -- the readout of a row is any function that computes `hitOf` on triples
  have hout : ∀ readout : IndexedFunc × Option (Float × String) × Option (Float × String) →
      Option TriageHit,
      (∀ f a b, readout (f, a, b) =
        if lowSignal f.fp then none else some (hitOf minSim margin f a b)) →
      (target.zip ((target.map (sideValue V)).zip (target.map (sideValue P)))).filterMap readout =
        hitsFor minSim margin V P target := by
    intro readout hreadout
    have hzip : target.zip ((target.map (sideValue V)).zip (target.map (sideValue P))) =
        target.map fun f ↦ (f, sideValue V f, sideValue P f) := by
      rw [List.zip_map']
      conv_lhs => rw [← List.map_id target, List.map_map]
      rw [List.zip_map']
      rfl
    rw [hzip, List.filterMap_map, hitsFor, ← List.filterMap_eq_map, List.filterMap_filter]
    apply List.filterMap_congr
    intro f _
    cases hf : lowSignal f.fp
    · simp [hreadout, hf, hitFor]
    · simp [hreadout, hf]
  rw [triage, bind_eq_ok_iff]
  constructor
  · rintro ⟨v, hv, h⟩
    obtain ⟨pt, hpt, h⟩ := bind_eq_ok_iff.mp h
    obtain ⟨hV, rfl⟩ := triageSide_eq_ok_iff.mp hv
    obtain ⟨hP, rfl⟩ := triageSide_eq_ok_iff.mp hpt
    exact ⟨hV, hP, (pure_eq_ok_iff.mp h).symm.trans
      (congrArg (sortBy hitCmp) (hout _ fun _ _ _ ↦ rfl))⟩
  · rintro ⟨hV, hP, rfl⟩
    refine ⟨_, triageSide_eq_ok_iff.mpr ⟨hV, rfl⟩, bind_eq_ok_iff.mpr
      ⟨_, triageSide_eq_ok_iff.mpr ⟨hP, rfl⟩, pure_eq_ok_iff.mpr ?_⟩⟩
    exact congrArg (sortBy hitCmp) (hout _ fun _ _ _ ↦ rfl)

theorem Answers.mono {db : Corpus} {target' : List IndexedFunc} (h : Answers db target)
    (hsub : ∀ f ∈ target', f ∈ target) : Answers db target' :=
  ⟨h.all, fun f hf ↦ h.side f (hsub f hf)⟩

theorem flatMap_hitsFor (minSim margin : Float) (V P : Corpus) (target : List IndexedFunc) :
    hitsFor minSim margin V P target =
      target.flatMap fun f ↦ hitsFor minSim margin V P [f] := by
  induction target with
  | nil => rfl
  | cons f target ih =>
      rw [List.flatMap_cons, ← ih]
      cases hf : lowSignal f.fp with
      | true => simp [hitsFor, hf]
      | false => simp [hitsFor, hf]

theorem sortBy_hitsFor_singleton (minSim margin : Float) (V P : Corpus) (f : IndexedFunc) :
    sortBy hitCmp (hitsFor minSim margin V P [f]) = hitsFor minSim margin V P [f] := by
  cases hf : lowSignal f.fp with
  | true => simp [hitsFor, hf]
  | false =>
      rw [hitsFor]
      simp only [List.filter_cons, hf]
      exact sortBy_eq_self hitCmp (List.pairwise_singleton _ _)

theorem eq_of_hitCmp (hentries : (target.map IndexedFunc.entry).Nodup) {x y : TriageHit}
    (hx : x ∈ hitsFor minSim margin V P target) (hy : y ∈ hitsFor minSim margin V P target)
    (htie : hitCmp x y = .eq) : x = y := by
  obtain ⟨f, hf, rfl⟩ := List.mem_map.mp hx
  obtain ⟨g, hg, rfl⟩ := List.mem_map.mp hy
  have hentry : f.entry = g.entry :=
    Std.LawfulEqCmp.eq_of_compare (compareLex_eq_iff.mp (compareLex_eq_iff.mp htie).2).2
  rw [List.inj_on_of_nodup_map hentries (List.mem_filter.mp hf).1 (List.mem_filter.mp hg).1 hentry]

end Run

/-- The hits of a triage are, as a multiset, those its functions get on their
own; it succeeds when they all do; and with distinct entries the queue does not
depend on the order of the target. -/
theorem triage_independent (target : List IndexedFunc) (V P : Corpus) (minSim margin : Float) :
    (∀ hits, triage target V P minSim margin = .ok hits →
      ∃ alone : IndexedFunc → List TriageHit,
        (∀ f ∈ target, triage [f] V P minSim margin = .ok (alone f)) ∧
          hits.Perm (target.flatMap alone)) ∧
    (target ≠ [] → (∀ f ∈ target, ∃ hits, triage [f] V P minSim margin = .ok hits) →
      ∃ hits, triage target V P minSim margin = .ok hits) ∧
    ((target.map IndexedFunc.entry).Nodup → ∀ target', target'.Perm target →
      ∀ hits, triage target V P minSim margin = .ok hits →
        triage target' V P minSim margin = .ok hits) := by
  refine ⟨?_, ?_, ?_⟩
  · intro hits h
    obtain ⟨hV, hP, rfl⟩ := triage_eq_ok_iff.mp h
    refine ⟨fun f ↦ hitsFor minSim margin V P [f], fun f hf ↦ ?_, ?_⟩
    · have hsub : ∀ g ∈ [f], g ∈ target := fun g hg ↦ List.mem_singleton.mp hg ▸ hf
      exact triage_eq_ok_iff.mpr
        ⟨hV.mono hsub, hP.mono hsub, (sortBy_hitsFor_singleton minSim margin V P f).symm⟩
    · rw [← flatMap_hitsFor]
      exact perm_sortBy _ _
  · intro hne hall
    have hanswers : ∀ f ∈ target, Answers V [f] ∧ Answers P [f] := by
      intro f hf
      obtain ⟨hits, hhits⟩ := hall f hf
      obtain ⟨hV, hP, -⟩ := triage_eq_ok_iff.mp hhits
      exact ⟨hV, hP⟩
    obtain ⟨g, hg⟩ := List.exists_mem_of_ne_nil target hne
    exact ⟨_, triage_eq_ok_iff.mpr
      ⟨⟨(hanswers g hg).1.all, fun f hf ↦ (hanswers f hf).1.side f List.mem_cons_self⟩,
        ⟨(hanswers g hg).2.all, fun f hf ↦ (hanswers f hf).2.side f List.mem_cons_self⟩, rfl⟩⟩
  · intro hentries target' hperm hits h
    obtain ⟨hV, hP, rfl⟩ := triage_eq_ok_iff.mp h
    have hsub : ∀ f ∈ target', f ∈ target := fun f hf ↦ hperm.mem_iff.mp hf
    refine triage_eq_ok_iff.mpr ⟨hV.mono hsub, hP.mono hsub, ?_⟩
    exact sortBy_eq_of_perm hitCmp ((hperm.symm.filter _).map _) fun x hx y hy htie ↦
      eq_of_hitCmp hentries hx hy htie

/-- Two functions of a target that behave alike. -/
def alikePair : List IndexedFunc :=
  [⟨none, 0x10, .ehFrame, constPrint 7, 1.0, []⟩, ⟨none, 0x20, .ehFrame, constPrint 7, 0.5, []⟩]

def oneRow : Corpus :=
  (MemCorpus.fromRecords [⟨1, "lib", some "f", 0x10, "symtab", constPrint 7, []⟩]).toCorpus

def noRows : Corpus := (MemCorpus.fromRecords []).toCorpus

theorem triage_independent_alikePair :
    triage alikePair.reverse oneRow noRows 0.5 0.1 = triage alikePair oneRow noRows 0.5 0.1 := by
  obtain ⟨hits, hrun⟩ : ∃ hits, triage alikePair oneRow noRows 0.5 0.1 = .ok hits := ⟨_, rfl⟩
  obtain ⟨-, -, horder⟩ := triage_independent alikePair oneRow noRows 0.5 0.1
  rw [hrun]
  exact horder (by decide) _ (List.reverse_perm alikePair) hits hrun

end Fnprint
