import Fnprint.Match
import Fnprint.Rounds

/-!
# Where the functions of an aligned diff go

Every function of a side is in one compared pair, listed as found on its side
only, or counted as low signal, and in no two of these.
-/

namespace Fnprint

open Binary64 StableSort KeyMap

theorem not_usable (fp : Fingerprint) : (!usable fp) = lowSignal fp := by
  rw [usable, lowSignal, Bool.not_and]
  congr 1
  · rw [Bool.eq_iff_iff]
    simp
  · rw [Bool.eq_iff_iff]
    simp

theorem countP_add_countP_not {α : Type*} (p : α → Bool) (l : List α) :
    l.countP p + l.countP (fun x ↦ !p x) = l.length := by
  rw [List.length_eq_countP_add_countP p]
  simp

/-! ## The loop over the pairs -/

/-- A pair as a changed row. -/
def changedOf (a b : List IndexedFunc) (p : Pair) : Changed :=
  ⟨pairLabel (funcAt a p.a) (funcAt b p.b), p.sim, some (funcAt a p.a).entry,
    some (funcAt b p.b).entry⟩

theorem foldl_readPair (a b : List IndexedFunc) (pairs : List Pair) (rep : MatchReport) :
    pairs.foldl (readPair a b) rep =
      { rep with
        same := rep.same + pairs.countP fun p ↦ sameThresh ≤ p.sim
        changed := rep.changed ++
          (pairs.filter fun p ↦ !decide (sameThresh ≤ p.sim)).map (changedOf a b)
        compared := rep.compared + pairs.length } := by
  induction pairs generalizing rep with
  | nil => simp
  | cons p pairs ih =>
      rw [List.foldl_cons, ih, readPair]
      by_cases hsame : sameThresh ≤ p.sim
      · simp [hsame, Nat.add_assoc, Nat.add_comm 1]
      · simp [hsame, changedOf, Nat.add_assoc, Nat.add_comm 1]

/-! ## What is left on a side -/

theorem nodeAt_map_fromIndexed (l : List IndexedFunc) (i : ℕ) :
    nodeAt (l.map Node.fromIndexed) i = Node.fromIndexed (funcAt l i) :=
  List.getD_map l default Node.fromIndexed

/-- The positions of a side with signal. -/
def signalIdx (l : List IndexedFunc) : List ℕ :=
  (List.range l.length).filter fun i ↦ usable (funcAt l i).fp

theorem usableIdx_fromIndexed (l : List IndexedFunc) :
    usableIdx (l.map Node.fromIndexed) = signalIdx l := by
  rw [usableIdx_eq, signalIdx, List.length_map]
  apply List.filter_congr
  intro i _
  rw [nodeAt_map_fromIndexed]
  rfl

theorem length_signalIdx (l : List IndexedFunc) :
    (signalIdx l).length = l.countP fun f ↦ usable f.fp := by
  conv_rhs => rw [← map_getD_range l default, List.countP_map]
  rw [signalIdx, ← List.countP_eq_length_filter]
  rfl

/-- The positions with signal outside some pairs. -/
def leftOver (l : List IndexedFunc) (taken : List ℕ) : List ℕ :=
  (signalIdx l).filter fun i ↦ i ∉ taken

theorem unpaired_eq (l : List IndexedFunc) (taken : List ℕ) :
    unpaired l (fill l.length false (taken.map fun i ↦ (i, true))) =
      (leftOver l taken).map (funcAt l) := by
  rw [unpaired, zipIdx_eq_map_range l default, List.filter_map, List.map_map, leftOver, signalIdx,
    List.filter_filter]
  congr 1
  apply List.filter_congr
  intro i hi
  have hfill := getD_fill_true (n := l.length) (l := taken) (List.mem_range.mp hi)
  have hmark : (fill l.length false (taken.map fun i ↦ (i, true))).getD i false =
      decide (i ∈ taken) := by
    rw [Bool.eq_iff_iff, hfill, decide_eq_true_eq]
  rw [Function.comp_apply, hmark, decide_not]
  rfl

theorem leftOver_eq_nil {l : List IndexedFunc} {taken : List ℕ}
    (h : ∀ i ∈ signalIdx l, i ∈ taken) : leftOver l taken = [] := by
  apply List.filter_eq_nil_iff.mpr
  intro i hi
  simp [h i hi]

/-- A side is split into the taken positions and the left over ones. -/
theorem length_leftOver {l : List IndexedFunc} {taken : List ℕ} (hnodup : taken.Nodup)
    (hsub : ∀ i ∈ taken, i ∈ signalIdx l) :
    taken.length + (leftOver l taken).length = l.countP fun f ↦ usable f.fp := by
  have hperm : taken.Perm ((signalIdx l).filter fun i ↦ i ∈ taken) := by
    have hnodup' : (signalIdx l).Nodup := List.nodup_range.filter _
    rw [List.perm_ext_iff_of_nodup hnodup (hnodup'.filter _)]
    intro i
    simp only [List.mem_filter, decide_eq_true_eq]
    exact ⟨fun hi ↦ ⟨hsub i hi, hi⟩, fun hi ↦ hi.2⟩
  rw [← length_signalIdx, hperm.length_eq, leftOver, ← List.countP_eq_length_filter,
    ← List.countP_eq_length_filter, ← countP_add_countP_not (fun i ↦ decide (i ∈ taken))]
  simp

/-! ## The report -/

/-- The pairs an aligned diff compares. -/
def comparedPairs (a b : List IndexedFunc) (graphWeight : Float) : List Pair :=
  align (a.map Node.fromIndexed) (b.map Node.fromIndexed)
    { threshold := 0.45, graphWeight := graphWeight, rounds := 2 }

/-- A report accounts for every function of both sides: the counts add up, no
function is in two of the pairs, and only functions in no pair are listed as
found on one side. -/
structure AccountsFor (a b : List IndexedFunc) (pairs : List Pair) (rep : MatchReport) : Prop where
  compared : rep.compared = pairs.length
  judged : rep.compared = rep.same + rep.changed.length
  count_a : rep.compared + rep.onlyA.length + rep.lowSignal = a.length
  count_b : rep.compared + rep.onlyB.length =
    b.countP fun f ↦ minComplexity ≤ f.fp.complexity && 0 < f.fp.shingles
  nodup_a : (pairs.map Pair.a).Nodup
  nodup_b : (pairs.map Pair.b).Nodup
  changed : rep.changed.Perm
    ((pairs.filter fun p ↦ !decide (sameThresh ≤ p.sim)).map (changedOf a b))
  onlyA : rep.onlyA.Perm ((leftOver a (pairs.map Pair.a)).map fun i ↦ label (funcAt a i))
  onlyB : rep.onlyB.Perm ((leftOver b (pairs.map Pair.b)).map fun i ↦ label (funcAt b i))

theorem matchAligned_eq (a b : List IndexedFunc) (graphWeight : Float) :
    matchAligned a b graphWeight =
      let pairs := comparedPairs a b graphWeight
      { same := pairs.countP fun p ↦ sameThresh ≤ p.sim
        changed := sortBy changedCmp
          ((pairs.filter fun p ↦ !decide (sameThresh ≤ p.sim)).map (changedOf a b))
        onlyA := sortBy compare
          ((leftOver a (pairs.map Pair.a)).map fun i ↦ label (funcAt a i))
        onlyB := sortBy compare
          ((leftOver b (pairs.map Pair.b)).map fun i ↦ label (funcAt b i))
        compared := pairs.length
        lowSignal := a.countP fun f ↦ lowSignal f.fp } := by
  have hmarks (side : Pair → ℕ) (pairs : List Pair) :
      (pairs.map fun p ↦ (side p, true)) = (pairs.map side).map fun i ↦ (i, true) := by
    rw [List.map_map]
    rfl
  simp only [matchAligned, comparedPairs, foldl_readPair, hmarks Pair.a, hmarks Pair.b,
    unpaired_eq, MatchReport.sorted, MatchReport.default, List.nil_append, Nat.zero_add]
  simp only [List.map_map]
  rfl

/-- The aligned diff accounts for every function. -/
theorem matchAligned_accountsFor (a b : List IndexedFunc) (graphWeight : Float) :
    AccountsFor a b (comparedPairs a b graphWeight) (matchAligned a b graphWeight) := by
  have hpairs : Assigned (a.map Node.fromIndexed) (b.map Node.fromIndexed)
      (comparedPairs a b graphWeight) := assigned_align _ _ _
  rw [matchAligned_eq]
  generalize comparedPairs a b graphWeight = pairs at hpairs
  have ha := length_leftOver (l := a) hpairs.oneToOne.nodup_a fun i hi ↦ by
    obtain ⟨p, hp, rfl⟩ := List.mem_map.mp hi
    rw [← usableIdx_fromIndexed]
    exact hpairs.usable_a hp
  have hb := length_leftOver (l := b) hpairs.oneToOne.nodup_b fun i hi ↦ by
    obtain ⟨p, hp, rfl⟩ := List.mem_map.mp hi
    rw [← usableIdx_fromIndexed]
    exact hpairs.usable_b hp
  rw [List.length_map] at ha hb
  exact
    { compared := rfl
      judged := by
        simp only [length_sortBy, List.length_map, ← List.countP_eq_length_filter]
        exact (countP_add_countP_not _ pairs).symm
      count_a := by
        simp only [length_sortBy, List.length_map, ← not_usable]
        rw [ha]
        exact countP_add_countP_not _ a
      count_b := by
        simp only [length_sortBy, List.length_map]
        exact hb
      nodup_a := hpairs.oneToOne.nodup_a
      nodup_b := hpairs.oneToOne.nodup_b
      changed := perm_sortBy _ _
      onlyA := perm_sortBy _ _
      onlyB := perm_sortBy _ _ }

end Fnprint
