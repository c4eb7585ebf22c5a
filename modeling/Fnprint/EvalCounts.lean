import Fnprint.Eval
import Fnprint.Similarity

/-!
# The counts of an evaluation

An evaluation is a tally over the functions it scores: each adds its rank and
one call, right or wrong, confident or not.  Precision covers every scored
function; the misses counted for the recall are only those whose twin came
first.
-/

namespace Fnprint

open Binary64 StableSort KeyMap

/-! ## Scored functions -/

/-- The function carries signal and has a twin of its name to be found. -/
def isScored (bsig : List IndexedFunc) (f : IndexedFunc) : Bool :=
  !lowSignal f.fp && f.name.any fun n ↦ bsig.any fun g ↦ g.name == some n

/-- The first name ranked for a function, with its similarity. -/
def topMatch (bsig : List IndexedFunc) (f : IndexedFunc) : Float × String :=
  (rankNames bsig f.fp).headD (0.0, "")

/-- The top match is called the same. -/
def topSame (bsig : List IndexedFunc) (f : IndexedFunc) : Bool :=
  sameThresh ≤ (topMatch bsig f).1

/-- The top match is the twin. -/
def topRight (bsig : List IndexedFunc) (f : IndexedFunc) : Bool :=
  some (topMatch bsig f).2 == f.name

/-- The place of the twin, counted from zero. -/
def twinPlace (bsig : List IndexedFunc) (f : IndexedFunc) : ℕ :=
  (rankNames bsig f.fp).findIdx fun s ↦ some s.2 == f.name

/-- The reciprocal of a place counted from zero. -/
def reciprocal (pos : ℕ) : Float := 1.0 / (natCast pos + 1.0)

namespace EvalResult

/-- The counts of the ranking, without those of the alignment. -/
def ranking (res : EvalResult) : EvalResult :=
  { res with alignCorrect := 0, alignPaired := 0, alignTp := 0, alignFp := 0 }

/-- The counts of some scored functions. -/
def tallied (bsig S : List IndexedFunc) : EvalResult where
  scored := S.length
  rank1 := S.countP (topRight bsig)
  rrSum := S.foldl (fun sum f ↦ sum + reciprocal (twinPlace bsig f)) 0.0
  tp := S.countP fun f ↦ topSame bsig f && topRight bsig f
  fp := S.countP fun f ↦ topSame bsig f && !topRight bsig f
  fn_ := S.countP fun f ↦ !topSame bsig f && topRight bsig f
  ranks := S.map fun f ↦ twinPlace bsig f + 1
  abstained := S.countP fun f ↦ !topSame bsig f
  alignCorrect := 0
  alignPaired := 0
  alignTp := 0
  alignFp := 0

@[simp] theorem ranking_countPartner (res : EvalResult) (aname : String) (b : List IndexedFunc)
    (p : Option Pair) : (res.countPartner aname b p).ranking = res.ranking := by
  cases p with
  | none => rfl
  | some p =>
      simp only [countPartner]
      split <;> split <;> rfl

theorem ranking_countScored (res : EvalResult) (aname : String) (top : Float × String)
    (ranked : List (Float × String)) :
    (res.countScored aname top ranked).ranking = res.ranking.countScored aname top ranked := by
  unfold countScored countRank countCall
  cases hpos : ranked.findIdx? fun s ↦ s.2 == aname <;>
    cases hsame : decide (sameThresh ≤ top.1) <;> cases hright : top.2 == aname <;>
      by_cases htop : top.2 = aname <;> simp [htop, ranking]

end EvalResult

section Step

variable {bsig b : List IndexedFunc} {partner : Map ℕ Pair} {res : EvalResult} {f : IndexedFunc}

theorem mem_rankNames {fp : Fingerprint} {s : Float × String} :
    s ∈ rankNames bsig fp ↔ ∃ g ∈ bsig, g.name = some s.2 ∧ s.1 = fp.similarity g.fp := by
  rw [rankNames, mem_sortBy, List.mem_filterMap]
  refine exists_congr fun g ↦ and_congr_right fun _ ↦ ?_
  rw [Option.map_eq_some_iff]
  constructor
  · rintro ⟨n, hn, rfl⟩
    exact ⟨hn, rfl⟩
  · rintro ⟨hn, hsim⟩
    exact ⟨s.2, hn, by rw [← hsim]⟩

theorem isScored_iff : isScored bsig f = true ↔
    lowSignal f.fp = false ∧ ∃ n, f.name = some n ∧ ∃ g ∈ bsig, g.name = some n := by
  simp [isScored, Option.any_eq_true]

theorem evalStep_of_not_scored (h : isScored bsig f = false) (i : ℕ) :
    evalStep bsig b partner res (f, i) = res := by
  unfold isScored at h
  unfold evalStep
  cases hlow : lowSignal f.fp with
  | true => rfl
  | false =>
      cases hname : f.name with
      | none => rfl
      | some n =>
          simp only [hlow, hname, Bool.not_false, Bool.true_and, Option.any_some] at h
          simp [h]

theorem evalStep_of_scored (h : isScored bsig f = true) (i : ℕ) :
    ∃ n top rest, f.name = some n ∧ rankNames bsig f.fp = top :: rest ∧
      (top :: rest).findIdx? (fun s ↦ s.2 == n) = some (twinPlace bsig f) ∧
      evalStep bsig b partner res (f, i) =
        (res.countScored n top (top :: rest)).countPartner n b (partner.lookup i) := by
  obtain ⟨hlow, n, hname, g, hg, hgname⟩ := isScored_iff.mp h
  have hany : (bsig.any fun f ↦ f.name == some n) = true :=
    List.any_eq_true.mpr ⟨g, hg, by simp [hgname]⟩
  have hmem : (f.fp.similarity g.fp, n) ∈ rankNames bsig f.fp :=
    mem_rankNames.mpr ⟨g, hg, hgname, rfl⟩
  obtain ⟨top, rest, hranked⟩ := List.exists_cons_of_ne_nil (List.ne_nil_of_mem hmem)
  have hplace : twinPlace bsig f = (top :: rest).findIdx fun s ↦ s.2 == n := by
    simp [twinPlace, hranked, hname]
  refine ⟨n, top, rest, hname, hranked, ?_, ?_⟩
  · rw [List.findIdx?_eq_some_iff_findIdx_eq, hplace, ← hranked]
    exact ⟨List.findIdx_lt_length_of_exists ⟨_, hmem, by simp⟩, rfl⟩
  · simp [evalStep, hlow, hname, hany, hranked]

theorem evalStep_tallied {S : List IndexedFunc} (i : ℕ)
    (h : res.ranking = EvalResult.tallied bsig S) :
    (evalStep bsig b partner res (f, i)).ranking =
      EvalResult.tallied bsig (S ++ [f].filter (isScored bsig)) := by
  cases hscored : isScored bsig f with
  | false => rw [evalStep_of_not_scored hscored, h, List.filter_singleton, hscored]; simp
  | true =>
      obtain ⟨n, top, rest, hname, hranked, hplace, hstep⟩ :=
        @evalStep_of_scored bsig b partner res f hscored i
      have hsame : topSame bsig f = decide (sameThresh ≤ top.1) := by
        rw [topSame, topMatch, hranked, List.headD_cons]
      have hright : topRight bsig f = (top.2 == n) := by
        rw [topRight, topMatch, hranked, List.headD_cons, hname, Option.some_beq_some]
      rw [hstep, EvalResult.ranking_countPartner, EvalResult.ranking_countScored, h,
        List.filter_singleton, hscored]
      simp only [EvalResult.countScored, EvalResult.countRank, hplace, ← hsame, ← hright]
      have htop : top.2 = n ↔ topRight bsig f = true := by rw [hright, beq_iff_eq]
      simp only [htop]
      cases hs : topSame bsig f <;> cases hr : topRight bsig f <;>
        simp [EvalResult.countCall, EvalResult.tallied, hs, hr, reciprocal]

variable (b partner) in
theorem foldl_evalStep_tallied {S : List IndexedFunc} (l : List (IndexedFunc × ℕ))
    (h : res.ranking = EvalResult.tallied bsig S) :
    (l.foldl (evalStep bsig b partner) res).ranking =
      EvalResult.tallied bsig (S ++ (l.map Prod.fst).filter (isScored bsig)) := by
  induction l generalizing res S with
  | nil => simpa using h
  | cons p l ih =>
      rw [List.foldl_cons, ih (evalStep_tallied p.2 h), List.append_assoc, ← List.filter_append]
      rfl

end Step

/-- The functions of `a` that an evaluation against `b` scores. -/
def scoredFuncs (a b : List IndexedFunc) : List IndexedFunc :=
  a.filter (isScored (signalNamed b))

theorem ranking_eval (a b : List IndexedFunc) (graphWeight : Float) :
    (eval a b graphWeight).ranking = EvalResult.tallied (signalNamed b) (scoredFuncs a b) := by
  have hstart : EvalResult.zero.ranking = EvalResult.tallied (signalNamed b) [] := rfl
  refine (foldl_evalStep_tallied b _ a.zipIdx hstart).trans ?_
  rw [List.zipIdx_map_fst]
  rfl

/-! ## Rankings -/

/-- The functions of `bsig` by falling similarity. -/
def rankFuncs (bsig : List IndexedFunc) (fp : Fingerprint) : List IndexedFunc :=
  sortBy (byKey (fun g ↦ fp.similarity g.fp) (descending totalCmp)) bsig

theorem named_signalNamed (b : List IndexedFunc) :
    ∀ g ∈ signalNamed b, g.name.isSome = true := fun _ hg ↦
  (Bool.and_eq_true_iff.mp (List.mem_filter.mp hg).2).2

theorem rankNames_eq {bsig : List IndexedFunc} (hnamed : ∀ g ∈ bsig, g.name.isSome = true)
    (fp : Fingerprint) : rankNames bsig fp = (rankFuncs bsig fp).map fun g ↦
      (fp.similarity g.fp, g.name.getD "") := by
  have hmap : bsig.filterMap (fun f ↦ f.name.map fun n ↦ (fp.similarity f.fp, n)) =
      bsig.map fun g ↦ (fp.similarity g.fp, g.name.getD "") := by
    rw [← List.filterMap_eq_map]
    refine List.filterMap_congr fun g hg ↦ ?_
    obtain ⟨n, hn⟩ := Option.isSome_iff_exists.mp (hnamed g hg)
    rw [hn, Option.map_some, Function.comp_apply, hn, Option.getD_some]
  rw [rankNames, rankFuncs, hmap]
  exact (map_sortBy _ fun _ _ _ _ ↦ rfl).symm

/-- `g` stands first among the functions most similar to a print. -/
def FirstBest (bsig : List IndexedFunc) (fp : Fingerprint) (g : IndexedFunc) : Prop :=
  ∃ pre suf, bsig = pre ++ g :: suf ∧
    (∀ h ∈ pre, fp.similarity h.fp < fp.similarity g.fp) ∧
      ∀ h ∈ suf, fp.similarity h.fp ≤ fp.similarity g.fp

theorem head?_rankFuncs {bsig : List IndexedFunc} {fp : Fingerprint} {g : IndexedFunc} :
    (rankFuncs bsig fp).head? = some g ↔ FirstBest bsig fp g := by
  have hfits : ∀ g : IndexedFunc, bits (fp.similarity g.fp) ≤ inf := fun g ↦
    (Fingerprint.bits_similarity_lt_inf _ _).le
  rw [rankFuncs, head?_sortBy_eq_some_iff]
  refine exists_congr fun pre ↦ exists_congr fun suf ↦ and_congr_right fun _ ↦ and_congr ?_ ?_
  · exact forall₂_congr fun h _ ↦ totalCmp_eq_lt_iff (hfits h) (hfits g)
  · exact forall₂_congr fun h _ ↦ totalCmp_isLE_iff_le (hfits h) (hfits g)

theorem topMatch_eq {b : List IndexedFunc} {f g : IndexedFunc}
    (h : FirstBest (signalNamed b) f.fp g) :
    topMatch (signalNamed b) f = (f.fp.similarity g.fp, g.name.getD "") := by
  rw [topMatch, List.headD_eq_head?_getD, rankNames_eq (named_signalNamed b),
    List.head?_map, head?_rankFuncs.mpr h]
  rfl

theorem exists_firstBest {b : List IndexedFunc} {f : IndexedFunc}
    (h : isScored (signalNamed b) f = true) : ∃ g, FirstBest (signalNamed b) f.fp g := by
  obtain ⟨-, n, -, g, hg, -⟩ := isScored_iff.mp h
  obtain ⟨x, hhead, -⟩ := exists_firstLeast
    (byKey (fun g : IndexedFunc ↦ f.fp.similarity g.fp) (descending totalCmp))
    (List.ne_nil_of_mem hg)
  exact ⟨x, head?_rankFuncs.mp hhead⟩

theorem FirstBest.mem {bsig : List IndexedFunc} {fp : Fingerprint} {g : IndexedFunc}
    (h : FirstBest bsig fp g) : g ∈ bsig := by
  obtain ⟨pre, suf, rfl, -⟩ := h
  simp

theorem topRight_eq {b : List IndexedFunc} {f g : IndexedFunc}
    (h : FirstBest (signalNamed b) f.fp g) :
    topRight (signalNamed b) f = true ↔ g.name = f.name := by
  obtain ⟨n, hn⟩ := Option.isSome_iff_exists.mp (named_signalNamed b g h.mem)
  rw [topRight, topMatch_eq h, hn, Option.getD_some, beq_iff_eq]

/-! ## Precision and recall -/

namespace EvalResult

def «recall» (res : EvalResult) : Float :=
  let d := res.tp + res.fn_
  if d = 0 then 0.0 else natCast res.tp / natCast d

/-- Every scored function is called right, called wrong or abstained from, and
it is either a true positive or a miss. -/
structure Consistent (res : EvalResult) : Prop where
  calls : res.tp + res.fp + res.abstained = res.scored
  misses : res.tp + res.fn_ = res.scored
  recall_eq : res.«recall» = if res.scored = 0 then 0.0 else natCast res.tp / natCast res.scored

theorem consistent_iff {res : EvalResult} (h : res.tp + res.fp + res.abstained = res.scored) :
    res.Consistent ↔ res.tp + res.fn_ = res.scored := by
  refine ⟨Consistent.misses, fun hmisses ↦ ⟨h, hmisses, ?_⟩⟩
  rw [«recall», hmisses]

theorem tallied_calls (bsig S : List IndexedFunc) :
    (tallied bsig S).tp + (tallied bsig S).fp + (tallied bsig S).abstained =
      (tallied bsig S).scored := by
  induction S with
  | nil => rfl
  | cons f S ih =>
      simp only [tallied, List.countP_cons, List.length_cons] at ih ⊢
      cases topSame bsig f <;> cases topRight bsig f <;> simp <;> omega

theorem tallied_misses (bsig S : List IndexedFunc) :
    (tallied bsig S).tp + (tallied bsig S).fn_ = (tallied bsig S).rank1 := by
  induction S with
  | nil => rfl
  | cons f S ih =>
      simp only [tallied, List.countP_cons] at ih ⊢
      cases topSame bsig f <;> cases topRight bsig f <;> simp <;> omega

end EvalResult

/-- The counts of an evaluation add up exactly when every scored function has
its twin in front of its ranking: a wrong name on top is no miss. -/
theorem eval_consistent_iff (a b : List IndexedFunc) (graphWeight : Float) :
    (eval a b graphWeight).Consistent ↔
      ∀ f ∈ a, isScored (signalNamed b) f = true →
        ∃ g, FirstBest (signalNamed b) f.fp g ∧ g.name = f.name := by
  have htally := ranking_eval a b graphWeight
  obtain ⟨hscored, htp, hfp, hfn, habstained⟩ :
      (eval a b graphWeight).scored =
        (EvalResult.tallied (signalNamed b) (scoredFuncs a b)).scored ∧
      (eval a b graphWeight).tp = (EvalResult.tallied (signalNamed b) (scoredFuncs a b)).tp ∧
      (eval a b graphWeight).fp = (EvalResult.tallied (signalNamed b) (scoredFuncs a b)).fp ∧
      (eval a b graphWeight).fn_ = (EvalResult.tallied (signalNamed b) (scoredFuncs a b)).fn_ ∧
      (eval a b graphWeight).abstained =
        (EvalResult.tallied (signalNamed b) (scoredFuncs a b)).abstained := by
    rw [← htally]
    exact ⟨rfl, rfl, rfl, rfl, rfl⟩
  have hcalls := EvalResult.tallied_calls (signalNamed b) (scoredFuncs a b)
  have hmisses := EvalResult.tallied_misses (signalNamed b) (scoredFuncs a b)
  rw [EvalResult.consistent_iff (by rw [hscored, htp, hfp, habstained, hcalls]), htp, hfn, hscored,
    hmisses]
  simp only [EvalResult.tallied, List.countP_eq_length, scoredFuncs, List.mem_filter]
  constructor
  · intro hright f hf hs
    obtain ⟨g, hg⟩ := exists_firstBest hs
    exact ⟨g, hg, (topRight_eq hg).mp (hright f ⟨hf, hs⟩)⟩
  · rintro hfirst f ⟨hf, hs⟩
    obtain ⟨g, hg, hname⟩ := hfirst f hf hs
    exact (topRight_eq hg).mpr hname

/-- A namesake listed behind an equally similar function. -/
def shadowedTwin : List IndexedFunc :=
  [⟨some "memcpy", 0x10, .symtab, constPrint 7, 1.0, []⟩,
    ⟨some "memmove", 0x20, .symtab, constPrint 7, 1.0, []⟩]

/-- The wrong name on top is a false positive and no miss: one function is
scored, none is found, and the misses say zero. -/
theorem wrong_top_is_no_miss :
    ¬(eval [⟨some "memmove", 0x20, .symtab, constPrint 7, 1.0, []⟩]
      shadowedTwin 1.0).Consistent := by
  intro h
  have hmisses := h.misses
  revert hmisses
  decide +kernel

end Fnprint
