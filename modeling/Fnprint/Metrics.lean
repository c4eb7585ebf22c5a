import Fnprint.EvalOrder

/-!
# The figures of an evaluation

The figures that are printed are quotients in double precision, and the mean
reciprocal rank divides a sum of rounded reciprocals.  However it rounds, each
figure is a share, and the figures stand to each other as the counts do.
-/

namespace Fnprint

open Binary64 KeyMap StableSort

/-- A share of a count; there is none of nothing. -/
def ratio (n d : ℕ) : Float := if d = 0 then 0.0 else natCast n / natCast d

namespace EvalResult

def rank1Acc (res : EvalResult) : Float := ratio res.rank1 res.scored

def mrr (res : EvalResult) : Float :=
  if res.scored = 0 then 0.0 else res.rrSum / natCast res.scored

def precision (res : EvalResult) : Float := ratio res.tp (res.tp + res.fp)

/-- The share whose twin is among the first `k`. -/
def recallAt (res : EvalResult) (k : ℕ) : Float :=
  ratio (res.ranks.countP fun r ↦ r ≤ k) res.scored

def abstainRate (res : EvalResult) : Float := ratio res.abstained res.scored

def alignAcc (res : EvalResult) : Float := ratio res.alignCorrect res.scored

def alignPrecision (res : EvalResult) : Float := ratio res.alignTp (res.alignTp + res.alignFp)

def alignRecall (res : EvalResult) : Float := ratio res.alignTp res.scored

def figures (res : EvalResult) : List Float :=
  [res.rank1Acc, res.mrr, res.precision, res.«recall», res.abstainRate, res.alignAcc,
    res.alignPrecision, res.alignRecall]

end EvalResult

/-! ## Shares -/

def IsShare (x : Float) : Prop := 0.0 ≤ x ∧ x ≤ 1.0

theorem isShare_of_bits {x : Float} (h : bits x ≤ bits 1.0) : IsShare x := by
  have hinf := h.trans one_lt_inf.le
  refine ⟨(le_iff_bits zero_lt_inf.le hinf).mpr ?_, (le_iff_bits hinf one_lt_inf.le).mpr h⟩
  rw [bits_zero]
  exact Nat.zero_le _

section Ratio

variable {m n d : ℕ}

theorem bits_ratio_le_one (hd : d ≤ 2 ^ 128) (h : n ≤ d) : bits (ratio n d) ≤ bits 1.0 := by
  unfold ratio
  split
  · rw [bits_zero]
    exact Nat.zero_le _
  · exact natCast_div_le_one (by omega) hd h

theorem isShare_ratio (hd : d ≤ 2 ^ 128) (h : n ≤ d) : IsShare (ratio n d) :=
  isShare_of_bits (bits_ratio_le_one hd h)

theorem ratio_mono (hd : d ≤ 2 ^ 128) (hn : n ≤ d) (h : m ≤ n) : ratio m d ≤ ratio n d := by
  have hfit : ∀ {k : ℕ}, k ≤ d → bits (ratio k d) ≤ inf :=
    fun hk ↦ (bits_ratio_le_one hd hk).trans one_lt_inf.le
  rw [le_iff_bits (hfit (h.trans hn)) (hfit hn)]
  unfold ratio
  split
  · exact le_refl _
  · exact natCast_div_mono (by omega) hd (hn.trans hd) h

theorem ratio_self (hd : d ≤ 2 ^ 128) (hpos : 0 < d) : ratio d d = 1.0 := by
  rw [ratio, if_neg hpos.ne', natCast_div_self hpos hd]

end Ratio

/-! ## The sum of the reciprocals -/

theorem reciprocal_eq {p : ℕ} (hp : p < 2 ^ 53) :
    reciprocal p = natCast 1 / natCast (p + 1) := by
  rw [reciprocal, natCast_add_one hp, natCast_one]

theorem bits_reciprocal_le {p : ℕ} (hp : p < 2 ^ 53) : bits (reciprocal p) ≤ bits 1.0 := by
  rw [reciprocal_eq hp]
  exact natCast_div_le_one (Nat.succ_pos p) (by omega) (by omega)

theorem reciprocal_zero : reciprocal 0 = 1.0 := by
  rw [reciprocal_eq (by norm_num)]
  exact natCast_div_self Nat.one_pos (by norm_num)

/-- The sum is at least the number of first places and at most that of all:
these sums are exact, and addition is monotone. -/
theorem reciprocalSum_bounds {places : List ℕ} (hlen : places.length ≤ 2 ^ 53)
    (hplace : ∀ p ∈ places, p < 2 ^ 53) :
    bits (natCast (places.countP fun p ↦ p = 0)) ≤ bits (reciprocalSum places) ∧
      bits (reciprocalSum places) ≤ bits (natCast places.length) := by
  induction places using List.reverseRecOn with
  | nil =>
      have h0 : bits (natCast 0) = bits 0.0 := by decide
      exact ⟨h0.le, h0.ge⟩
  | append_singleton l p ih =>
      rw [List.length_append, List.length_singleton] at hlen ⊢
      obtain ⟨hlow, hhigh⟩ := ih (by omega) fun q hq ↦ hplace q (List.mem_append_left _ hq)
      have hp : p < 2 ^ 53 := hplace p (by simp)
      have hsum : reciprocalSum (l ++ [p]) = reciprocalSum l + reciprocal p := by
        rw [reciprocalSum, List.foldl_append]
        rfl
      have hfit : bits (natCast l.length) < inf := natCast_lt_inf (by omega)
      have hrec : bits (reciprocal p) < inf := (bits_reciprocal_le hp).trans_lt one_lt_inf
      rw [hsum, List.countP_append, List.countP_singleton]
      constructor
      · by_cases h0 : p = 0
        · rw [if_pos (decide_eq_true h0), h0, reciprocal_zero, ← natCast_add_one]
          · exact add_mono (hhigh.trans_lt hfit) one_lt_inf hlow (le_refl _)
          · exact (List.countP_le_length).trans_lt (by omega)
        · rw [if_neg (by simpa using h0), Nat.add_zero,
            ← add_zero ((hlow.trans hhigh).trans_lt hfit)]
          refine add_mono (hhigh.trans_lt hfit) hrec hlow ?_
          rw [bits_zero]
          exact Nat.zero_le _
      · rw [← natCast_add_one (by omega)]
        exact add_mono hfit one_lt_inf hhigh (bits_reciprocal_le hp)

/-! ## The counts -/

structure AlignCounts (res : EvalResult) : Prop where
  paired_le : res.alignPaired ≤ res.scored
  correct_le : res.alignCorrect ≤ res.alignPaired
  tp_le : res.alignTp ≤ res.alignCorrect
  calls_le : res.alignTp + res.alignFp ≤ res.alignPaired

theorem countScored_counts (res : EvalResult) (aname : String) (top : Float × String)
    (ranked : List (Float × String)) :
    (res.countScored aname top ranked).scored = res.scored + 1 ∧
      (res.countScored aname top ranked).alignPaired = res.alignPaired ∧
      (res.countScored aname top ranked).alignCorrect = res.alignCorrect ∧
      (res.countScored aname top ranked).alignTp = res.alignTp ∧
      (res.countScored aname top ranked).alignFp = res.alignFp := by
  unfold EvalResult.countScored EvalResult.countRank EvalResult.countCall
  cases hpos : ranked.findIdx? fun s ↦ s.2 == aname <;>
    cases hsame : decide (sameThresh ≤ top.1) <;> cases hright : top.2 == aname <;>
      by_cases htop : top.2 = aname <;> simp [htop]

/-- A partner adds one pair, which is right or not, and called or not. -/
theorem alignCounts_countPartner {res : EvalResult} (h : AlignCounts res)
    (hroom : res.alignPaired < res.scored) (aname : String) (b : List IndexedFunc)
    (partner : Option Pair) : AlignCounts (res.countPartner aname b partner) := by
  obtain ⟨hpaired, hcorrect, htp, hcalls⟩ := h
  cases partner with
  | none => exact ⟨hpaired, hcorrect, htp, hcalls⟩
  | some p =>
      simp only [EvalResult.countPartner]
      cases (funcAt b p.b).name == some aname <;> by_cases hsame : sameThresh ≤ p.score <;>
        simp only [hsame, if_true, if_false, Bool.false_eq_true] <;>
        constructor <;> dsimp only <;> omega

theorem alignCounts_evalStep {bsig b : List IndexedFunc} {partner : Map ℕ Pair} {res : EvalResult}
    (h : AlignCounts res) (p : IndexedFunc × ℕ) : AlignCounts (evalStep bsig b partner res p) := by
  obtain ⟨f, i⟩ := p
  cases hscored : isScored bsig f with
  | false => rwa [evalStep_of_not_scored hscored]
  | true =>
      obtain ⟨n, top, rest, -, -, -, hstep⟩ := @evalStep_of_scored bsig b partner res f hscored i
      obtain ⟨hs, hpaired, hcorrect, htp, hfp⟩ := countScored_counts res n top (top :: rest)
      rw [hstep]
      refine alignCounts_countPartner ?_ ?_ _ _ _
      · exact
          { paired_le := by rw [hpaired, hs]; exact h.paired_le.trans (Nat.le_succ _)
            correct_le := by rw [hcorrect, hpaired]; exact h.correct_le
            tp_le := by rw [htp, hcorrect]; exact h.tp_le
            calls_le := by rw [htp, hfp, hpaired]; exact h.calls_le }
      · rw [hpaired, hs]
        exact Nat.lt_succ_of_le h.paired_le

theorem alignCounts_eval (a b : List IndexedFunc) (graphWeight : Float) :
    AlignCounts (eval a b graphWeight) := by
  have hrun : ∀ (l : List (IndexedFunc × ℕ)) {partner : Map ℕ Pair} {res : EvalResult},
      AlignCounts res → AlignCounts (l.foldl (evalStep (signalNamed b) b partner) res) := by
    intro l
    induction l with
    | nil => exact id
    | cons p l ih => exact fun h ↦ ih (alignCounts_evalStep h p)
  exact hrun _ ⟨le_refl _, le_refl _, le_refl _, le_refl _⟩

theorem twinPlace_lt {b : List IndexedFunc} {f : IndexedFunc}
    (hs : isScored (signalNamed b) f = true) : twinPlace (signalNamed b) f < b.length := by
  obtain ⟨n, top, rest, -, hranked, hplace, -⟩ :=
    @evalStep_of_scored (signalNamed b) [] ∅ EvalResult.zero f hs 0
  have hlt := (List.findIdx?_eq_some_iff_findIdx_eq.mp hplace).1
  rw [← hranked, rankNames, length_sortBy] at hlt
  exact hlt.trans_le ((List.length_filterMap_le _ _).trans (List.length_filter_le _ _))

/-! ## The figures -/

/-- What the figures of an evaluation promise. -/
structure EvalResult.Sound (res : EvalResult) (n : ℕ) : Prop where
  shares : ∀ x ∈ res.figures, IsShare x
  shares_at : ∀ k, IsShare (res.recallAt k)
  mono : ∀ j k, j ≤ k → res.recallAt j ≤ res.recallAt k
  first : res.recallAt 1 = res.rank1Acc
  all : 0 < res.scored → res.recallAt n = 1.0
  mean : res.rank1Acc ≤ res.mrr
  aligned : res.alignRecall ≤ res.alignAcc

/-- The counts of a ranking, by the places of the twins. -/
structure EvalResult.RankedBy (res : EvalResult) (places : List ℕ) : Prop where
  scored : res.scored = places.length
  rank1 : res.rank1 = places.countP fun p ↦ p = 0
  rrSum : res.rrSum = reciprocalSum places
  ranks : res.ranks = places.map (· + 1)
  calls : res.tp + res.fp + res.abstained = res.scored
  misses : res.tp + res.fn_ = res.rank1

theorem eval_rankedBy (a b : List IndexedFunc) (graphWeight : Float) :
    (eval a b graphWeight).RankedBy ((scoredFuncs a b).map (twinPlace (signalNamed b))) := by
  have htally := ranking_eval a b graphWeight
  have hcalls := EvalResult.tallied_calls (signalNamed b) (scoredFuncs a b)
  have hmisses := EvalResult.tallied_misses (signalNamed b) (scoredFuncs a b)
  rw [← htally] at hcalls hmisses
  refine ⟨?_, ?_, ?_, ?_, hcalls, hmisses⟩
  · rw [List.length_map]
    exact congrArg EvalResult.scored htally
  · refine (congrArg EvalResult.rank1 htally).trans ?_
    rw [List.countP_map]
    refine List.countP_congr fun f hf ↦ ?_
    exact (topRight_iff (List.mem_filter.mp hf).2).trans decide_eq_true_iff.symm
  · exact (congrArg EvalResult.rrSum htally).trans (rrSum_tallied _ _)
  · rw [List.map_map]
    exact congrArg EvalResult.ranks htally

namespace EvalResult.RankedBy

variable {res : EvalResult} {places : List ℕ} (h : res.RankedBy places)

include h

theorem rank1_le : res.rank1 ≤ res.scored := by
  rw [h.rank1, h.scored]
  exact List.countP_le_length

theorem hits_le (k : ℕ) : (res.ranks.countP fun r ↦ r ≤ k) ≤ res.scored := by
  refine List.countP_le_length.trans ?_
  rw [h.ranks, List.length_map, h.scored]

/-- The mean lies between the share of first places and one. -/
theorem mrr_bounds (hlen : places.length ≤ 2 ^ 53) (hplace : ∀ p ∈ places, p < 2 ^ 53) :
    bits res.rank1Acc ≤ bits res.mrr ∧ bits res.mrr ≤ bits 1.0 := by
  obtain ⟨hlow, hhigh⟩ := reciprocalSum_bounds hlen hplace
  unfold EvalResult.rank1Acc EvalResult.mrr ratio
  by_cases h0 : res.scored = 0
  · rw [if_pos h0, if_pos h0, bits_zero]
    exact ⟨le_refl _, Nat.zero_le _⟩
  · rw [if_neg h0, if_neg h0, h.rrSum, h.rank1, h.scored]
    rw [h.scored] at h0
    have hpos : 0 < places.length := Nat.pos_of_ne_zero h0
    have hden : bits (natCast places.length) < inf := natCast_lt_inf (by omega)
    refine ⟨div_mono_right hden (natCast_pos hpos) (hhigh.trans_lt hden) hlow, ?_⟩
    refine (div_mono_right hden (natCast_pos hpos) hden hhigh).trans ?_
    rw [natCast_div_self hpos (by omega)]

theorem sound (halign : AlignCounts res) {n : ℕ} (hlen : places.length ≤ 2 ^ 53)
    (hn : n ≤ 2 ^ 53) (hplace : ∀ p ∈ places, p < n) : res.Sound n := by
  have hscored : res.scored ≤ 2 ^ 128 := by
    rw [h.scored]
    omega
  have hcalls := h.calls
  have hmisses := h.misses
  have hrank1 := h.rank1_le
  have hpaired := halign.paired_le
  have hcorrect := halign.correct_le
  have htp := halign.tp_le
  have haligned := halign.calls_le
  obtain ⟨hmean, hone⟩ := h.mrr_bounds hlen fun p hp ↦ (hplace p hp).trans_le hn
  refine ⟨fun x hx ↦ ?_, fun k ↦ isShare_ratio hscored (h.hits_le k), fun j k hjk ↦ ?_, ?_,
    fun hpos ↦ ?_, ?_, ratio_mono hscored (hcorrect.trans hpaired) htp⟩
  · simp only [EvalResult.figures, List.mem_cons, List.not_mem_nil, or_false] at hx
    obtain rfl | rfl | rfl | rfl | rfl | rfl | rfl | rfl := hx
    · exact isShare_ratio hscored hrank1
    · exact isShare_of_bits hone
    · exact isShare_ratio (by omega) (by omega)
    · exact @isShare_ratio res.tp (res.tp + res.fn_) (by omega) (by omega)
    · exact isShare_ratio hscored (by omega)
    · exact isShare_ratio hscored (by omega)
    · exact isShare_ratio (by omega) (by omega)
    · exact isShare_ratio hscored (by omega)
  · refine ratio_mono hscored (h.hits_le k) (List.countP_mono_left fun r _ hr ↦ ?_)
    exact decide_eq_true ((of_decide_eq_true hr).trans hjk)
  · have hfirst : (res.ranks.countP fun r ↦ r ≤ 1) = res.rank1 := by
      rw [h.ranks, h.rank1, List.countP_map]
      refine List.countP_congr fun p _ ↦ ?_
      simp
    rw [EvalResult.recallAt, hfirst, EvalResult.rank1Acc]
  · have hall : (res.ranks.countP fun r ↦ r ≤ n) = res.scored := by
      rw [h.scored, h.ranks, List.countP_map, List.countP_eq_length]
      exact fun p hp ↦ decide_eq_true (hplace p hp)
    rw [EvalResult.recallAt, hall, ratio_self hscored hpos]
  · have hfit : bits res.mrr ≤ inf := hone.trans one_lt_inf.le
    exact (le_iff_bits (hmean.trans hfit) hfit).mpr hmean

end EvalResult.RankedBy

/-- The figures of an evaluation are shares, whatever the rounding: the mean
reciprocal rank is at least the rank-one accuracy and at most one, and the
recall at `k` grows from that accuracy to one. -/
theorem eval_figures_sound {a b : List IndexedFunc} (ha : a.length ≤ 2 ^ 53)
    (hb : b.length ≤ 2 ^ 53) (graphWeight : Float) :
    (eval a b graphWeight).Sound b.length := by
  refine (eval_rankedBy a b graphWeight).sound (alignCounts_eval a b graphWeight) ?_ hb ?_
  · rw [List.length_map]
    exact (List.length_filter_le _ _).trans ha
  · intro p hp
    obtain ⟨f, hf, rfl⟩ := List.mem_map.mp hp
    exact twinPlace_lt (List.mem_filter.mp hf).2

theorem eval_figures_sound_shadowed :
    (eval [⟨some "memmove", 0x20, .symtab, constPrint 7, 1.0, []⟩] shadowedTwin 1.0).Sound
      shadowedTwin.length :=
  eval_figures_sound (by decide) (by decide) 1.0

end Fnprint
