import Fnprint.Lib.LeastImage
import Fnprint.Lib.Scramble
import Fnprint.Similarity

/-!
# Signatures and sets of shingles

A slot is the least image of the shingles under an injective function, so a
signature depends on the set of shingles only, a union of sets has the slotwise
minimum of their signatures, and sets without a common shingle have no slot in
common.
-/

namespace Fnprint

open LeastImage Scramble Binary64 Banding StableSort

/-! ## Slots -/

theorem perm_injective (i : ℕ) : Function.Injective (perm i) := by
  have hmul := mul_odd_injective (or_one_odd
    (permA.getD (i % permA.length) 0 * (UInt64.ofNat i ||| 1) + 0x9e3779b97f4a7c15))
  have hadd := add_injective (permB.getD (i % permB.length) 0 + UInt64.ofNat i * 0x2545f4914f6cdd1d)
  have hshift : Function.Injective fun v : UInt64 ↦ v ^^^ (v >>> 29) :=
    xorShift_injective (by decide)
  exact hshift.comp (hadd.comp hmul)

theorem le_sentinel (v : UInt64) : v ≤ 0xffffffffffffffff :=
  UInt64.le_iff_toNat_le.mpr (Nat.le_of_lt_succ v.toNat_lt)

theorem getElem?_minhash {shingles : List UInt64} (h : shingles ≠ []) {i : ℕ} (hi : i < sigLen) :
    (minhash shingles)[i]? = some (slotMin i shingles) := by
  rw [minhash, if_neg (by simpa using h), List.getElem?_map, List.getElem?_range hi,
    Option.map_some]

/-- The signature of a union of non-empty sets is the slotwise minimum. -/
theorem minhash_union {l A B : List UInt64} (hA : A ≠ []) (hB : B ≠ [])
    (h : ∀ x, x ∈ l ↔ x ∈ A ∨ x ∈ B) :
    minhash l = List.zipWith min (minhash A) (minhash B) := by
  have hl : l ≠ [] := by
    obtain ⟨x, hx⟩ := List.exists_mem_of_ne_nil A hA
    exact List.ne_nil_of_mem ((h x).mpr (Or.inl hx))
  rw [minhash, minhash, minhash, if_neg (by simpa using hl), if_neg (by simpa using hA),
    if_neg (by simpa using hB), List.zipWith_map, List.zipWith_self]
  exact List.map_congr_left fun i _ ↦ leastImage_union le_sentinel h

/-! ## Prints of several runs -/

theorem shingleSet_ne_nil {toks : List UInt64} (h : toks ≠ []) : shingleSet toks ≠ [] := by
  obtain ⟨t, ht⟩ := List.exists_mem_of_ne_nil toks h
  have hmem : mix [0x01, t] ∈ shingleSet toks := by
    rw [shingleSet, if_neg (by simpa using h), mem_sortDedup]
    exact List.mem_append_left _ (List.mem_map_of_mem ht)
  exact List.ne_nil_of_mem hmem

theorem pairwise_shingleSet (toks : List UInt64) :
    (shingleSet toks).Pairwise fun x y ↦ compare x y = .lt := by
  unfold shingleSet
  split
  · exact List.Pairwise.nil
  · exact pairwise_sortDedup compare _

/-- The shingles of some runs. -/
def allShingles (traces : List EffectTrace) : List UInt64 :=
  sortDedup compare (traces.flatMap fun t ↦ shingleSet t.tokens)

theorem mem_allShingles {traces : List EffectTrace} {s : UInt64} :
    s ∈ allShingles traces ↔ ∃ t ∈ traces, s ∈ shingleSet t.tokens := by
  rw [allShingles, mem_sortDedup, List.mem_flatMap]

theorem allShingles_eq {traces : List EffectTrace} {l : List UInt64}
    (hl : l.Pairwise fun x y ↦ compare x y = .lt)
    (h : ∀ s, s ∈ l ↔ ∃ t ∈ traces, s ∈ shingleSet t.tokens) : allShingles traces = l :=
  eq_of_mem_iff compare (pairwise_sortDedup compare _) hl fun s ↦ by
    rw [h]
    exact mem_allShingles

theorem allShingles_congr {ts us : List EffectTrace}
    (h : ∀ s, (∃ t ∈ ts, s ∈ shingleSet t.tokens) ↔ ∃ t ∈ us, s ∈ shingleSet t.tokens) :
    allShingles ts = allShingles us :=
  allShingles_eq (pairwise_sortDedup compare _) fun s ↦ mem_allShingles.trans (h s).symm

theorem allShingles_ne_nil {ts : List EffectTrace} (h : ∃ t ∈ ts, t.effects ≠ []) :
    allShingles ts ≠ [] := by
  obtain ⟨t, ht, hne⟩ := h
  have htokens : t.tokens ≠ [] := fun hnil ↦ hne (List.map_eq_nil_iff.mp hnil)
  obtain ⟨s, hs⟩ := List.exists_mem_of_ne_nil _ (shingleSet_ne_nil htokens)
  exact List.ne_nil_of_mem (mem_allShingles.mpr ⟨t, ht, hs⟩)

namespace Fingerprint

theorem ext {x y : Fingerprint} (hsig : x.sig = y.sig) (hshingles : x.shingles = y.shingles)
    (hcomplexity : x.complexity = y.complexity) (hcapped : x.capped = y.capped) : x = y := by
  cases x
  cases y
  simp_all

theorem max_le_iff32 {a b v : UInt32} : max a b ≤ v ↔ a ≤ v ∧ b ≤ v := by
  change (if a ≤ b then b else a) ≤ v ↔ a ≤ v ∧ b ≤ v
  simp only [UInt32.le_iff_toNat_le]
  split <;> omega

theorem complexity_le_iff {ts : List EffectTrace} {v : UInt32} :
    (fromTraces ts).complexity ≤ v ↔ ∀ t ∈ ts, UInt32.ofNat t.complexity ≤ v := by
  suffices hfold : ∀ m : UInt32, ts.foldl (fun c t ↦ max c (UInt32.ofNat t.complexity)) m ≤ v ↔
      m ≤ v ∧ ∀ t ∈ ts, UInt32.ofNat t.complexity ≤ v from
    (hfold 0).trans (and_iff_right (UInt32.le_iff_toNat_le.mpr (Nat.zero_le _)))
  induction ts with
  | nil => simp
  | cons t ts ih =>
      intro m
      rw [List.foldl_cons, ih, max_le_iff32, List.forall_mem_cons, and_assoc]

theorem capped_eq_any (ts : List EffectTrace) :
    (fromTraces ts).capped = ts.any EffectTrace.capped := by
  suffices hfold : ∀ m : Bool, ts.foldl (fun c t ↦ c || t.capped) m =
      (m || ts.any EffectTrace.capped) from hfold false
  induction ts with
  | nil => simp
  | cons t ts ih =>
      intro m
      rw [List.foldl_cons, ih, List.any_cons, Bool.or_assoc]

theorem fromTraces_congr {ts us : List EffectTrace} (h : ∀ t, t ∈ ts ↔ t ∈ us) :
    fromTraces ts = fromTraces us := by
  have hall : allShingles ts = allShingles us := allShingles_congr fun s ↦ by simp only [h]
  refine ext (congrArg minhash hall)
    (congrArg (fun l : List UInt64 ↦ UInt32.ofNat l.length) hall) ?_ ?_
  · have hle : ∀ v, (fromTraces ts).complexity ≤ v ↔ (fromTraces us).complexity ≤ v := fun v ↦ by
      simp only [complexity_le_iff, h]
    exact Std.le_antisymm ((hle _).mpr (Std.le_refl _)) ((hle _).mp (Std.le_refl _))
  · rw [capped_eq_any, capped_eq_any, Bool.eq_iff_iff, List.any_eq_true, List.any_eq_true]
    simp only [h]

theorem fromTraces_singleton (t : EffectTrace) : fromTraces [t] = fromTrace t := by
  have hall : allShingles [t] = shingleSet t.tokens :=
    allShingles_eq (pairwise_shingleSet _) fun s ↦ by simp
  refine ext (congrArg minhash hall)
    (congrArg (fun l : List UInt64 ↦ UInt32.ofNat l.length) hall) ?_ ?_
  · have hle : ∀ v, (fromTraces [t]).complexity ≤ v ↔ UInt32.ofNat t.complexity ≤ v := fun v ↦ by
      rw [complexity_le_iff, List.forall_mem_singleton]
    exact Std.le_antisymm ((hle _).mpr (Std.le_refl _)) ((hle _).mp (Std.le_refl _))
  · exact Bool.false_or _

end Fingerprint

/-- A print is made of the union of the shingles of its runs: it does not change
with the order or the repetition of the runs, one run gives its own print, and
the signature of two groups of runs is the slotwise minimum of theirs. -/
theorem fromTraces_union (ts us : List EffectTrace) :
    ((∀ s, (∃ t ∈ ts, s ∈ shingleSet t.tokens) ↔ ∃ t ∈ us, s ∈ shingleSet t.tokens) →
        (Fingerprint.fromTraces ts).sig = (Fingerprint.fromTraces us).sig ∧
          (Fingerprint.fromTraces ts).shingles = (Fingerprint.fromTraces us).shingles) ∧
      ((∀ t, t ∈ ts ↔ t ∈ us) → Fingerprint.fromTraces ts = Fingerprint.fromTraces us) ∧
      (∀ t, Fingerprint.fromTraces [t] = Fingerprint.fromTrace t) ∧
      ((∃ t ∈ ts, t.effects ≠ []) → (∃ t ∈ us, t.effects ≠ []) →
        (Fingerprint.fromTraces (ts ++ us)).sig =
          List.zipWith min (Fingerprint.fromTraces ts).sig (Fingerprint.fromTraces us).sig) := by
  refine ⟨fun h ↦ ?_, Fingerprint.fromTraces_congr, Fingerprint.fromTraces_singleton,
    fun ht hu ↦ ?_⟩
  · have hall := allShingles_congr h
    exact ⟨congrArg minhash hall, congrArg (fun l : List UInt64 ↦ UInt32.ofNat l.length) hall⟩
  · refine minhash_union (allShingles_ne_nil ht) (allShingles_ne_nil hu) fun s ↦ ?_
    change s ∈ allShingles (ts ++ us) ↔ s ∈ allShingles ts ∨ s ∈ allShingles us
    simp only [mem_allShingles, List.mem_append, or_and_right, exists_or]

/-! ## Prints without a common shingle -/

theorem agree_eq_zero {α : Type*} [DecidableEq α] {x y : List α}
    (h : ∀ (i : ℕ) v, x[i]? = some v → y[i]? ≠ some v) : agree x y = 0 := by
  rw [agree, List.length_eq_zero_iff, List.filter_eq_nil_iff]
  intro p hp
  obtain ⟨i, hi⟩ := List.mem_iff_getElem?.mp hp
  obtain ⟨hx, hy⟩ := List.getElem?_zip_eq_some.mp hi
  intro heq
  exact h i p.1 hx (by rw [hy, beq_iff_eq.mp heq])

/-- A slot in common needs a shingle in common, so prints of disjoint sets have
similarity zero, and one shingle of a set attains each of its slots. -/
theorem minhash_slots_separate {A B : List UInt64} (hA : A ≠ []) (hB : B ≠ []) :
    (∀ (i : ℕ) v, (minhash A)[i]? = some v → (minhash B)[i]? = some v → ∃ x, x ∈ A ∧ x ∈ B) ∧
      (A.Disjoint B → ∀ x y : Fingerprint, x.sig = minhash A → y.sig = minhash B →
        x.similarity y = 0.0) ∧
      ∀ (i : ℕ) v, (minhash A)[i]? = some v → ∃! x, x ∈ A ∧ perm i x = v := by
  have hslot : ∀ {l : List UInt64} {i : ℕ} {v : UInt64}, l ≠ [] → (minhash l)[i]? = some v →
      slotMin i l = v := by
    intro l i v hl hv
    have hi := (List.getElem?_eq_some_iff.mp hv).1
    rw [length_minhash] at hi
    rw [getElem?_minhash hl hi] at hv
    exact Option.some.inj hv
  have hcommon : ∀ (i : ℕ) v, (minhash A)[i]? = some v → (minhash B)[i]? = some v →
      ∃ x, x ∈ A ∧ x ∈ B := fun i v hv hv' ↦
    exists_common (perm_injective i) le_sentinel hA hB ((hslot hA hv).trans (hslot hB hv').symm)
  refine ⟨hcommon, fun hdisjoint x y hx hy ↦ ?_, fun i v hv ↦ ?_⟩
  · have hagree : agree x.sig y.sig = 0 := by
      rw [hx, hy]
      refine agree_eq_zero fun i v hv hv' ↦ ?_
      obtain ⟨z, hzA, hzB⟩ := hcommon i v hv hv'
      exact hdisjoint hzA hzB
    have hlenx : x.sig.length = sigLen := by rw [hx, length_minhash]
    have hleny : y.sig.length = sigLen := by rw [hy, length_minhash]
    rw [similarity_eq_share hlenx hleny, hagree]
    exact zero_div_natCast (by decide) (by norm_num [sigLen])
  · rw [← hslot hA hv]
    exact existsUnique_leastImage (perm_injective i) le_sentinel hA

theorem minhash_slots_separate_two :
    (∀ (i : ℕ) v, (minhash [1, 2])[i]? = some v → (minhash [3])[i]? = some v →
        ∃ x : UInt64, x ∈ [1, 2] ∧ x ∈ [3]) ∧
      (List.Disjoint [(1 : UInt64), 2] [3] → ∀ x y : Fingerprint, x.sig = minhash [1, 2] →
        y.sig = minhash [3] → x.similarity y = 0.0) ∧
      ∀ (i : ℕ) v, (minhash [1, 2])[i]? = some v → ∃! x, x ∈ [1, 2] ∧ perm i x = v :=
  minhash_slots_separate (by decide) (by decide)

end Fnprint
