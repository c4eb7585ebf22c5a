import Fnprint.Db

/-!
# Similarity and shared bands

The similarity of two prints is a fraction of their slots.  Two full prints
that agree in more than three quarters of them fall into a common bucket, so
the band index never hides such a pair.
-/

namespace Fnprint

open Binary64 Banding StableSort KeyMap

namespace Fingerprint

theorem similarity_eq_div {x y : Fingerprint} (hlen : x.sig.length = y.sig.length)
    (hpos : x.sig ≠ []) :
    x.similarity y = natCast (agree x.sig y.sig) / natCast x.sig.length := by
  have hne : x.sig.isEmpty = false := by simpa using hpos
  simp [similarity, hlen, hne]

theorem length_le_of_fits (x : Fingerprint) : x.sig.length ≤ 2 ^ 128 :=
  x.sig_fits.le.trans (Nat.pow_le_pow_right (by norm_num) (by norm_num))

theorem bits_similarity_le (x y : Fingerprint) : bits (x.similarity y) ≤ bits 1.0 := by
  by_cases hlen : x.sig.length = y.sig.length
  · by_cases hpos : x.sig = []
    · simp [similarity, hpos, bits_zero]
    · rw [similarity_eq_div hlen hpos]
      exact natCast_div_le_one (List.length_pos_of_ne_nil hpos) x.length_le_of_fits
        (agree_le_length _ _)
  · simp [similarity, hlen, bits_zero]

theorem bits_similarity_lt_inf (x y : Fingerprint) : bits (x.similarity y) < inf :=
  (bits_similarity_le x y).trans_lt one_lt_inf

theorem similarity_self {x : Fingerprint} (hpos : x.sig ≠ []) : x.similarity x = 1.0 := by
  rw [similarity_eq_div rfl hpos, agree_self]
  exact natCast_div_self (List.length_pos_of_ne_nil hpos) x.length_le_of_fits

theorem similarity_comm (x y : Fingerprint) : x.similarity y = y.similarity x := by
  by_cases hlen : x.sig.length = y.sig.length
  · by_cases hpos : x.sig = []
    · have hpos' : y.sig = [] := List.length_eq_zero_iff.mp (by rw [← hlen, hpos]; rfl)
      simp [similarity, hpos, hpos']
    · have hpos' : y.sig ≠ [] := by
        intro h
        rw [h] at hlen
        exact hpos (List.length_eq_zero_iff.mp hlen)
      rw [similarity_eq_div hlen hpos, similarity_eq_div hlen.symm hpos', agree_comm, hlen]
  · simp [similarity, hlen, Ne.symm hlen]

end Fingerprint

/-! ## Full signatures -/

/-- The similarity of two full prints that agree in `k` slots. -/
def share (k : ℕ) : Float := natCast k / natCast sigLen

theorem similarity_eq_share {x y : Fingerprint} (hx : x.sig.length = sigLen)
    (hy : y.sig.length = sigLen) : x.similarity y = share (agree x.sig y.sig) := by
  have hpos : x.sig ≠ [] := by
    intro h
    rw [h] at hx
    exact absurd hx (by decide)
  rw [Fingerprint.similarity_eq_div (hx.trans hy.symm) hpos, hx, share]

theorem bits_share_le_one {k : ℕ} (hk : k ≤ 128) : bits (share k) ≤ bits 1.0 :=
  natCast_div_le_one (by decide) (by norm_num [sigLen]) hk

theorem share_mono {k l : ℕ} (h : k ≤ l) (hl : l ≤ 128) : bits (share k) ≤ bits (share l) :=
  natCast_div_mono (by decide) (by norm_num [sigLen]) (hl.trans (by norm_num)) h

private theorem share_threshold :
    bits 0.75 = bits (share 96) ∧ bits (share 96) < bits (share 97) := by
  decide +kernel

/-- Above three quarters means more than 96 equal slots. -/
theorem lt_share_iff {k : ℕ} (hk : k ≤ 128) : (0.75 : Float) < share k ↔ 96 < k := by
  obtain ⟨hval, hstep⟩ := share_threshold
  have hfits : bits (share k) ≤ inf := (bits_share_le_one hk).trans one_lt_inf.le
  have hquarters : bits 0.75 ≤ inf := by
    rw [hval]
    exact (bits_share_le_one (by norm_num)).trans one_lt_inf.le
  rw [lt_iff_bits hquarters hfits, hval]
  refine ⟨fun h ↦ ?_, fun h ↦ hstep.trans_le (share_mono h hk)⟩
  by_contra hle
  exact absurd h (not_lt.mpr (share_mono (not_lt.mp hle) (by norm_num)))

/-- Every similarity of full prints is a share. -/
theorem exists_share {x y : Fingerprint} (hx : x.sig.length = sigLen)
    (hy : y.sig.length = sigLen) : ∃ k ≤ 128, x.similarity y = share k := by
  refine ⟨agree x.sig y.sig, ?_, similarity_eq_share hx hy⟩
  rw [← show sigLen = 128 from rfl, ← hx]
  exact agree_le_length x.sig y.sig

/-- A print whose slots all hold one value. -/
def constPrint (v : UInt64) : Fingerprint :=
  ⟨List.replicate sigLen v, 5, 9, false, by rw [List.length_replicate]; decide⟩

/-! ## Shared bands -/

/-- Two prints share a bucket. -/
def SharesBand (x y : Fingerprint) : Prop := ∃ s ∈ x.slots, s ∈ y.slots

instance (x y : Fingerprint) : Decidable (SharesBand x y) :=
  inferInstanceAs (Decidable (∃ s ∈ x.slots, s ∈ y.slots))

theorem mem_slots {x : Fingerprint} {i : ℕ} {key : UInt64} :
    (i, key) ∈ x.slots ↔ (x.bandKeys bandRows)[i]? = some key := by
  simp [Fingerprint.slots, List.mem_zipIdx_iff_getElem?]

theorem slots_ne_nil {x : Fingerprint} (hx : x.sig.length = sigLen) : x.slots ≠ [] := by
  have hlen := length_chunks (r := 4) (b := 32) (by norm_num) hx
  intro h
  have := congrArg List.length h
  simp [Fingerprint.slots, Fingerprint.bandKeys, bandRows, hlen] at this

theorem sharesBand_self {x : Fingerprint} (hx : x.sig.length = sigLen) : SharesBand x x := by
  obtain ⟨s, hs⟩ := List.exists_mem_of_ne_nil _ (slots_ne_nil hx)
  exact ⟨s, hs, hs⟩

/-- The pigeonhole: 32 bands cannot hide fewer than 32 differing slots. -/
theorem sharesBand_of_lt_similarity {x y : Fingerprint} (hx : x.sig.length = sigLen)
    (hy : y.sig.length = sigLen) (h : (0.75 : Float) < x.similarity y) : SharesBand x y := by
  have hle := agree_le_length x.sig y.sig
  rw [hx] at hle
  rw [similarity_eq_share hx hy, lt_share_iff hle] at h
  obtain ⟨i, c, hcx, hcy⟩ := exists_chunk_eq (r := 4) (b := 32) (by norm_num) hx hy (by omega)
  have hkey : ∀ z : Fingerprint, (chunks 4 z.sig)[i]? = some c → (i, mix c) ∈ z.slots := by
    intro z hz
    rw [mem_slots, Fingerprint.bandKeys, List.getElem?_map]
    change ((chunks 4 z.sig)[i]?).map mix = _
    rw [hz, Option.map_some]
  exact ⟨(i, mix c), hkey x hcx, hkey y hcy⟩

/-- The band index returns exactly the positions of the prints sharing a bucket. -/
theorem mem_bandHits {prints : List (Fingerprint × ℕ)} {x : Fingerprint} {j : ℕ} :
    j ∈ bandHits (bandIndex prints) x ↔ ∃ y, (y, j) ∈ prints ∧ SharesBand x y := by
  simp only [bandHits, List.mem_flatMap, bandIndex, lookup_buckets, List.mem_map,
    List.mem_filter, decide_eq_true_eq]
  constructor
  · rintro ⟨s, hs, ⟨t, k⟩, ⟨⟨⟨y, k'⟩, hy, t', ht', heq⟩, rfl⟩, rfl⟩
    obtain ⟨rfl, rfl⟩ := Prod.mk.inj heq
    exact ⟨y, hy, t', hs, ht'⟩
  · rintro ⟨y, hy, s, hs, hsy⟩
    exact ⟨s, hs, (s, j), ⟨⟨(y, j), hy, s, hsy, rfl⟩, rfl⟩, rfl⟩

end Fnprint
