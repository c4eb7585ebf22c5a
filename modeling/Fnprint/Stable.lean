import Fnprint.NodeGraph

/-!
# The assignment as a stable matching

A round keeps a maximal one-to-one set of candidates in which whoever is left
out met something ranked at least as high.  When the keys of the nodes are
distinct there is one such set, whatever the order of the candidates.
-/

namespace Fnprint

open Binary64 StableSort GreedyMatching

variable {a b : List Node} {w : Float} {cands : List Cand}

/-- A stable matching of candidates: drawn from them, one-to-one, and blocking
every candidate it leaves out by a pair that ranks at or before it. -/
structure StableMatching (a b : List Node) (w : Float) (cands : List Cand)
    (assign : List Pair) : Prop where
  drawn : ∀ p ∈ assign, ∃ c ∈ cands, toPair w c = p
  nodup_a : (assign.map Pair.a).Nodup
  nodup_b : (assign.map Pair.b).Nodup
  blocked : ∀ c ∈ cands, (∀ p ∈ assign, ¬(p.a = c.a ∧ p.b = c.b)) →
    ∃ d ∈ cands, toPair w d ∈ assign ∧ (d.a = c.a ∨ d.b = c.b) ∧
      (candCmp a b w d c).isLE = true

theorem mem_pairsOf {kept : List Cand} {p : Pair} :
    p ∈ pairsOf w kept ↔ ∃ c ∈ kept, toPair w c = p := by
  rw [(perm_pairsOf w kept).mem_iff, List.mem_map]

/-- Every candidate is met by a kept one that ranks at or before it. -/
theorem exists_kept_meets (a b : List Node) (w : Float) {c : Cand} (hc : c ∈ cands) :
    ∃ d ∈ kept a b w cands, Meets Cand.a Cand.b d c ∧ (candCmp a b w d c).isLE = true := by
  obtain ⟨pre, suf, hl⟩ := List.append_of_mem ((mem_sortBy (candCmp a b w)).mpr hc)
  have hsorted := pairwise_sortBy (candCmp a b w) cands
  rw [hl] at hsorted
  obtain ⟨d, hd, hpre, hmeet⟩ := @exists_mem_greedy_meets _ _ _ Cand.a Cand.b _ _ pre suf c
  rw [← hl] at hd
  refine ⟨d, hd, hmeet, ?_⟩
  rcases List.mem_append.mp hpre with hdpre | hdc
  · exact (List.pairwise_append.mp hsorted).2.2 d hdpre c List.mem_cons_self
  · rw [List.mem_singleton.mp hdc]
    exact Std.ReflCmp.isLE_rfl

theorem stableMatching_kept (hrange : InRange a b cands) :
    StableMatching a b w cands (pairsOf w (kept a b w cands)) where
  drawn p hp := by
    obtain ⟨c, hc, rfl⟩ := mem_pairsOf.mp hp
    exact ⟨c, mem_kept hc, rfl⟩
  nodup_a := (oneToOne_pairsOf hrange w).nodup_a
  nodup_b := (oneToOne_pairsOf hrange w).nodup_b
  blocked c hc _ := by
    obtain ⟨d, hd, hmeet, hle⟩ := exists_kept_meets a b w hc
    exact ⟨d, mem_kept hd, mem_pairsOf.mpr ⟨d, hd, rfl⟩, hmeet, hle⟩

/-! ## Uniqueness -/

theorem cand_eq_of_keys (hk : Keyed a b) (hrange : InRange a b cands)
    (hends : (cands.map Cand.ends).Nodup) {c d : Cand} (hc : c ∈ cands) (hd : d ∈ cands)
    (hm : (nodeAt a c.a).entry = (nodeAt a d.a).entry)
    (hn : ((nodeAt b c.b).group, (nodeAt b c.b).entry) =
      ((nodeAt b d.b).group, (nodeAt b d.b).entry)) : c = d := by
  have ha := nodeAt_injOn hk.a_nodup (hrange c hc).1 (hrange d hd).1 hm
  have hb := nodeAt_injOn hk.b_nodup (hrange c hc).2 (hrange d hd).2 hn
  exact List.inj_on_of_nodup_map hends hc hd (Prod.ext ha hb)

theorem cand_eq_of_tie (hk : Keyed a b) (hrange : InRange a b cands)
    (hends : (cands.map Cand.ends).Nodup) {c d : Cand} (hc : c ∈ cands) (hd : d ∈ cands)
    (htie : candCmp a b w c d = .eq) : c = d := by
  obtain ⟨-, htie⟩ := compareLex_eq_iff.mp htie
  obtain ⟨-, htie⟩ := compareLex_eq_iff.mp htie
  obtain ⟨hm, htie⟩ := compareLex_eq_iff.mp htie
  obtain ⟨hgroup, hentry⟩ := compareLex_eq_iff.mp htie
  exact cand_eq_of_keys hk hrange hends hc hd (Std.LawfulEqCmp.eq_of_compare hm)
    (Prod.ext (Std.LawfulEqCmp.eq_of_compare hgroup) (Std.LawfulEqCmp.eq_of_compare hentry))

/-- The two positions of a pair. -/
def Pair.ends (p : Pair) : ℕ × ℕ := (p.a, p.b)

/-- The candidates a matching selects. -/
def selected (assign : List Pair) (c : Cand) : Bool := c.ends ∈ assign.map Pair.ends

namespace StableMatching

variable {assign : List Pair}

theorem toPair_mem (h : StableMatching a b w cands assign) (hends : (cands.map Cand.ends).Nodup)
    {c : Cand} (hc : c ∈ cands) (hsel : selected assign c = true) : toPair w c ∈ assign := by
  obtain ⟨p, hp, hpc⟩ := List.mem_map.mp (of_decide_eq_true hsel)
  obtain ⟨d, hd, rfl⟩ := h.drawn p hp
  rwa [← List.inj_on_of_nodup_map hends hd hc hpc]

theorem selected_of_mem {c : Cand} (hmem : toPair w c ∈ assign) : selected assign c = true :=
  decide_eq_true (List.mem_map.mpr ⟨toPair w c, hmem, rfl⟩)

theorem eq_of_meets (h : StableMatching a b w cands assign) (hends : (cands.map Cand.ends).Nodup)
    {c d : Cand} (hc : c ∈ cands) (hd : d ∈ cands) (hcsel : selected assign c = true)
    (hdsel : selected assign d = true) (hmeet : Meets Cand.a Cand.b c d) : c = d := by
  have hcmem := h.toPair_mem hends hc hcsel
  have hdmem := h.toPair_mem hends hd hdsel
  have hpair : toPair w c = toPair w d := by
    rcases hmeet with ha | hb
    · exact List.inj_on_of_nodup_map h.nodup_a hcmem hdmem ha
    · exact List.inj_on_of_nodup_map h.nodup_b hcmem hdmem hb
  exact List.inj_on_of_nodup_map hends hc hd
    (Prod.ext (congrArg Pair.a hpair) (congrArg Pair.b hpair))

/-- A stable matching selects what the greedy round keeps. -/
theorem kept_eq (h : StableMatching a b w cands assign) (hk : Keyed a b)
    (hrange : InRange a b cands) (hends : (cands.map Cand.ends).Nodup) :
    kept a b w cands = (sortBy (candCmp a b w) cands).filter (selected assign) := by
  have hsorted := pairwise_sortBy (candCmp a b w) cands
  have hmem : ∀ c ∈ sortBy (candCmp a b w) cands, c ∈ cands := fun c hc ↦ (mem_sortBy _).mp hc
  apply greedy_eq_filter
  · have hnodup : (sortBy (candCmp a b w) cands).Nodup :=
      (perm_sortBy _ cands).nodup_iff.mpr (List.Nodup.of_map Cand.ends hends)
    refine List.Pairwise.imp_of_mem ?_ (hnodup.filter _)
    intro c d hc hd hne hmeet
    obtain ⟨hc, hcsel⟩ := List.mem_filter.mp hc
    obtain ⟨hd, hdsel⟩ := List.mem_filter.mp hd
    exact hne (h.eq_of_meets hends (hmem c hc) (hmem d hd) hcsel hdsel hmeet)
  · intro pre c suf hl hnot
    have hc : c ∈ cands := hmem c (by rw [hl]; simp)
    have hout : ∀ p ∈ assign, ¬(p.a = c.a ∧ p.b = c.b) := by
      rintro p hp ⟨ha, hb⟩
      have hsel : selected assign c = true :=
        decide_eq_true (List.mem_map.mpr ⟨p, hp, Prod.ext ha hb⟩)
      rw [hnot] at hsel
      cases hsel
    obtain ⟨d, hd, hdassign, hmeet, hle⟩ := h.blocked c hc hout
    have hdsel := selected_of_mem hdassign
    -- the blocking candidate is another one, so it ranks strictly before
    have hlt : candCmp a b w d c = .lt := by
      cases hcmp : candCmp a b w d c with
      | lt => rfl
      | eq =>
          rw [cand_eq_of_tie hk hrange hends hd hc hcmp, hnot] at hdsel
          cases hdsel
      | gt => simp [hcmp] at hle
    have hdl := (mem_sortBy (candCmp a b w)).mpr hd
    rw [hl] at hsorted hdl
    exact ⟨d, mem_of_pairwise_of_lt _ hsorted hdl hlt, hdsel, hmeet⟩

/-- Two stable matchings of the same candidates have the same pairs. -/
theorem perm_kept (h : StableMatching a b w cands assign) (hk : Keyed a b)
    (hrange : InRange a b cands) (hends : (cands.map Cand.ends).Nodup) :
    assign.Perm (pairsOf w (kept a b w cands)) := by
  have hnodup := (oneToOne_pairsOf hrange w).nodup_a
  rw [List.perm_ext_iff_of_nodup (h.nodup_a.of_map) hnodup.of_map]
  intro p
  rw [mem_pairsOf, h.kept_eq hk hrange hends]
  constructor
  · intro hp
    obtain ⟨c, hc, rfl⟩ := h.drawn p hp
    exact ⟨c, List.mem_filter.mpr ⟨(mem_sortBy _).mpr hc, selected_of_mem hp⟩, rfl⟩
  · rintro ⟨c, hc, rfl⟩
    obtain ⟨hc, hsel⟩ := List.mem_filter.mp hc
    exact h.toPair_mem hends ((mem_sortBy _).mp hc) hsel

end StableMatching

/-- The order of the candidates does not matter to a round. -/
theorem kept_perm (hk : Keyed a b) (hrange : InRange a b cands)
    (hends : (cands.map Cand.ends).Nodup) {cands' : List Cand} (hperm : cands'.Perm cands) :
    kept a b w cands' = kept a b w cands := by
  rw [kept, kept, sortBy_eq_of_perm (candCmp a b w) hperm.symm]
  exact fun c hc d hd htie ↦ cand_eq_of_tie hk hrange hends hc hd htie

/-- The assignment is a stable one-to-one matching of its candidates; when the
entries of `a` and the keys of `b` are distinct it is the only one, and every
permutation of the candidates gives it. -/
theorem assignGreedy_stable (w : Float) (hrange : InRange a b cands)
    (hends : (cands.map Cand.ends).Nodup) :
    StableMatching a b w cands (assignGreedy cands a b w).2 ∧
      (Keyed a b →
        (∀ assign, StableMatching a b w cands assign →
          assign.Perm (assignGreedy cands a b w).2) ∧
        ∀ cands', cands'.Perm cands →
          (assignGreedy cands' a b w).2 = (assignGreedy cands a b w).2) := by
  rw [assignGreedy_eq hrange]
  refine ⟨stableMatching_kept hrange, fun hk ↦ ⟨fun assign h ↦ h.perm_kept hk hrange hends, ?_⟩⟩
  intro cands' hperm
  have hrange' : InRange a b cands' := fun c hc ↦ hrange c (hperm.mem_iff.mp hc)
  rw [assignGreedy_eq hrange', kept_perm hk hrange hends hperm]

/-- Two candidates for the same function. -/
def rivals : List Cand := [⟨0, 0, 0.5, 0.0⟩, ⟨1, 0, 0.75, 0.5⟩]

def bareNode (entry : UInt64) : Node := ⟨default, entry, [], none, ""⟩

theorem assignGreedy_stable_rivals :
    StableMatching [bareNode 1, bareNode 2] [bareNode 3] 1.0 rivals
        (assignGreedy rivals [bareNode 1, bareNode 2] [bareNode 3] 1.0).2 ∧
      (assignGreedy rivals.reverse [bareNode 1, bareNode 2] [bareNode 3] 1.0).2 =
        (assignGreedy rivals [bareNode 1, bareNode 2] [bareNode 3] 1.0).2 := by
  have hrange : InRange [bareNode 1, bareNode 2] [bareNode 3] rivals := by
    simp [InRange, rivals]
  have hkeyed : Keyed [bareNode 1, bareNode 2] [bareNode 3] := ⟨by decide, by decide⟩
  obtain ⟨hstable, hunique⟩ := assignGreedy_stable 1.0 hrange (by decide)
  exact ⟨hstable, (hunique hkeyed).2 _ (List.reverse_perm rivals)⟩

end Fnprint
