import Fnprint.ByNameOrder
import Fnprint.EvalCounts
import Fnprint.Lib.Overlap
import Fnprint.Lib.Reorder

/-!
# Evaluation and the order of the indexes

The ranking of an evaluation breaks ties by position.  The twin of a scored
function stands behind the functions that are more similar and behind those of
its ties that are listed before it, so an exchange of two neighbours moves a
rank exactly when one is the twin of a function that ties with the other.
-/

namespace Fnprint

open Binary64 StableSort KeyMap Reorder

/-! ## The place of a twin -/

/-- The function of `bsig` with the name of `f`. -/
def twinOf (bsig : List IndexedFunc) (f : IndexedFunc) : IndexedFunc :=
  (bsig.find? fun g ↦ g.name == f.name).getD default

def twinSim (bsig : List IndexedFunc) (f : IndexedFunc) : Float :=
  f.fp.similarity (twinOf bsig f).fp

/-- `h` is exactly as similar to `f` as its twin. -/
def Tied (bsig : List IndexedFunc) (f h : IndexedFunc) : Prop :=
  f.fp.similarity h.fp = twinSim bsig f

instance (bsig : List IndexedFunc) (f h : IndexedFunc) : Decidable (Tied bsig f h) :=
  inferInstanceAs (Decidable (_ = _))

/-- How many functions are more similar to `f` than its twin. -/
def above (bsig : List IndexedFunc) (f : IndexedFunc) : ℕ :=
  bsig.countP fun h ↦ twinSim bsig f < f.fp.similarity h.fp

/-- Functions to rank, with distinct names. -/
structure Ranked (bsig : List IndexedFunc) : Prop where
  named : ∀ g ∈ bsig, g.name.isSome = true
  distinct : DistinctNames bsig

theorem Ranked.perm {bsig l : List IndexedFunc} (h : Ranked bsig) (hl : l.Perm bsig) :
    Ranked l where
  named g hg := h.named g (hl.mem_iff.mp hg)
  distinct := h.distinct.perm hl

theorem ranked_signalNamed {b : List IndexedFunc} (h : DistinctNames b) :
    Ranked (signalNamed b) where
  named := named_signalNamed b
  distinct := h.sublist (List.filter_sublist.filterMap _)

section Twin

variable {bsig l : List IndexedFunc} {f g : IndexedFunc}

theorem isScored_perm (hl : l.Perm bsig) (f : IndexedFunc) : isScored l f = isScored bsig f := by
  rw [Bool.eq_iff_iff, isScored_iff, isScored_iff]
  simp only [hl.mem_iff]

theorem twinOf_spec (hs : isScored bsig f = true) :
    twinOf bsig f ∈ bsig ∧ (twinOf bsig f).name = f.name := by
  obtain ⟨-, n, hname, g, hg, hgname⟩ := isScored_iff.mp hs
  obtain ⟨t, ht⟩ := Option.isSome_iff_exists.mp
    (List.find?_isSome.mpr ⟨g, hg, by rw [hgname, hname, beq_self_eq_true]⟩ :
      (bsig.find? fun g ↦ g.name == f.name).isSome = true)
  rw [twinOf, ht, Option.getD_some]
  have hspec := @List.find?_some _ (fun g : IndexedFunc ↦ g.name == f.name) _ _ ht
  exact ⟨List.mem_of_find?_eq_some ht, beq_iff_eq.mp hspec⟩

theorem Ranked.eq_of_name (h : Ranked bsig) {g g' : IndexedFunc} (hg : g ∈ bsig) (hg' : g' ∈ bsig)
    (hname : g.name = g'.name) : g = g' := by
  obtain ⟨n, hn⟩ := Option.isSome_iff_exists.mp (h.named g hg)
  exact h.distinct.eq_of_name hg hg' hn (hname ▸ hn)

theorem Ranked.nodup (h : Ranked bsig) : bsig.Nodup := by
  refine List.Pairwise.imp_of_mem ?_ (List.pairwise_filterMap.mp h.distinct)
  rintro x y hx - hne rfl
  obtain ⟨n, hn⟩ := Option.isSome_iff_exists.mp (h.named x hx)
  exact hne n hn n hn rfl

theorem Ranked.twinOf_eq (h : Ranked bsig) (hs : isScored bsig f = true) (hg : g ∈ bsig)
    (hname : g.name = f.name) : twinOf bsig f = g :=
  h.eq_of_name (twinOf_spec hs).1 hg ((twinOf_spec hs).2.trans hname.symm)

theorem Ranked.twinOf_perm (h : Ranked bsig) (hl : l.Perm bsig) (hs : isScored bsig f = true) :
    twinOf l f = twinOf bsig f := by
  have hspec := twinOf_spec ((isScored_perm hl f).trans hs)
  exact (h.twinOf_eq hs (hl.mem_iff.mp hspec.1) hspec.2).symm

theorem Ranked.twinSim_perm (h : Ranked bsig) (hl : l.Perm bsig) (hs : isScored bsig f = true) :
    twinSim l f = twinSim bsig f := by
  rw [twinSim, h.twinOf_perm hl hs, twinSim]

theorem Ranked.tied_perm (h : Ranked bsig) (hl : l.Perm bsig) (hs : isScored bsig f = true)
    (g : IndexedFunc) : Tied l f g ↔ Tied bsig f g := by
  rw [Tied, h.twinSim_perm hl hs, Tied]

theorem Ranked.above_perm (h : Ranked bsig) (hl : l.Perm bsig) (hs : isScored bsig f = true) :
    above l f = above bsig f := by
  rw [above, h.twinSim_perm hl hs, above, hl.countP_eq]

theorem countP_ahead (fp : Fingerprint) (g : IndexedFunc) (pre : List IndexedFunc) :
    pre.countP (fun y ↦ (totalCmp (fp.similarity g.fp) (fp.similarity y.fp)).isLE) =
      (pre.countP fun y ↦ fp.similarity g.fp < fp.similarity y.fp) +
        pre.countP fun y ↦ fp.similarity y.fp = fp.similarity g.fp := by
  have hlt : ∀ y : IndexedFunc, fp.similarity g.fp < fp.similarity y.fp ↔
      totalCmp (fp.similarity g.fp) (fp.similarity y.fp) = .lt := fun y ↦
    (totalCmp_eq_lt_iff (Fingerprint.bits_similarity_lt_inf _ _).le
      (Fingerprint.bits_similarity_lt_inf _ _).le).symm
  have heq : ∀ y : IndexedFunc, fp.similarity y.fp = fp.similarity g.fp ↔
      totalCmp (fp.similarity g.fp) (fp.similarity y.fp) = .eq := fun y ↦
    eq_comm.trans totalCmp_eq_iff.symm
  simp only [hlt, heq]
  rw [← Overlap.countP_or_of_disjoint]
  · refine List.countP_congr fun y _ ↦ ?_
    cases totalCmp (fp.similarity g.fp) (fp.similarity y.fp) <;> simp
  · intro y hy
    rw [of_decide_eq_true hy]
    rfl

theorem rankFuncs_split (fp : Fingerprint) (g : IndexedFunc) (pre suf : List IndexedFunc) :
    ∃ A B, rankFuncs (pre ++ g :: suf) fp = A ++ g :: B ∧
      A.length = ((pre ++ g :: suf).countP fun h ↦ fp.similarity g.fp < fp.similarity h.fp) +
        pre.countP fun h ↦ fp.similarity h.fp = fp.similarity g.fp := by
  have hlt : ∀ y : IndexedFunc, totalCmp (fp.similarity g.fp) (fp.similarity y.fp) = .lt ↔
      fp.similarity g.fp < fp.similarity y.fp := fun y ↦
    totalCmp_eq_lt_iff (Fingerprint.bits_similarity_lt_inf _ _).le
      (Fingerprint.bits_similarity_lt_inf _ _).le
  obtain ⟨A, B, hsort, hlen⟩ := sortBy_split
    (byKey (fun g : IndexedFunc ↦ fp.similarity g.fp) (descending totalCmp)) g pre suf
  refine ⟨A, B, hsort, ?_⟩
  have hself : ¬fp.similarity g.fp < fp.similarity g.fp := by
    rw [← hlt, totalCmp_eq_iff.mpr rfl]
    decide
  have hahead := countP_ahead fp g pre
  simp only [ahead, byKey, descending, hlt] at hlen
  rw [hlen, hahead, List.countP_append, List.countP_cons, if_neg (by simpa using hself)]
  omega

theorem Ranked.place_split (h : Ranked bsig) (hs : isScored bsig f = true)
    {pre suf : List IndexedFunc} (hsplit : bsig = pre ++ twinOf bsig f :: suf) :
    ∃ A B, rankFuncs bsig f.fp = A ++ twinOf bsig f :: B ∧ A.length = twinPlace bsig f ∧
      A.length = above bsig f + pre.countP fun h ↦ Tied bsig f h := by
  obtain ⟨A, B, hsort, hlen⟩ := rankFuncs_split f.fp (twinOf bsig f) pre suf
  rw [← hsplit] at hsort hlen
  refine ⟨A, B, hsort, ?_, hlen⟩
  -- the twin is the only one of its name, so nothing in front of it has it
  have hperm : (A ++ twinOf bsig f :: B).Perm bsig := by
    rw [← hsort]
    exact perm_sortBy _ _
  have hnodup : (A ++ twinOf bsig f :: B).Nodup := hperm.nodup_iff.mpr h.nodup
  have hfront : ∀ g ∈ A, g.name ≠ f.name := by
    intro g hg hname
    have hmem := hperm.mem_iff.mp (List.mem_append_left _ hg)
    have heq := h.twinOf_eq hs hmem hname
    exact (List.nodup_append.mp hnodup).2.2 g hg _ List.mem_cons_self heq.symm
  have hname : ∀ g ∈ bsig, some (g.name.getD "") = g.name := by
    intro g hg
    obtain ⟨n, hn⟩ := Option.isSome_iff_exists.mp (h.named g hg)
    rw [hn, Option.getD_some]
  rw [twinPlace, rankNames_eq h.named, List.findIdx_map, hsort]
  refine (findIdx_append_cons (fun g hg ↦ ?_) ?_).symm
  · rw [Function.comp_apply, beq_eq_false_iff_ne]
    dsimp only
    rw [hname g (hperm.mem_iff.mp (List.mem_append_left _ hg))]
    exact hfront g hg
  · rw [Function.comp_apply, beq_iff_eq]
    dsimp only
    rw [hname _ (twinOf_spec hs).1]
    exact (twinOf_spec hs).2

/-- In any order the twin stands behind the more similar functions and behind
the ties listed before it. -/
theorem Ranked.twinPlace_eq (h : Ranked bsig) (hs : isScored bsig f = true) (hl : l.Perm bsig)
    (pre suf : List IndexedFunc) (hsplit : l = pre ++ twinOf bsig f :: suf) :
    twinPlace l f = above bsig f + pre.countP fun h ↦ Tied bsig f h := by
  have hsl := (isScored_perm hl f).trans hs
  rw [← h.twinOf_perm hl hs] at hsplit
  obtain ⟨A, B, -, hplace, hlen⟩ := (h.perm hl).place_split hsl hsplit
  rw [← hplace, hlen, h.above_perm hl hs]
  simp only [h.tied_perm hl hs]

theorem topRight_iff (hs : isScored bsig f = true) :
    topRight bsig f = true ↔ twinPlace bsig f = 0 := by
  obtain ⟨n, top, rest, -, hranked, -⟩ := @evalStep_of_scored bsig [] ∅ EvalResult.zero f hs 0
  rw [topRight, topMatch, twinPlace, hranked, List.headD_cons, List.findIdx_cons]
  cases some top.2 == f.name <;> simp

theorem Ranked.topSame_eq (h : Ranked bsig) (hs : isScored bsig f = true)
    (hplace : twinPlace bsig f = 0) : topSame bsig f = decide (sameThresh ≤ twinSim bsig f) := by
  obtain ⟨pre, suf, hsplit⟩ := List.append_of_mem (twinOf_spec hs).1
  obtain ⟨A, B, hrank, hlen, -⟩ := h.place_split hs hsplit
  obtain rfl : A = [] := List.length_eq_zero_iff.mp (hlen.trans hplace)
  rw [topSame, topMatch, rankNames_eq h.named, hrank]
  rfl

theorem topSame_perm (hl : l.Perm bsig) (f : IndexedFunc) : topSame l f = topSame bsig f := by
  have hfst : ∀ l : List IndexedFunc, (rankNames l f.fp).map Prod.fst =
      sortBy (descending totalCmp) ((l.filterMap fun g ↦
        g.name.map fun n ↦ (f.fp.similarity g.fp, n)).map Prod.fst) := fun l ↦
    map_sortBy Prod.fst fun _ _ _ _ ↦ rfl
  have htop : ∀ l : List IndexedFunc, (topMatch l f).1 =
      ((rankNames l f.fp).map Prod.fst).headD 0.0 := by
    intro l
    rw [topMatch]
    cases rankNames l f.fp <;> rfl
  have hsame : (topMatch l f).1 = (topMatch bsig f).1 := by
    rw [htop, htop, hfst, hfst, sortBy_eq_of_perm (descending totalCmp)
      ((hl.filterMap _).map Prod.fst) fun x _ y _ heq ↦ (totalCmp_eq_iff.mp heq).symm]
  rw [topSame, topSame, hsame]

theorem swap_neighbours (pre suf : List IndexedFunc) (x y : IndexedFunc) :
    (pre ++ y :: x :: suf).Perm (pre ++ x :: y :: suf) :=
  (List.Perm.swap x y suf).append_left pre

section Neighbours

variable {pre suf : List IndexedFunc} {x y : IndexedFunc}

theorem Ranked.ne_of_neighbours (h : Ranked bsig) (hl : (pre ++ x :: y :: suf).Perm bsig) :
    x ≠ y := by
  have hnodup := (List.nodup_append.mp (hl.nodup_iff.mpr h.nodup)).2.1
  exact fun heq ↦ (List.nodup_cons.mp hnodup).1 (heq ▸ List.mem_cons_self)

/-- An exchange of two neighbours moves the twin when it passes a tie. -/
theorem Ranked.twinPlace_swap (h : Ranked bsig) (hs : isScored bsig f = true)
    (hl : (pre ++ x :: y :: suf).Perm bsig) :
    twinPlace (pre ++ y :: x :: suf) f +
        (if twinOf bsig f = y ∧ Tied bsig f x then 1 else 0) =
      twinPlace (pre ++ x :: y :: suf) f +
        if twinOf bsig f = x ∧ Tied bsig f y then 1 else 0 := by
  have hl' := (swap_neighbours pre suf x y).trans hl
  have hne := h.ne_of_neighbours hl
  by_cases hx : twinOf bsig f = x
  · rw [h.twinPlace_eq hs hl pre (y :: suf) (by rw [hx]),
      h.twinPlace_eq hs hl' (pre ++ [y]) suf (by rw [hx]; simp),
      if_neg fun hy ↦ hne (hx.symm.trans hy.1), List.countP_append, List.countP_singleton]
    simp only [hx, true_and, decide_eq_true_eq]
    omega
  · have hnotx : ¬(twinOf bsig f = x ∧ Tied bsig f y) := fun hx' ↦ hx hx'.1
    rw [if_neg hnotx]
    by_cases hy : twinOf bsig f = y
    · rw [h.twinPlace_eq hs hl (pre ++ [x]) suf (by rw [hy]; simp),
        h.twinPlace_eq hs hl' pre (x :: suf) (by rw [hy]), List.countP_append,
        List.countP_singleton]
      simp only [hy, true_and, decide_eq_true_eq]
      omega
    · rw [if_neg fun hy' ↦ hy hy'.1]
      have hmem := hl.mem_iff.mpr (twinOf_spec hs).1
      rcases List.mem_append.mp hmem with hpre | hmem
      · obtain ⟨p, q, hp⟩ := List.append_of_mem hpre
        rw [h.twinPlace_eq hs hl p (q ++ x :: y :: suf) (by rw [hp]; simp),
          h.twinPlace_eq hs hl' p (q ++ y :: x :: suf) (by rw [hp]; simp)]
      · have hsuf : twinOf bsig f ∈ suf := by simpa [hx, hy] using hmem
        obtain ⟨p, q, hp⟩ := List.append_of_mem hsuf
        rw [h.twinPlace_eq hs hl (pre ++ x :: y :: p) q (by rw [hp]; simp),
          h.twinPlace_eq hs hl' (pre ++ y :: x :: p) q (by rw [hp]; simp),
          (swap_neighbours pre p x y).countP_eq]

theorem Ranked.twinPlace_swap_front (h : Ranked bsig) (hs : isScored bsig f = true)
    (hl : (pre ++ x :: y :: suf).Perm bsig) (hx : twinOf bsig f = x) (htied : Tied bsig f y) :
    twinPlace (pre ++ y :: x :: suf) f = twinPlace (pre ++ x :: y :: suf) f + 1 := by
  have hswap := h.twinPlace_swap hs hl
  rwa [if_neg fun hy ↦ h.ne_of_neighbours hl (hx.symm.trans hy.1), if_pos ⟨hx, htied⟩,
    Nat.add_zero] at hswap

theorem Ranked.twinPlace_swap_back (h : Ranked bsig) (hs : isScored bsig f = true)
    (hl : (pre ++ x :: y :: suf).Perm bsig) (hy : twinOf bsig f = y) (htied : Tied bsig f x) :
    twinPlace (pre ++ x :: y :: suf) f = twinPlace (pre ++ y :: x :: suf) f + 1 :=
  h.twinPlace_swap_front hs ((swap_neighbours pre suf x y).trans hl) hy htied

theorem Ranked.twinPlace_swap_other (h : Ranked bsig) (hs : isScored bsig f = true)
    (hl : (pre ++ x :: y :: suf).Perm bsig) (hx : ¬(twinOf bsig f = x ∧ Tied bsig f y))
    (hy : ¬(twinOf bsig f = y ∧ Tied bsig f x)) :
    twinPlace (pre ++ y :: x :: suf) f = twinPlace (pre ++ x :: y :: suf) f := by
  have hswap := h.twinPlace_swap hs hl
  rwa [if_neg hx, if_neg hy] at hswap

end Neighbours

end Twin

/-! ## Harmless ties -/

/-- The function ties like `f`, from the same height, and is called the same. -/
structure Alike (bsig : List IndexedFunc) (f f' : IndexedFunc) : Prop where
  tied : ∀ h ∈ bsig, Tied bsig f' h ↔ Tied bsig f h
  above_eq : above bsig f' = above bsig f
  same : above bsig f = 0 → (sameThresh ≤ twinSim bsig f' ↔ sameThresh ≤ twinSim bsig f)

instance (bsig : List IndexedFunc) (f f' : IndexedFunc) : Decidable (Alike bsig f f') :=
  decidable_of_iff ((∀ h ∈ bsig, Tied bsig f' h ↔ Tied bsig f h) ∧ above bsig f' = above bsig f ∧
      (above bsig f = 0 → (sameThresh ≤ twinSim bsig f' ↔ sameThresh ≤ twinSim bsig f)))
    ⟨fun h ↦ ⟨h.1, h.2.1, h.2.2⟩, fun h ↦ ⟨h.tied, h.above_eq, h.same⟩⟩

/-- Whatever ties with the twin of a scored function is the twin of one alike. -/
def TiesHarmless (S bsig : List IndexedFunc) : Prop :=
  ∀ f ∈ S, ∀ g ∈ bsig, g.name ≠ f.name → Tied bsig f g →
    ∃ f' ∈ S, f'.name = g.name ∧ Alike bsig f f'

instance (S bsig : List IndexedFunc) : Decidable (TiesHarmless S bsig) :=
  inferInstanceAs (Decidable (∀ f ∈ S, ∀ g ∈ bsig, g.name ≠ f.name → Tied bsig f g →
    ∃ f' ∈ S, f'.name = g.name ∧ Alike bsig f f'))

/-- The place of the twin if ties were broken by name. -/
def namedPlace (bsig : List IndexedFunc) (f : IndexedFunc) : ℕ :=
  above bsig f +
    bsig.countP fun h ↦ decide (Tied bsig f h) && decide (h.name.getD "" < f.name.getD "")

def reciprocalSum (places : List ℕ) : Float :=
  places.foldl (fun sum pos ↦ sum + reciprocal pos) 0.0

/-- The reciprocals of the ranks add up to the same double in every order. -/
def SumsAlike (S bsig : List IndexedFunc) : Prop :=
  ∀ places : List ℕ, places.Perm (S.map (namedPlace bsig)) →
    reciprocalSum places = reciprocalSum (S.map (namedPlace bsig))

section Powers

open Rounding

variable {k : ℕ}

/-- Ranks that are powers of two have exact reciprocals, and so have their sums. -/
theorem value_reciprocalSum {places : List ℕ} (hk : k ≤ 53)
    (hranks : ∀ p ∈ places, ∃ j ≤ k, p + 1 = 2 ^ j) (hlen : places.length * 2 ^ k ≤ 2 ^ 53) :
    bits (reciprocalSum places) < inf ∧ value 52 (bits (reciprocalSum places)) =
      (places.map fun p ↦ 2 ^ k / (p + 1)).sum * 2 ^ (1074 - k) := by
  induction places using List.reverseRecOn with
  | nil =>
      have hzero : bits (reciprocalSum []) = 0 := bits_zero
      rw [hzero, inf_eq]
      simp
  | append_singleton l p ih =>
      rw [List.length_append, List.length_singleton, Nat.add_mul, Nat.one_mul] at hlen
      obtain ⟨hfinite, hvalue⟩ :=
        ih (fun q hq ↦ hranks q (List.mem_append_left _ hq)) ((Nat.le_add_right _ _).trans hlen)
      obtain ⟨j, hj, hp⟩ := hranks p (List.mem_append_right l (List.mem_singleton_self p))
      have hpow : 2 ^ j ≤ 2 ^ 53 := Nat.pow_le_pow_right (by decide) (hj.trans hk)
      have hreciprocal : reciprocal p = 1.0 / natCast (2 ^ j) := by
        rw [reciprocal, natCast_add_one (by omega), hp]
      obtain ⟨hfinite', hone⟩ := value_one_div_shift (hj.trans hk)
      have hunit : 2 ^ (1074 - j) = 2 ^ k / (p + 1) * 2 ^ (1074 - k) := by
        rw [hp, Nat.pow_div hj (by decide), ← Nat.pow_add]
        congr 1
        omega
      have hterms : (l.map fun p ↦ 2 ^ k / (p + 1)).sum ≤ l.length * 2 ^ k := by
        have hle := List.sum_le_card_nsmul (l.map fun p ↦ 2 ^ k / (p + 1)) (2 ^ k) fun n hn ↦ by
          obtain ⟨q, -, rfl⟩ := List.mem_map.mp hn
          exact Nat.div_le_self _ _
        rwa [List.length_map, smul_eq_mul] at hle
      have hterm : 2 ^ k / (p + 1) ≤ 2 ^ k := Nat.div_le_self _ _
      have hsum : reciprocalSum (l ++ [p]) = reciprocalSum l + 1.0 / natCast (2 ^ j) := by
        rw [reciprocalSum, List.foldl_append, ← hreciprocal]
        rfl
      rw [hsum, List.map_append, List.sum_append, List.map_singleton, List.sum_singleton]
      exact value_add_shift hfinite hfinite' hvalue (hone.trans hunit)
        ((Nat.add_le_add hterms hterm).trans hlen) (by omega)

/-- The order does not matter where every rank is a power of two, none of them
so high nor so many of them that the sum runs out of bits. -/
theorem sumsAlike_of_powers {S bsig : List IndexedFunc} (hk : k ≤ 53)
    (hranks : ∀ f ∈ S, ∃ j ≤ k, namedPlace bsig f + 1 = 2 ^ j)
    (hlen : S.length * 2 ^ k ≤ 2 ^ 53) : SumsAlike S bsig := by
  intro places hplaces
  have hpowers : ∀ p ∈ S.map (namedPlace bsig), ∃ j ≤ k, p + 1 = 2 ^ j := by
    intro p hp
    obtain ⟨f, hf, rfl⟩ := List.mem_map.mp hp
    exact hranks f hf
  have hleft := value_reciprocalSum hk (fun p hp ↦ hpowers p (hplaces.mem_iff.mp hp))
    (by rwa [hplaces.length_eq, List.length_map])
  have hright := value_reciprocalSum hk hpowers (by rwa [List.length_map])
  apply eq_of_value_eq
  rw [hleft.2, hright.2, (hplaces.map fun p ↦ 2 ^ k / (p + 1)).sum_eq]

end Powers

/-- The counts of two evaluations agree, and their ranks up to order. -/
structure SameRanking (r s : EvalResult) : Prop where
  scored : r.scored = s.scored
  rank1 : r.rank1 = s.rank1
  rrSum : r.rrSum = s.rrSum
  tp : r.tp = s.tp
  fp : r.fp = s.fp
  fn_ : r.fn_ = s.fn_
  abstained : r.abstained = s.abstained
  ranks : r.ranks.Perm s.ranks

/-- Where the twin is, and whether it is a true positive. -/
def verdict (bsig : List IndexedFunc) (f : IndexedFunc) : ℕ × Bool :=
  (twinPlace bsig f, topSame bsig f && topRight bsig f)

section Verdicts

variable {S bsig l : List IndexedFunc} {f : IndexedFunc}

theorem Ranked.eq_of_twinOf (hS : Ranked S) (hs : ∀ f ∈ S, isScored bsig f = true)
    {f' : IndexedFunc} (hf : f ∈ S) (hf' : f' ∈ S) (heq : twinOf bsig f = twinOf bsig f') :
    f = f' := by
  refine hS.eq_of_name hf hf' ?_
  rw [← (twinOf_spec (hs f hf)).2, heq, (twinOf_spec (hs f' hf')).2]

theorem Ranked.verdict_eq (h : Ranked bsig) (hs : isScored bsig f = true) (hl : l.Perm bsig) :
    verdict l f = (twinPlace l f, decide (twinPlace l f = 0 ∧ sameThresh ≤ twinSim bsig f)) := by
  have hsl := (isScored_perm hl f).trans hs
  have hright := topRight_iff hsl
  rw [verdict]
  congr 1
  by_cases hplace : twinPlace l f = 0
  · rw [hright.mpr hplace, Bool.and_true, (h.perm hl).topSame_eq hsl hplace, h.twinSim_perm hl hs]
    simp [hplace]
  · have hwrong : topRight l f = false := by rwa [← Bool.not_eq_true, hright]
    rw [hwrong, Bool.and_false]
    simp [hplace]

/-- Of two neighbours that tie, each takes the place of the other's twin. -/
theorem exists_alike_of_neighbours (h : Ranked bsig) (hs : ∀ f ∈ S, isScored bsig f = true)
    (hties : TiesHarmless S bsig) {x y : IndexedFunc} (hxy : x ≠ y) (hy : y ∈ bsig)
    (hf : f ∈ S) (hx : twinOf bsig f = x) (htied : Tied bsig f y) :
    ∃ f' ∈ S, twinOf bsig f' = y ∧ Tied bsig f' x ∧ Alike bsig f f' := by
  obtain ⟨hmem, hname⟩ := twinOf_spec (hs f hf)
  have hne : y.name ≠ f.name := fun heq ↦ hxy (hx ▸ h.twinOf_eq (hs f hf) hy heq)
  obtain ⟨f', hf', hname', halike⟩ := hties f hf y hy hne htied
  refine ⟨f', hf', h.twinOf_eq (hs f' hf') hy hname'.symm, ?_, halike⟩
  rw [← hx, halike.tied _ hmem]
  rfl

theorem place_of_alike (h : Ranked bsig) (hs : ∀ f ∈ S, isScored bsig f = true)
    {pre suf : List IndexedFunc} {x y f' : IndexedFunc} (hl : (pre ++ x :: y :: suf).Perm bsig)
    (hf : f ∈ S) (hf' : f' ∈ S) (hx : twinOf bsig f = x) (hy : twinOf bsig f' = y)
    (htied : Tied bsig f' x) (halike : Alike bsig f f') :
    twinPlace (pre ++ x :: y :: suf) f' = twinPlace (pre ++ x :: y :: suf) f + 1 := by
  have hpre : (pre.countP fun h ↦ Tied bsig f' h) = pre.countP fun h ↦ Tied bsig f h :=
    List.countP_congr fun g hg ↦ by
      rw [decide_eq_true_eq, decide_eq_true_eq, halike.tied g (hl.mem_iff.mp (by simp [hg]))]
  rw [h.twinPlace_eq (hs f hf) hl pre (y :: suf) (by rw [hx]),
    h.twinPlace_eq (hs f' hf') hl (pre ++ [x]) suf (by rw [hy]; simp), List.countP_append,
    List.countP_singleton, hpre, halike.above_eq, if_pos (decide_eq_true htied), Nat.add_assoc]

/-- When two alike functions have neighbours for twins, an exchange of the
neighbours exchanges their verdicts. -/
theorem verdict_swap_alike (hS : Ranked S) (h : Ranked bsig)
    (hs : ∀ f ∈ S, isScored bsig f = true) {pre suf : List IndexedFunc} {x y f' g : IndexedFunc}
    (hl : (pre ++ x :: y :: suf).Perm bsig) (hf : f ∈ S) (hf' : f' ∈ S)
    (hx : twinOf bsig f = x) (hy : twinOf bsig f' = y) (hfy : Tied bsig f y)
    (hfx : Tied bsig f' x) (halike : Alike bsig f f') (hg : g ∈ S) :
    verdict (pre ++ y :: x :: suf) g = verdict (pre ++ x :: y :: suf) (Equiv.swap f f' g) := by
  have hl' := (swap_neighbours pre suf x y).trans hl
  have hnext := place_of_alike h hs hl hf hf' hx hy hfx halike
  have hback := h.twinPlace_swap_back (hs f' hf') hl hy hfx
  rw [h.verdict_eq (hs g hg) hl']
  by_cases hgf : g = f
  · rw [hgf, Equiv.swap_apply_left, h.verdict_eq (hs f' hf') hl,
      h.twinPlace_swap_front (hs f hf) hl hx hfy, hnext]
    simp
  · by_cases hgf' : g = f'
    · rw [hgf', Equiv.swap_apply_right, h.verdict_eq (hs f hf) hl,
        show twinPlace (pre ++ y :: x :: suf) f' = twinPlace (pre ++ x :: y :: suf) f by omega]
      congr 2
      rw [eq_iff_iff]
      refine and_congr_right fun hzero ↦ halike.same ?_
      rw [h.twinPlace_eq (hs f hf) hl pre (y :: suf) (by rw [hx])] at hzero
      omega
    · rw [Equiv.swap_apply_of_ne_of_ne hgf hgf', h.verdict_eq (hs g hg) hl,
        h.twinPlace_swap_other (hs g hg) hl
          (fun hgx ↦ hgf (hS.eq_of_twinOf hs hg hf (hgx.1.trans hx.symm)))
          fun hgy ↦ hgf' (hS.eq_of_twinOf hs hg hf' (hgy.1.trans hy.symm))]

/-- The verdicts after an exchange of two neighbours are those before, with the
two functions exchanged whose twins they are. -/
theorem verdicts_swap (hS : Ranked S) (h : Ranked bsig) (hs : ∀ f ∈ S, isScored bsig f = true)
    (hties : TiesHarmless S bsig) {pre suf : List IndexedFunc} {x y : IndexedFunc}
    (hl : (pre ++ x :: y :: suf).Perm bsig) :
    (S.map (verdict (pre ++ y :: x :: suf))).Perm (S.map (verdict (pre ++ x :: y :: suf))) := by
  have hl' := (swap_neighbours pre suf x y).trans hl
  have hne := h.ne_of_neighbours hl
  have hx : x ∈ bsig := hl.mem_iff.mp (by simp)
  have hy : y ∈ bsig := hl.mem_iff.mp (by simp)
  by_cases hex : ∃ f ∈ S, twinOf bsig f = x ∧ Tied bsig f y
  · obtain ⟨f, hf, hfx, hfy⟩ := hex
    obtain ⟨f', hf', hfy', hfx', halike⟩ := exists_alike_of_neighbours h hs hties hne hy hf hfx hfy
    refine (List.Perm.of_eq ?_).trans ((map_swap_perm hS.nodup hf hf').map _)
    rw [List.map_map]
    exact List.map_congr_left fun g hg ↦
      verdict_swap_alike hS h hs hl hf hf' hfx hfy' hfy hfx' halike hg
  · have hex' : ¬∃ f ∈ S, twinOf bsig f = y ∧ Tied bsig f x := by
      rintro ⟨f, hf, hfy, hfx⟩
      obtain ⟨f', hf', hfx', hfy', -⟩ :=
        exists_alike_of_neighbours h hs hties hne.symm hx hf hfy hfx
      exact hex ⟨f', hf', hfx', hfy'⟩
    refine List.Perm.of_eq (List.map_congr_left fun f hf ↦ ?_)
    rw [h.verdict_eq (hs f hf) hl, h.verdict_eq (hs f hf) hl',
      h.twinPlace_swap_other (hs f hf) hl (fun hxf ↦ hex ⟨f, hf, hxf⟩)
        fun hyf ↦ hex' ⟨f, hf, hyf⟩]

theorem verdicts_perm (hS : Ranked S) (h : Ranked bsig) (hs : ∀ f ∈ S, isScored bsig f = true)
    (hties : TiesHarmless S bsig) (hl : l.Perm bsig) :
    (S.map (verdict l)).Perm (S.map (verdict bsig)) := by
  have hall : bsig.Perm bsig → l.Perm bsig ∧ (S.map (verdict l)).Perm (S.map (verdict bsig)) := by
    refine @perm_of_swaps _ (fun l l' ↦ l.Perm bsig →
      l'.Perm bsig ∧ (S.map (verdict l')).Perm (S.map (verdict l))) ?_ ?_ ?_ _ _ hl.symm
    · exact fun l hl ↦ ⟨hl, List.Perm.refl _⟩
    · intro l l' l'' hstep hstep' hl
      obtain ⟨hl', hv⟩ := hstep hl
      obtain ⟨hl'', hv'⟩ := hstep' hl'
      exact ⟨hl'', hv'.trans hv⟩
    · intro pre x y suf hl
      exact ⟨(swap_neighbours pre suf x y).trans hl, verdicts_swap hS h hs hties hl⟩
  exact (hall (List.Perm.refl _)).2

theorem places_of_verdicts (l S : List IndexedFunc) :
    (S.map (verdict l)).map Prod.fst = S.map (twinPlace l) := by
  rw [List.map_map]
  rfl

theorem tallied_eq_verdicts (hs : ∀ f ∈ S, isScored l f = true) :
    (EvalResult.tallied l S).rank1 = (S.map (verdict l)).countP (fun v ↦ v.1 = 0) ∧
      (EvalResult.tallied l S).tp = (S.map (verdict l)).countP (fun v ↦ v.2) ∧
        (EvalResult.tallied l S).ranks = (S.map (twinPlace l)).map (· + 1) := by
  refine ⟨?_, ?_, ?_⟩
  · rw [List.countP_map]
    exact List.countP_congr fun f hf ↦ (topRight_iff (hs f hf)).trans decide_eq_true_iff.symm
  · rw [List.countP_map]
    rfl
  · rw [List.map_map]
    rfl

theorem rrSum_tallied (l S : List IndexedFunc) :
    (EvalResult.tallied l S).rrSum = reciprocalSum (S.map (twinPlace l)) := by
  rw [reciprocalSum, List.foldl_map]
  rfl

theorem sameRanking_of_verdicts (hs : ∀ f ∈ S, isScored bsig f = true) (hl : l.Perm bsig)
    {S' : List IndexedFunc} (hS' : S'.Perm S)
    (hv : (S.map (verdict l)).Perm (S.map (verdict bsig)))
    (hsum : reciprocalSum (S'.map (twinPlace l)) = reciprocalSum (S.map (twinPlace bsig))) :
    SameRanking (EvalResult.tallied l S') (EvalResult.tallied bsig S) := by
  have hs' : ∀ f ∈ S', isScored l f = true := fun f hf ↦
    (isScored_perm hl f).trans (hs f (hS'.mem_iff.mp hf))
  have hv' : (S'.map (verdict l)).Perm (S.map (verdict bsig)) := (hS'.map _).trans hv
  obtain ⟨hrank, htp, hranks⟩ := tallied_eq_verdicts hs'
  obtain ⟨hrank₀, htp₀, hranks₀⟩ := tallied_eq_verdicts hs
  have hscored : (EvalResult.tallied l S').scored = (EvalResult.tallied bsig S).scored :=
    hS'.length_eq
  have hrank1 : (EvalResult.tallied l S').rank1 = (EvalResult.tallied bsig S).rank1 := by
    rw [hrank, hrank₀, hv'.countP_eq]
  have htps : (EvalResult.tallied l S').tp = (EvalResult.tallied bsig S).tp := by
    rw [htp, htp₀, hv'.countP_eq]
  have habstained :
      (EvalResult.tallied l S').abstained = (EvalResult.tallied bsig S).abstained := by
    refine (hS'.countP_eq _).trans (List.countP_congr fun f _ ↦ ?_)
    rw [topSame_perm hl]
  have hcalls := EvalResult.tallied_calls l S'
  have hcalls₀ := EvalResult.tallied_calls bsig S
  have hmisses := EvalResult.tallied_misses l S'
  have hmisses₀ := EvalResult.tallied_misses bsig S
  exact
    { scored := hscored
      rank1 := hrank1
      rrSum := by rw [rrSum_tallied, rrSum_tallied, hsum]
      tp := htps
      fp := by omega
      fn_ := by omega
      abstained := habstained
      ranks := by
        rw [hranks, hranks₀, ← places_of_verdicts, ← places_of_verdicts]
        exact (hv'.map _).map _ }

/-! ### Breaking ties by name -/

/-- The functions listed by name. -/
def listedByName (bsig : List IndexedFunc) : List IndexedFunc :=
  sortBy (byKey (fun g ↦ g.name.getD "") compare) bsig

theorem twinPlace_listedByName (h : Ranked bsig) (hs : isScored bsig f = true) :
    twinPlace (listedByName bsig) f = namedPlace bsig f := by
  have hl : (listedByName bsig).Perm bsig := perm_sortBy _ _
  obtain ⟨pre, suf, hsplit⟩ := List.append_of_mem (hl.mem_iff.mpr (twinOf_spec hs).1)
  have hsorted : (listedByName bsig).Pairwise fun g g' ↦ g.name.getD "" ≤ g'.name.getD "" :=
    (pairwise_sortBy (byKey (fun g : IndexedFunc ↦ g.name.getD "") compare) bsig).imp fun hle ↦
      compare_le_iff_le.mp (Ordering.isLE_iff_ne_gt.mp hle)
  have hname : (twinOf bsig f).name.getD "" = f.name.getD "" := by rw [(twinOf_spec hs).2]
  rw [hsplit] at hsorted
  obtain ⟨-, hsuf, hpre⟩ := List.pairwise_append.mp hsorted
  have hnodup : (pre ++ twinOf bsig f :: suf).Nodup := hsplit ▸ hl.nodup_iff.mpr h.nodup
  have hbefore : ∀ g ∈ pre, g.name.getD "" < f.name.getD "" := by
    intro g hg
    have hle := hpre g hg _ List.mem_cons_self
    rw [hname] at hle
    refine lt_of_le_of_ne hle fun heq ↦ ?_
    have hgmem : g ∈ bsig := hl.mem_iff.mp (by rw [hsplit]; simp [hg])
    obtain ⟨n, hn⟩ := Option.isSome_iff_exists.mp (h.named g hgmem)
    obtain ⟨m, hm⟩ := Option.isSome_iff_exists.mp (h.named _ (twinOf_spec hs).1)
    rw [← hname, hn, hm, Option.getD_some, Option.getD_some] at heq
    have hgt := h.eq_of_name hgmem (twinOf_spec hs).1 (by rw [hn, hm, heq])
    exact (List.nodup_append.mp hnodup).2.2 g hg _ List.mem_cons_self hgt
  have hafter : ∀ g ∈ twinOf bsig f :: suf, ¬g.name.getD "" < f.name.getD "" := by
    intro g hg
    rw [← hname, not_lt]
    rcases List.mem_cons.mp hg with rfl | hg
    · exact le_refl _
    · exact (List.pairwise_cons.mp hsuf).1 g hg
  rw [h.twinPlace_eq hs hl pre suf hsplit, namedPlace, ← hl.countP_eq, hsplit, List.countP_append]
  have hzero : (twinOf bsig f :: suf).countP (fun h ↦ decide (Tied bsig f h) &&
      decide (h.name.getD "" < f.name.getD "")) = 0 := by
    rw [List.countP_eq_zero]
    intro g hg
    simp [hafter g hg]
  rw [hzero, Nat.add_zero]
  congr 1
  refine List.countP_congr fun g hg ↦ ?_
  simp [hbefore g hg]

/-! ### Ties forced to be harmless -/

theorem places_perm_of_invariant
    (hinv : ∀ l, l.Perm bsig → SameRanking (EvalResult.tallied l S) (EvalResult.tallied bsig S))
    {l' : List IndexedFunc} (hl : l.Perm bsig) (hl' : l'.Perm bsig) :
    (S.map (twinPlace l')).Perm (S.map (twinPlace l)) := by
  have hranks := (hinv l' hl').ranks.trans (hinv l hl).ranks.symm
  have hsucc : ∀ l, (EvalResult.tallied l S).ranks = (S.map (twinPlace l)).map (· + 1) := by
    intro l
    rw [List.map_map]
    rfl
  rw [hsucc, hsucc] at hranks
  exact (List.map_perm_map_iff (Nat.succ_injective)).mp hranks

section Forced

variable {pre suf : List IndexedFunc} {x y f' : IndexedFunc}

/-- A rank that moves is made up for by the one that moves the other way. -/
theorem exists_counterpart (h : Ranked bsig) (hs : ∀ f ∈ S, isScored bsig f = true)
    (hl : (pre ++ x :: y :: suf).Perm bsig) (hf : f ∈ S) (hx : twinOf bsig f = x)
    (htied : Tied bsig f y)
    (hplaces : (S.map (twinPlace (pre ++ y :: x :: suf))).Perm
      (S.map (twinPlace (pre ++ x :: y :: suf)))) :
    ∃ f' ∈ S, twinOf bsig f' = y ∧ Tied bsig f' x := by
  by_contra hnone
  have hswap : ∀ g ∈ S, twinPlace (pre ++ y :: x :: suf) g =
      twinPlace (pre ++ x :: y :: suf) g + if twinOf bsig g = x ∧ Tied bsig g y then 1 else 0 := by
    intro g hg
    have hswap := h.twinPlace_swap (hs g hg) hl
    rwa [if_neg fun hgy ↦ hnone ⟨g, hg, hgy⟩, Nat.add_zero] at hswap
  have hlt : (S.map (twinPlace (pre ++ x :: y :: suf))).sum <
      (S.map (twinPlace (pre ++ y :: x :: suf))).sum := by
    refine List.sum_lt_sum _ _ (fun g hg ↦ ?_) ⟨f, hf, ?_⟩
    · rw [hswap g hg]
      exact Nat.le_add_right _ _
    · rw [hswap f hf, if_pos ⟨hx, htied⟩]
      exact Nat.lt_succ_self _
  exact hlt.ne' hplaces.sum_eq

theorem exists_pair_front (h : Ranked bsig) (hs : ∀ f ∈ S, isScored bsig f = true) (hS : Ranked S)
    (hl : (pre ++ x :: y :: suf).Perm bsig) (hf : f ∈ S) (hf' : f' ∈ S) (hx : twinOf bsig f = x)
    (hy : twinOf bsig f' = y) : ∃ rest, S.Perm (f :: f' :: rest) ∧
      ∀ g ∈ rest, twinPlace (pre ++ y :: x :: suf) g = twinPlace (pre ++ x :: y :: suf) g := by
  have hne := h.ne_of_neighbours hl
  have hff : f ≠ f' := fun heq ↦ hne (hx.symm.trans (heq ▸ hy))
  obtain ⟨rest, hrest⟩ := exists_perm_cons_cons hf hf' hff
  refine ⟨rest, hrest, fun g hg ↦ ?_⟩
  have hnodup := hrest.nodup_iff.mp hS.nodup
  obtain ⟨hfnot, hnodup⟩ := List.nodup_cons.mp hnodup
  have hgS : g ∈ S := hrest.mem_iff.mpr (by simp [hg])
  have hgf : g ≠ f := fun heq ↦ hfnot (heq ▸ List.mem_cons_of_mem f' hg)
  have hgf' : g ≠ f' := fun heq ↦ (List.nodup_cons.mp hnodup).1 (heq ▸ hg)
  exact h.twinPlace_swap_other (hs g hgS) hl
    (fun hgx ↦ hgf (hS.eq_of_twinOf hs hgS hf (hgx.1.trans hx.symm)))
    fun hgy ↦ hgf' (hS.eq_of_twinOf hs hgS hf' (hgy.1.trans hy.symm))

/-- The two ranks are neighbours wherever the twins are. -/
theorem place_of_counterpart (h : Ranked bsig) (hs : ∀ f ∈ S, isScored bsig f = true)
    (hS : Ranked S) (hl : (pre ++ x :: y :: suf).Perm bsig) (hf : f ∈ S) (hf' : f' ∈ S)
    (hx : twinOf bsig f = x) (hy : twinOf bsig f' = y) (hfy : Tied bsig f y) (hfx : Tied bsig f' x)
    (hplaces : (S.map (twinPlace (pre ++ y :: x :: suf))).Perm
      (S.map (twinPlace (pre ++ x :: y :: suf)))) :
    twinPlace (pre ++ x :: y :: suf) f' = twinPlace (pre ++ x :: y :: suf) f + 1 := by
  obtain ⟨rest, hrest, hfixed⟩ := exists_pair_front h hs hS hl hf hf' hx hy
  have hswap := h.twinPlace_swap_front (hs f hf) hl hx hfy
  have hswap' := h.twinPlace_swap_back (hs f' hf') hl hy hfx
  have hfront := ((hrest.map _).symm.trans hplaces).trans (hrest.map _)
  simp only [List.map_cons, List.map_congr_left hfixed] at hfront
  have hpair := (@List.perm_append_right_iff ℕ [_, _] [_, _] _).mp hfront
  have hmem := hpair.mem_iff.mpr (List.mem_cons_self : twinPlace (pre ++ x :: y :: suf) f ∈ _)
  simp only [List.mem_cons, List.not_mem_nil, or_false] at hmem
  omega

theorem tp_of_pair (h : Ranked bsig) (hs : ∀ f ∈ S, isScored bsig f = true) (hl : l.Perm bsig)
    (hf : f ∈ S) (hf' : f' ∈ S) {rest : List IndexedFunc} (hrest : S.Perm (f :: f' :: rest)) :
    (EvalResult.tallied l S).tp =
      ((rest.map (verdict l)).countP fun v ↦ v.2) +
        (if twinPlace l f' = 0 ∧ sameThresh ≤ twinSim bsig f' then 1 else 0) +
          if twinPlace l f = 0 ∧ sameThresh ≤ twinSim bsig f then 1 else 0 := by
  have hsl : ∀ f ∈ S, isScored l f = true := fun f hf ↦ (isScored_perm hl f).trans (hs f hf)
  rw [(tallied_eq_verdicts hsl).2.1, (hrest.map _).countP_eq, List.map_cons, List.map_cons,
    List.countP_cons, List.countP_cons, h.verdict_eq (hs f hf) hl, h.verdict_eq (hs f' hf') hl]
  simp only [decide_eq_true_eq]

section Invariant

variable (h : Ranked bsig) (hs : ∀ f ∈ S, isScored bsig f = true) (hS : Ranked S)
  (hinv : ∀ l, l.Perm bsig → SameRanking (EvalResult.tallied l S) (EvalResult.tallied bsig S))
  (hf : f ∈ S) (hf' : f' ∈ S) (hfx : twinOf bsig f = x) (hfy' : twinOf bsig f' = y)
  (hfy : Tied bsig f y) (hfx' : Tied bsig f' x)

include h hs hS hinv hf hf' hfx hfy' hfy hfx'

/-- Whatever is listed before the two twins, as much of it ranks before the one
as before the other. -/
theorem place_balance (hl : (pre ++ x :: y :: suf).Perm bsig) :
    above bsig f' + (pre.countP fun g ↦ Tied bsig f' g) =
      above bsig f + pre.countP fun g ↦ Tied bsig f g := by
  have hnext := place_of_counterpart h hs hS hl hf hf' hfx hfy' hfy hfx'
    (places_perm_of_invariant hinv hl ((swap_neighbours pre suf x y).trans hl))
  rw [h.twinPlace_eq (hs f hf) hl pre (y :: suf) (by rw [hfx]),
    h.twinPlace_eq (hs f' hf') hl (pre ++ [x]) suf (by rw [hfy']; simp), List.countP_append,
    List.countP_singleton, if_pos (decide_eq_true hfx')] at hnext
  omega

/-- With the twins in front, one of the two is called in the one order and the
other in the other. -/
theorem same_of_invariant (hl : ([] ++ x :: y :: suf).Perm bsig) (hzero : above bsig f = 0)
    (hzero' : above bsig f' = 0) :
    sameThresh ≤ twinSim bsig f' ↔ sameThresh ≤ twinSim bsig f := by
  have hl' := (swap_neighbours [] suf x y).trans hl
  obtain ⟨others, hothers, hfixed⟩ := exists_pair_front h hs hS hl hf hf' hfx hfy'
  have htp := (hinv _ hl').tp.trans (hinv _ hl).tp.symm
  have hverdicts : others.map (verdict ([] ++ y :: x :: suf)) =
      others.map (verdict ([] ++ x :: y :: suf)) := by
    refine List.map_congr_left fun g hg ↦ ?_
    have hgS : g ∈ S := hothers.mem_iff.mpr (by simp [hg])
    rw [h.verdict_eq (hs g hgS) hl', h.verdict_eq (hs g hgS) hl, hfixed g hg]
  have hplace : twinPlace ([] ++ x :: y :: suf) f = 0 := by
    rw [h.twinPlace_eq (hs f hf) hl [] (y :: suf) (by rw [hfx]), hzero]
    rfl
  have hplace' : twinPlace ([] ++ y :: x :: suf) f' = 0 := by
    rw [h.twinPlace_eq (hs f' hf') hl' [] (x :: suf) (by rw [hfy']), hzero']
    rfl
  rw [tp_of_pair h hs hl' hf hf' hothers, tp_of_pair h hs hl hf hf' hothers, hverdicts,
    h.twinPlace_swap_front (hs f hf) hl hfx hfy, h.twinPlace_swap_back (hs f' hf') hl hfy' hfx',
    hplace, hplace'] at htp
  simp only [Nat.zero_add, one_ne_zero, false_and, if_false, true_and, Nat.add_zero] at htp
  by_cases hcall : sameThresh ≤ twinSim bsig f
  · by_cases hcall' : sameThresh ≤ twinSim bsig f'
    · exact iff_of_true hcall' hcall
    · rw [if_pos hcall, if_neg hcall'] at htp
      omega
  · by_cases hcall' : sameThresh ≤ twinSim bsig f'
    · rw [if_neg hcall, if_pos hcall'] at htp
      omega
    · exact iff_of_false hcall' hcall

/-- Where no order changes the ranking, two functions that tie with each
other's twins are alike. -/
theorem alike_of_invariant (hx : x ∈ bsig) (hy : y ∈ bsig) (hne : x ≠ y) :
    Alike bsig f f' := by
  obtain ⟨rest, hrest⟩ := exists_perm_cons_cons hx hy hne
  have hl : ([] ++ x :: y :: rest).Perm bsig := hrest.symm
  have habove : above bsig f' = above bsig f :=
    place_balance h hs hS hinv hf hf' hfx hfy' hfy hfx' hl
  refine ⟨fun g hg ↦ ?_, habove, fun hzero ↦
    same_of_invariant h hs hS hinv hf hf' hfx hfy' hfy hfx' hl hzero (habove.trans hzero)⟩
  by_cases hgx : g = x
  · subst hgx
    exact iff_of_true hfx' (by rw [Tied, twinSim, hfx])
  · by_cases hgy : g = y
    · subst hgy
      exact iff_of_true (by rw [Tied, twinSim, hfy']) hfy
    · -- put `g` in front of the two: both ranks must count it or neither
      have hgrest : g ∈ rest := by simpa [hgx, hgy] using hrest.mem_iff.mp hg
      obtain ⟨u, v, rfl⟩ := List.append_of_mem hgrest
      have hfront : ([g] ++ x :: y :: (u ++ v)).Perm bsig := by
        refine List.Perm.trans ?_ hl
        exact (List.perm_middle.symm : (g :: ([x, y] ++ (u ++ v))).Perm _).trans
          ((List.perm_middle.symm).append_left [x, y])
      have hcount := place_balance h hs hS hinv hf hf' hfx hfy' hfy hfx' hfront
      rw [habove, Nat.add_left_cancel_iff, List.countP_singleton, List.countP_singleton] at hcount
      simp only [decide_eq_true_eq] at hcount
      by_cases htied : Tied bsig f g
      · by_contra hnot
        rw [if_pos htied, if_neg fun htied' ↦ hnot (iff_of_true htied' htied)] at hcount
        omega
      · by_contra hnot
        rw [if_neg htied,
          if_pos (by_contra fun htied' ↦ hnot (iff_of_false htied' htied))] at hcount
        omega

end Invariant

theorem tiesHarmless_of_invariant (h : Ranked bsig) (hs : ∀ f ∈ S, isScored bsig f = true)
    (hS : Ranked S)
    (hinv : ∀ l, l.Perm bsig → SameRanking (EvalResult.tallied l S) (EvalResult.tallied bsig S)) :
    TiesHarmless S bsig := by
  intro f hf g hg hname htied
  obtain ⟨hmem, htwin⟩ := twinOf_spec (hs f hf)
  have hne : twinOf bsig f ≠ g := fun heq ↦ hname (heq ▸ htwin)
  obtain ⟨rest, hrest⟩ := exists_perm_cons_cons hmem hg hne
  have hl : ([] ++ twinOf bsig f :: g :: rest).Perm bsig := hrest.symm
  obtain ⟨f', hf', hfy', hfx'⟩ := exists_counterpart h hs hl hf rfl htied
    (places_perm_of_invariant hinv hl ((swap_neighbours [] rest _ g).trans hl))
  refine ⟨f', hf', ?_, alike_of_invariant h hs hS hinv hf hf' rfl hfy' htied hfx' hmem hg hne⟩
  rw [← (twinOf_spec (hs f' hf')).2, hfy']

end Forced

theorem sameRanking_iff (hS : Ranked S) (h : Ranked bsig) (hs : ∀ f ∈ S, isScored bsig f = true) :
    (∀ l S', l.Perm bsig → S'.Perm S →
        SameRanking (EvalResult.tallied l S') (EvalResult.tallied bsig S)) ↔
      TiesHarmless S bsig ∧ SumsAlike S bsig := by
  have hlisted : (listedByName bsig).Perm bsig := perm_sortBy _ _
  have hnamed : S.map (twinPlace (listedByName bsig)) = S.map (namedPlace bsig) :=
    List.map_congr_left fun f hf ↦ twinPlace_listedByName h (hs f hf)
  constructor
  · intro hinv
    refine ⟨tiesHarmless_of_invariant h hs hS fun l hl ↦ hinv l S hl (List.Perm.refl S), ?_⟩
    intro places hplaces
    rw [← hnamed] at hplaces ⊢
    obtain ⟨S', hS', rfl⟩ := exists_perm_of_perm_map hplaces
    have hsum := (hinv _ S' hlisted hS').rrSum.trans
      (hinv _ S hlisted (List.Perm.refl S)).rrSum.symm
    rwa [rrSum_tallied, rrSum_tallied] at hsum
  · rintro ⟨hties, hsums⟩ l S' hl hS'
    have hv := verdicts_perm hS h hs hties hl
    have hplaces : (S.map (twinPlace bsig)).Perm (S.map (namedPlace bsig)) := by
      rw [← hnamed, ← places_of_verdicts, ← places_of_verdicts]
      exact ((verdicts_perm hS h hs hties hlisted).map Prod.fst).symm
    have hplaces' : (S'.map (twinPlace l)).Perm (S.map (namedPlace bsig)) := by
      refine (hS'.map _).trans (List.Perm.trans ?_ hplaces)
      rw [← places_of_verdicts, ← places_of_verdicts]
      exact hv.map Prod.fst
    exact sameRanking_of_verdicts hs hl hS' hv ((hsums _ hplaces').trans (hsums _ hplaces).symm)

end Verdicts

/-! ## Evaluations -/

theorem sameRanking_ranking_iff {r s : EvalResult} :
    SameRanking r.ranking s.ranking ↔ SameRanking r s :=
  ⟨fun h ↦ ⟨h.scored, h.rank1, h.rrSum, h.tp, h.fp, h.fn_, h.abstained, h.ranks⟩,
    fun h ↦ ⟨h.scored, h.rank1, h.rrSum, h.tp, h.fp, h.fn_, h.abstained, h.ranks⟩⟩

theorem scoredFuncs_perm_right {a b b' : List IndexedFunc} (hb : b'.Perm b) :
    scoredFuncs a b' = scoredFuncs a b :=
  List.filter_congr fun f _ ↦ isScored_perm (hb.filter _) f

theorem ranked_scoredFuncs {a : List IndexedFunc} (ha : DistinctNames a) (b : List IndexedFunc) :
    Ranked (scoredFuncs a b) where
  named f hf := by
    obtain ⟨-, n, hn, -⟩ := isScored_iff.mp (List.mem_filter.mp hf).2
    rw [hn]
    rfl
  distinct := ha.sublist (List.filter_sublist.filterMap _)

/-- The counts of an evaluation do not depend on the order of the indexes
exactly when every tie with a twin is harmless and the reciprocals of the ranks
add up to one number in every order. -/
theorem eval_order_independent_iff {a b : List IndexedFunc} (ha : DistinctNames a)
    (hb : DistinctNames b) (graphWeight : Float) :
    (∀ a' b', a'.Perm a → b'.Perm b →
        SameRanking (eval a' b' graphWeight) (eval a b graphWeight)) ↔
      TiesHarmless (scoredFuncs a b) (signalNamed b) ∧
        SumsAlike (scoredFuncs a b) (signalNamed b) := by
  have hs : ∀ f ∈ scoredFuncs a b, isScored (signalNamed b) f = true := fun f hf ↦
    (List.mem_filter.mp hf).2
  rw [← sameRanking_iff (ranked_scoredFuncs ha b) (ranked_signalNamed hb) hs]
  have hranking : ∀ a' b', SameRanking (eval a' b' graphWeight) (eval a b graphWeight) ↔
      SameRanking (EvalResult.tallied (signalNamed b') (scoredFuncs a' b'))
        (EvalResult.tallied (signalNamed b) (scoredFuncs a b)) := fun a' b' ↦ by
    rw [← ranking_eval a' b' graphWeight, ← ranking_eval a b graphWeight, sameRanking_ranking_iff]
  simp only [hranking]
  constructor
  · intro hinv l S' hl hS'
    obtain ⟨b', hb', rfl⟩ := exists_perm_filter hl
    obtain ⟨a', ha', rfl⟩ := exists_perm_filter hS'
    have hsame := hinv a' b' ha' hb'
    rwa [scoredFuncs_perm_right hb'] at hsame
  · intro hinv a' b' ha' hb'
    rw [scoredFuncs_perm_right hb']
    exact hinv _ _ (hb'.filter _) (ha'.filter _)

/-- Two functions of one behaviour on both sides: each ties with the twin of the
other, and the ranks are one and two in every order. -/
theorem eval_order_independent_iff_twins :
    scoredFuncs shadowedTwin shadowedTwin = shadowedTwin ∧
      ∀ a' b', a'.Perm shadowedTwin → b'.Perm shadowedTwin →
        SameRanking (eval a' b' 1.0) (eval shadowedTwin shadowedTwin 1.0) := by
  have hscored : scoredFuncs shadowedTwin shadowedTwin = shadowedTwin := by decide +kernel
  have hranks : ∀ f ∈ shadowedTwin, ∃ j ≤ 1,
      namedPlace (signalNamed shadowedTwin) f + 1 = 2 ^ j := by decide +kernel
  have hsums : SumsAlike (scoredFuncs shadowedTwin shadowedTwin) (signalNamed shadowedTwin) := by
    rw [hscored]
    exact sumsAlike_of_powers (k := 1) (by decide) hranks (by decide)
  refine ⟨hscored, ?_⟩
  exact (eval_order_independent_iff (by decide) (by decide) 1.0).mpr ⟨by decide +kernel, hsums⟩

/-- Two functions of one behaviour: which of them is found depends on which is
listed first. -/
theorem tie_decided_by_order :
    DistinctNames shadowedTwin ∧ (shadowedTwin.map IndexedFunc.entry).Nodup ∧
      shadowedTwin.reverse.Perm shadowedTwin ∧
      ¬SameRanking
        (eval [⟨some "memmove", 0x20, .symtab, constPrint 7, 1.0, []⟩] shadowedTwin.reverse 1.0)
        (eval [⟨some "memmove", 0x20, .symtab, constPrint 7, 1.0, []⟩] shadowedTwin 1.0) := by
  refine ⟨by decide, by decide, List.reverse_perm _, fun h ↦ ?_⟩
  have hrank := h.rank1
  revert hrank
  decide +kernel

end Fnprint
