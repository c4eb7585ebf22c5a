import Fnprint.Lib.Runs
import Fnprint.Recorder

/-!
# Mapping pages

Before a run the emulator maps whole pages over every region it needs.  The
engine is left open: of its calls only what a successful one maps is known.
-/

namespace Fnprint

open Checked

/-! ## Page addresses -/

theorem toNat_pageOf (a : UInt64) : (pageOf a).toNat = a.toNat / 4096 * 4096 := by
  have hmask : (~~~(pageSize - 1)).toNat = (2 ^ 52 - 1) <<< 12 := by decide
  have hround : a.toNat / 4096 * 4096 = a.toNat >>> 12 <<< 12 := by
    rw [Nat.shiftLeft_eq, Nat.shiftRight_eq_div_pow]
  rw [pageOf, UInt64.toNat_and, hmask, hround]
  refine Nat.eq_of_testBit_eq fun i ↦ ?_
  rw [Nat.testBit_and, Nat.testBit_shiftLeft, Nat.testBit_shiftLeft, Nat.testBit_shiftRight,
    Nat.testBit_two_pow_sub_one]
  by_cases hlow : 12 ≤ i
  · by_cases hhigh : i - 12 < 52
    · simp [hlow, hhigh]
    · have hpow : 2 ^ 64 ≤ 2 ^ i := Nat.pow_le_pow_right (by decide) (by omega)
      have hzero : a.toNat.testBit i = false :=
        Nat.testBit_lt_two_pow (lt_of_lt_of_le a.toNat_lt hpow)
      simp [hlow, hzero]
  · simp [hlow]

/-- The address of a page. -/
def PageAligned (q : UInt64) : Prop := pageOf q = q

theorem pageAligned_iff {q : UInt64} : PageAligned q ↔ q.toNat % 4096 = 0 := by
  unfold PageAligned
  rw [← UInt64.toNat_inj, toNat_pageOf]
  omega

theorem pageAligned_pageOf (a : UInt64) : PageAligned (pageOf a) := by
  rw [pageAligned_iff, toNat_pageOf]
  omega

instance (q : UInt64) : Decidable (PageAligned q) := inferInstanceAs (Decidable (_ = _))

/-- The pages a call maps when it succeeds. -/
def requested (addr size : UInt64) : Set UInt64 :=
  {q | PageAligned q ∧ addr.toNat ≤ q.toNat ∧ q.toNat < addr.toNat + size.toNat}

/-- Consecutive pages from one address on. -/
def pagesFrom (p : UInt64) : ℕ → List UInt64
  | 0 => []
  | n + 1 => p :: pagesFrom (p + pageSize) n

/-- Consecutive page addresses below the last page. -/
structure Span (ps : List UInt64) : Prop where
  aligned : ∀ q ∈ ps, PageAligned q
  below : ∀ q ∈ ps, q.toNat + 4096 < 2 ^ 64
  chain : ps.IsChain fun p q ↦ q.toNat = p.toNat + 4096

theorem Span.part {l l' : List UInt64} (h : Span l) (hpart : l' <:+: l) : Span l' :=
  ⟨fun q hq ↦ h.aligned q (hpart.subset hq), fun q hq ↦ h.below q (hpart.subset hq),
    List.IsChain.infix h.chain hpart⟩

theorem Span.tail {p : UInt64} {l : List UInt64} (h : Span (p :: l)) : Span l :=
  h.part (List.suffix_cons p l).isInfix

/-- A span holds the pages from its first address to its length in pages. -/
theorem Span.mem_cons_iff {p q : UInt64} {l : List UInt64} (h : Span (p :: l)) :
    q ∈ p :: l ↔ PageAligned q ∧ p.toNat ≤ q.toNat ∧
      q.toNat < p.toNat + (l.length + 1) * 4096 := by
  have hp := pageAligned_iff.mp (h.aligned p List.mem_cons_self)
  induction l generalizing p with
  | nil =>
      rw [List.mem_singleton]
      constructor
      · rintro rfl
        exact ⟨pageAligned_iff.mpr hp, le_rfl, by simp⟩
      · rintro ⟨hq, hlow, hhigh⟩
        rw [pageAligned_iff] at hq
        rw [List.length_nil] at hhigh
        exact UInt64.toNat_inj.mp (by omega)
  | cons r l ih =>
      obtain ⟨hr, -⟩ := List.isChain_cons_cons.mp h.chain
      have hral := pageAligned_iff.mp (h.aligned r (by simp))
      have hrest : q ∈ r :: l ↔ PageAligned q ∧ r.toNat ≤ q.toNat ∧
          q.toNat < r.toNat + (l.length + 1) * 4096 := ih h.tail hral
      rw [List.mem_cons, hrest, List.length_cons]
      constructor
      · rintro (rfl | ⟨hq, hlow, hhigh⟩)
        · exact ⟨pageAligned_iff.mpr hp, le_rfl, by omega⟩
        · exact ⟨hq, by omega, by omega⟩
      · rintro ⟨hq, hlow, hhigh⟩
        have hmod := pageAligned_iff.mp hq
        by_cases heq : q.toNat = p.toNat
        · exact Or.inl (UInt64.toNat_inj.mp heq)
        · exact Or.inr ⟨hq, by omega, by omega⟩

theorem Span.length_lt {p : UInt64} {l : List UInt64} (h : Span (p :: l)) :
    p.toNat + (l.length + 1) * 4096 < 2 ^ 64 := by
  induction l generalizing p with
  | nil => simpa using h.below p List.mem_cons_self
  | cons r l ih =>
      obtain ⟨hr, -⟩ := List.isChain_cons_cons.mp h.chain
      have hrest := ih h.tail
      rw [List.length_cons]
      omega

theorem Span.nodup {l : List UInt64} (h : Span l) : l.Nodup := by
  induction l with
  | nil => exact List.nodup_nil
  | cons p l ih =>
      refine List.nodup_cons.mpr ⟨fun hp ↦ ?_, ih h.tail⟩
      cases l with
      | nil => cases hp
      | cons r l =>
          obtain ⟨hr, -⟩ := List.isChain_cons_cons.mp h.chain
          have hlow := (h.tail.mem_cons_iff.mp hp).2.1
          omega

theorem toNat_mul_pageSize {n : ℕ} (h : n * 4096 < 2 ^ 64) :
    (UInt64.ofNat n * pageSize).toNat = n * 4096 := by
  rw [UInt64.toNat_mul, toNat_ofNat64 (by omega)]
  exact Nat.mod_eq_of_lt h

theorem Span.requested_eq {p : UInt64} {l : List UInt64} (h : Span (p :: l)) :
    requested p (UInt64.ofNat (p :: l).length * pageSize) = {q | q ∈ p :: l} := by
  have hfit := h.length_lt
  ext q
  rw [Set.mem_ofPred_eq, h.mem_cons_iff, requested, Set.mem_ofPred_eq,
    toNat_mul_pageSize (by rw [List.length_cons]; omega), List.length_cons]

theorem span_pagesFrom {p : UInt64} (hp : PageAligned p) {n : ℕ}
    (hfit : p.toNat + n * 4096 < 2 ^ 64) : Span (pagesFrom p n) := by
  induction n generalizing p with
  | zero => exact ⟨by simp [pagesFrom], by simp [pagesFrom], List.isChain_nil⟩
  | succ n ih =>
      have hnext : (p + pageSize).toNat = p.toNat + 4096 := by
        rw [UInt64.toNat_add]
        exact Nat.mod_eq_of_lt (by change p.toNat + 4096 < _; omega)
      have hal : PageAligned (p + pageSize) := by
        rw [pageAligned_iff] at hp ⊢
        omega
      have hrest := ih hal (by omega)
      rw [pagesFrom]
      refine ⟨?_, ?_, ?_⟩
      · exact List.forall_mem_cons.mpr ⟨hp, hrest.aligned⟩
      · exact List.forall_mem_cons.mpr ⟨by omega, hrest.below⟩
      · cases n with
        | zero => exact List.isChain_singleton _
        | succ n =>
            rw [pagesFrom] at hrest ⊢
            exact List.isChain_cons_cons.mpr ⟨hnext, hrest.chain⟩

theorem length_pagesFrom (p : UInt64) (n : ℕ) : (pagesFrom p n).length = n := by
  induction n generalizing p with
  | zero => rfl
  | succ n ih => rw [pagesFrom, List.length_cons, ih]

theorem mem_pagesFrom {p q : UInt64} (hp : PageAligned p) {n : ℕ}
    (hfit : p.toNat + n * 4096 < 2 ^ 64) :
    q ∈ pagesFrom p n ↔ PageAligned q ∧ p.toNat ≤ q.toNat ∧ q.toNat < p.toNat + n * 4096 := by
  cases n with
  | zero =>
      simp only [pagesFrom, List.not_mem_nil, false_iff]
      omega
  | succ n =>
      have hspan := span_pagesFrom hp hfit
      rw [pagesFrom] at hspan ⊢
      rw [hspan.mem_cons_iff, length_pagesFrom]

/-! ## The engine -/

inductive UcError where
  | nomem
  | other (code : ℕ)
  deriving DecidableEq

/-- The foreign engine: the pages it has mapped, and a call that maps the
pages of a range or changes nothing. -/
structure Engine where
  State : Type
  pages : State → Set UInt64
  memMap : State → UInt64 → UInt64 → Except UcError State
  pages_memMap : ∀ {s s' : State} {addr size : UInt64}, memMap s addr size = .ok s' →
    pages s' = pages s ∪ requested addr size

/-- A call succeeds exactly when none of its pages is mapped. -/
def Engine.Exact (e : Engine) : Prop :=
  ∀ s addr size, PageAligned addr → PageAligned size → 0 < size →
    addr.toNat + size.toNat < 2 ^ 64 →
    ((∃ s', e.memMap s addr size = .ok s') ↔ Disjoint (e.pages s) (requested addr size))

/-- An engine and the mirror kept of it during setup; the successful calls are
recorded. -/
structure Setup (e : Engine) where
  engine : e.State
  mapped : Finset UInt64
  calls : List (UInt64 × UInt64)

def Setup.Mirrors {e : Engine} (st : Setup e) : Prop := e.pages st.engine = st.mapped

/-- A page absent from the mirror is free. -/
def Setup.free {e : Engine} (st : Setup e) (q : UInt64) : Bool := q ∉ st.mapped

/-- The pages of one successful call enter the mirror. -/
def Setup.push {e : Engine} (st : Setup e) (engine : e.State) (call : UInt64 × UInt64)
    (ps : List UInt64) : Setup e :=
  { engine := engine, mapped := st.mapped ∪ ps.toFinset, calls := st.calls ++ [call] }

/-! ## `ensure_pages` -/

def maxSetupRuns : ℕ := 64

/-- The pages still unmapped, one call for each maximal run of them. -/
def coalesce (e : Engine) (ps : List UInt64) (st : Setup e) (runs : ℕ) :
    Except UcError (Setup e × ℕ) :=
  match ps with
  | [] => .ok (st, runs)
  | p :: ps =>
      if p ∈ st.mapped then coalesce e ps st runs
      else
        let run := p :: ps.takeWhile st.free
        let runs := runs + 1
        if maxSetupRuns < runs then .error .nomem
        else
          let size := UInt64.ofNat run.length * pageSize
          match e.memMap st.engine p size with
          | .error err => .error err
          | .ok engine =>
              coalesce e (ps.dropWhile st.free) (st.push engine (p, size) run) runs
  termination_by ps.length
  decreasing_by
    · simp
    · exact Nat.lt_succ_of_le (List.dropWhile_suffix _).length_le

/-- The first page of a region, and the end of the last, rounded up as far as
the additions go. -/
def firstPage (start : UInt64) : UInt64 := pageOf start

def lastPage (start len : UInt64) : UInt64 :=
  pageOf (satAdd64 (satAdd64 start len) (pageSize - 1))

/-- Map every page of a region, in one call when nothing is in the way.  The
result carries the number of runs the fallback took. -/
def ensurePages (e : Engine) (st : Setup e) (start len : UInt64) :
    Except UcError (Setup e × ℕ) :=
  let first := firstPage start
  let last := lastPage start len
  if last ≤ first then .ok (st, 0)
  else
    let span := last - first
    let ps := pagesFrom first (span / pageSize).toNat
    match e.memMap st.engine first span with
    | .ok engine => .ok (st.push engine (first, span) ps, 0)
    | .error _ => coalesce e ps st 0

/-! ## What a successful call leaves -/

@[simp] theorem Setup.mapped_push {e : Engine} (st : Setup e) (engine : e.State)
    (call : UInt64 × UInt64) (ps : List UInt64) :
    (st.push engine call ps).mapped = st.mapped ∪ ps.toFinset := rfl

/-- A call over a span keeps the mirror. -/
theorem Setup.Mirrors.push {e : Engine} {st : Setup e} {engine : e.State} {addr size : UInt64}
    {ps : List UInt64} (h : st.Mirrors) (hps : requested addr size = {q | q ∈ ps})
    (hmap : e.memMap st.engine addr size = .ok engine) :
    (st.push engine (addr, size) ps).Mirrors := by
  have hpages := e.pages_memMap hmap
  have hst : e.pages st.engine = st.mapped := h
  change e.pages engine = (st.mapped ∪ ps.toFinset : Finset UInt64)
  rw [hpages, hst, hps, Finset.coe_union, List.coe_toFinset]

/-- The run at the head of a span, and what is left of it. -/
theorem Span.run {p : UInt64} {ps : List UInt64} (h : Span (p :: ps)) (f : UInt64 → Bool) :
    Span (p :: ps.takeWhile f) ∧ Span (ps.dropWhile f) := by
  refine ⟨h.part (List.IsPrefix.isInfix ?_), h.tail.part (List.dropWhile_suffix f).isInfix⟩
  exact (List.prefix_cons_inj p).mpr (List.takeWhile_prefix f)

theorem run_union_rest (m : Finset UInt64) (p : UInt64) (ps : List UInt64) (f : UInt64 → Bool) :
    m ∪ (p :: ps.takeWhile f).toFinset ∪ (ps.dropWhile f).toFinset =
      m ∪ (p :: ps).toFinset := by
  ext q
  have hsplit : q ∈ ps ↔ q ∈ ps.takeWhile f ∨ q ∈ ps.dropWhile f := by
    rw [← List.mem_append, List.takeWhile_append_dropWhile]
  simp only [Finset.mem_union, List.mem_toFinset, List.mem_cons, hsplit]
  tauto

theorem coalesce_ok {e : Engine} {ps : List UInt64} {st st' : Setup e} {runs runs' : ℕ}
    (h : coalesce e ps st runs = .ok (st', runs')) (hps : Span ps) :
    st'.mapped = st.mapped ∪ ps.toFinset ∧ (st.Mirrors → st'.Mirrors) := by
  fun_induction coalesce e ps st runs with
  | case1 st runs =>
      obtain ⟨rfl, -⟩ := Prod.mk.inj (Except.ok.inj h)
      exact ⟨by simp, id⟩
  | case2 st runs p ps hp ih =>
      obtain ⟨hmapped, hmirror⟩ := ih h hps.tail
      refine ⟨?_, hmirror⟩
      rw [hmapped, List.toFinset_cons, Finset.union_insert, ← Finset.insert_union,
        Finset.insert_eq_of_mem hp]
  | case3 => cases h
  | case4 => cases h
  | case5 st runs p ps hp run runs₁ hcap size engine hmap ih =>
      obtain ⟨hrun, hrest⟩ := hps.run st.free
      obtain ⟨hmapped, hmirror⟩ := ih h hrest
      refine ⟨?_, fun hst ↦ hmirror (hst.push hrun.requested_eq hmap)⟩
      rw [hmapped, Setup.mapped_push]
      exact run_union_rest _ _ _ _

/-! ## The pages of a region -/

theorem toNat_lastPage (start len : UInt64) : (lastPage start len).toNat =
    min (start.toNat + len.toNat + 4095) (2 ^ 64 - 1) / 4096 * 4096 := by
  have hsat : ∀ x y : UInt64, (satAdd64 x y).toNat = min (x.toNat + y.toNat) (2 ^ 64 - 1) :=
    fun x y ↦ toNat_ofNat64 (by omega)
  have hpage : (pageSize - 1).toNat = 4095 := rfl
  rw [lastPage, toNat_pageOf, hsat, hsat, hpage]
  have hmin : min (min (start.toNat + len.toNat) (2 ^ 64 - 1) + 4095) (2 ^ 64 - 1) =
      min (start.toNat + len.toNat + 4095) (2 ^ 64 - 1) := by omega
  rw [hmin]

theorem toNat_lastPage_le (start len : UInt64) : (lastPage start len).toNat ≤ 2 ^ 64 - 4096 := by
  rw [toNat_lastPage]
  omega

/-- The pages the code maps for a region. -/
def regionPages (start len : UInt64) : List UInt64 :=
  if lastPage start len ≤ firstPage start then []
  else pagesFrom (firstPage start) ((lastPage start len - firstPage start) / pageSize).toNat

section Region

variable {start len : UInt64}

theorem pageAligned_firstPage : PageAligned (firstPage start) := pageAligned_pageOf start

theorem pageAligned_lastPage : PageAligned (lastPage start len) := pageAligned_pageOf _

theorem toNat_span (h : ¬lastPage start len ≤ firstPage start) :
    (firstPage start).toNat < (lastPage start len).toNat ∧
    (lastPage start len - firstPage start).toNat =
      (lastPage start len).toNat - (firstPage start).toNat ∧
    ((lastPage start len - firstPage start) / pageSize).toNat * 4096 =
      (lastPage start len).toNat - (firstPage start).toNat := by
  have hfirst := pageAligned_iff.mp (@pageAligned_firstPage start)
  have hlast := pageAligned_iff.mp (@pageAligned_lastPage start len)
  have hpage : pageSize.toNat = 4096 := rfl
  rw [UInt64.le_iff_toNat_le] at h
  have hsub := UInt64.toNat_sub_of_le _ _ (UInt64.le_iff_toNat_le.mpr (not_le.mp h).le)
  refine ⟨not_le.mp h, hsub, ?_⟩
  rw [UInt64.toNat_div, hsub, hpage]
  omega

theorem regionPages_eq (h : ¬lastPage start len ≤ firstPage start) : regionPages start len =
    pagesFrom (firstPage start) ((lastPage start len - firstPage start) / pageSize).toNat :=
  if_neg h

theorem span_regionPages : Span (regionPages start len) := by
  by_cases h : lastPage start len ≤ firstPage start
  · rw [regionPages, if_pos h]
    exact ⟨by simp, by simp, List.isChain_nil⟩
  · obtain ⟨hlt, -, hspan⟩ := toNat_span h
    have htop := toNat_lastPage_le start len
    rw [regionPages_eq h]
    exact span_pagesFrom pageAligned_firstPage (by omega)

theorem mem_regionPages {q : UInt64} :
    q ∈ regionPages start len ↔ PageAligned q ∧ (firstPage start).toNat ≤ q.toNat ∧
      q.toNat < (lastPage start len).toNat := by
  by_cases h : lastPage start len ≤ firstPage start
  · rw [regionPages, if_pos h]
    rw [UInt64.le_iff_toNat_le] at h
    simp only [List.not_mem_nil, false_iff]
    omega
  · obtain ⟨hlt, -, hspan⟩ := toNat_span h
    have htop := toNat_lastPage_le start len
    rw [regionPages_eq h, mem_pagesFrom pageAligned_firstPage (by omega), hspan,
      Nat.add_sub_cancel' hlt.le]

theorem requested_region (h : ¬lastPage start len ≤ firstPage start) :
    requested (firstPage start) (lastPage start len - firstPage start) =
      {q | q ∈ regionPages start len} := by
  obtain ⟨hlt, hsub, -⟩ := toNat_span h
  ext q
  rw [Set.mem_ofPred_eq, mem_regionPages, requested, Set.mem_ofPred_eq, hsub,
    Nat.add_sub_cancel' hlt.le]

end Region

/-- What a successful call adds, and that it keeps the mirror. -/
theorem ensurePages_ok {e : Engine} {st st' : Setup e} {start len : UInt64} {runs : ℕ}
    (h : ensurePages e st start len = .ok (st', runs)) :
    st'.mapped = st.mapped ∪ (regionPages start len).toFinset ∧ (st.Mirrors → st'.Mirrors) := by
  unfold ensurePages at h
  dsimp only at h
  split at h
  · rename_i hempty
    obtain ⟨rfl, -⟩ := Prod.mk.inj (Except.ok.inj h)
    exact ⟨by simp [regionPages, hempty], id⟩
  · rename_i hspan
    rw [← regionPages_eq hspan] at h
    split at h
    · rename_i engine hmap
      obtain ⟨rfl, -⟩ := Prod.mk.inj (Except.ok.inj h)
      exact ⟨rfl, fun hst ↦ hst.push (requested_region hspan) hmap⟩
    · exact coalesce_ok h span_regionPages

theorem mem_mapped_iff {e : Engine} {st st' : Setup e} {start len : UInt64} {runs : ℕ}
    (h : ensurePages e st start len = .ok (st', runs)) {q : UInt64} :
    q ∈ st'.mapped ↔ q ∈ st.mapped ∨ PageAligned q ∧ (firstPage start).toNat ≤ q.toNat ∧
      q.toNat < (lastPage start len).toNat := by
  rw [(ensurePages_ok h).1, Finset.mem_union, List.mem_toFinset, mem_regionPages]

/-! ## Calls to an exact engine -/

/-- No page was mapped by two calls. -/
structure Setup.NoneTwice {e : Engine} (st : Setup e) : Prop where
  held : ∀ c ∈ st.calls, requested c.1 c.2 ⊆ e.pages st.engine
  disjoint : st.calls.Pairwise fun c d ↦ Disjoint (requested c.1 c.2) (requested d.1 d.2)

theorem Setup.NoneTwice.push {e : Engine} {st : Setup e} {engine : e.State} {addr size : UInt64}
    (h : st.NoneTwice) (hmap : e.memMap st.engine addr size = .ok engine)
    (hfree : Disjoint (e.pages st.engine) (requested addr size)) (ps : List UInt64) :
    (st.push engine (addr, size) ps).NoneTwice := by
  have hpages : e.pages engine = e.pages st.engine ∪ requested addr size := e.pages_memMap hmap
  constructor
  · intro c hc
    change requested c.1 c.2 ⊆ e.pages engine
    rw [hpages]
    rcases List.mem_append.mp hc with hc | hc
    · exact (h.held c hc).trans Set.subset_union_left
    · rw [List.mem_singleton.mp hc]
      exact Set.subset_union_right
  · refine List.pairwise_append.mpr ⟨h.disjoint, List.pairwise_singleton _ _, ?_⟩
    intro c hc d hd
    rw [List.mem_singleton.mp hd]
    exact hfree.mono_left (h.held c hc)

section Exact

variable {e : Engine} {st : Setup e}

/-- Over a span, an exact engine refuses just the calls with a page in the
mirror. -/
theorem Engine.Exact.memMap_span (he : e.Exact) (hst : st.Mirrors) {p : UInt64}
    {ps : List UInt64} (hps : Span (p :: ps)) :
    (∃ s', e.memMap st.engine p (UInt64.ofNat (p :: ps).length * pageSize) = .ok s') ↔
      ∀ q ∈ p :: ps, st.free q = true := by
  have hfit := hps.length_lt
  have hsize : (UInt64.ofNat (p :: ps).length * pageSize).toNat = (ps.length + 1) * 4096 := by
    rw [toNat_mul_pageSize (by rw [List.length_cons]; omega), List.length_cons]
  have hst' : e.pages st.engine = st.mapped := hst
  rw [he st.engine p _ (hps.aligned p List.mem_cons_self), hps.requested_eq, hst',
    Set.disjoint_right]
  · simp [Setup.free]
  · rw [pageAligned_iff, hsize]
    omega
  · rw [UInt64.lt_iff_toNat_lt, hsize]
    exact Nat.mul_pos (Nat.succ_pos _) (by decide)
  · rw [hsize]
    omega

theorem Engine.Exact.memMap_region (he : e.Exact) (s : e.State) {start len : UInt64}
    (h : ¬lastPage start len ≤ firstPage start) :
    (∃ s', e.memMap s (firstPage start) (lastPage start len - firstPage start) = .ok s') ↔
      Disjoint (e.pages s)
        (requested (firstPage start) (lastPage start len - firstPage start)) := by
  obtain ⟨hlt, hsub, -⟩ := toNat_span h
  have htop := toNat_lastPage_le start len
  have hfirst := pageAligned_iff.mp (@pageAligned_firstPage start)
  have hlast := pageAligned_iff.mp (@pageAligned_lastPage start len)
  refine he s _ _ pageAligned_firstPage ?_ ?_ ?_
  · rw [pageAligned_iff, hsub]
    omega
  · rw [UInt64.lt_iff_toNat_lt, hsub]
    exact Nat.sub_pos_of_lt hlt
  · rw [hsub]
    omega

theorem Setup.free_eq_true {q : UInt64} : st.free q = true ↔ q ∉ st.mapped := by
  simp [Setup.free]

theorem Setup.free_run {p : UInt64} (hp : p ∉ st.mapped) (ps : List UInt64) :
    ∀ q ∈ p :: ps.takeWhile st.free, st.free q = true :=
  List.forall_mem_cons.mpr ⟨Setup.free_eq_true.mpr hp, fun _ hq ↦ List.mem_takeWhile_imp hq⟩

theorem Setup.count_run {p : UInt64} (hp : p ∉ st.mapped) (ps : List UInt64) :
    Runs.count st.free false (p :: ps) = 1 + Runs.count st.free false (ps.dropWhile st.free) := by
  rw [Runs.count_false_cons (Setup.free_eq_true.mpr hp), Runs.count_dropWhile]

/-- A run just mapped is behind the scan: the rest looks as it did. -/
theorem Setup.count_push {p : UInt64} {ps : List UInt64} (hps : Span (p :: ps))
    (engine : e.State) (call : UInt64 × UInt64) :
    Runs.count (st.push engine call (p :: ps.takeWhile st.free)).free false
      (ps.dropWhile st.free) = Runs.count st.free false (ps.dropWhile st.free) := by
  refine Runs.count_congr (fun q hq ↦ ?_) false
  have hnodup : ((p :: ps.takeWhile st.free) ++ ps.dropWhile st.free).Nodup := by
    rw [List.cons_append, List.takeWhile_append_dropWhile]
    exact hps.nodup
  have hnot : q ∉ p :: ps.takeWhile st.free := fun hin ↦
    List.disjoint_of_nodup_append hnodup hin hq
  have hmem : q ∈ (st.push engine call (p :: ps.takeWhile st.free)).mapped ↔ q ∈ st.mapped := by
    rw [Setup.mapped_push, Finset.mem_union, List.mem_toFinset, or_iff_left hnot]
  rw [Bool.eq_iff_iff, Setup.free_eq_true, Setup.free_eq_true, hmem]

/-- As long as the free runs stay under the cap, the scan maps all of them. -/
theorem coalesce_exact (he : e.Exact) {ps : List UInt64} (runs : ℕ) (hst : st.Mirrors)
    (hps : Span ps) (hruns : runs + Runs.count st.free false ps ≤ maxSetupRuns) :
    ∃ st', coalesce e ps st runs = .ok (st', runs + Runs.count st.free false ps) ∧
      (st.NoneTwice → st'.NoneTwice) := by
  fun_induction coalesce e ps st runs with
  | case1 st runs => exact ⟨st, rfl, id⟩
  | case2 st runs p ps hp ih =>
      have hcount : Runs.count st.free false (p :: ps) = Runs.count st.free false ps :=
        Runs.count_cons_of_not (by simp [Setup.free, hp]) false ps
      rw [hcount] at hruns ⊢
      exact ih hst hps.tail hruns
  | case3 st runs p ps hp runs₁ hcap =>
      rw [Setup.count_run hp] at hruns
      omega
  | case4 st runs p ps hp run runs₁ hcap size err hmap =>
      obtain ⟨s', hs'⟩ := (he.memMap_span hst (hps.run st.free).1).mpr (Setup.free_run hp ps)
      rw [show e.memMap st.engine p size = .ok s' from hs'] at hmap
      cases hmap
  | case5 st runs p ps hp run runs₁ hcap size engine hmap ih =>
      obtain ⟨hrun, hrest⟩ := hps.run st.free
      rw [Setup.count_run hp] at hruns ⊢
      rw [Setup.count_push hps] at ih
      obtain ⟨st', hres, hnone⟩ := ih (hst.push hrun.requested_eq hmap) hrest (by omega)
      have hfree : Disjoint (e.pages st.engine) (requested p size) := by
        have hst' : e.pages st.engine = st.mapped := hst
        rw [hst', hrun.requested_eq, Set.disjoint_right]
        intro q hq
        exact Setup.free_eq_true.mp (Setup.free_run hp ps q hq)
      refine ⟨st', ?_, fun h ↦ hnone (h.push hmap hfree run)⟩
      rw [hres, Nat.add_assoc]

/-- With an exact engine no call fails before the cap on runs is reached, and
the fallback takes no more runs than the region has free ones. -/
theorem ensurePages_exact (he : e.Exact) (start len : UInt64) (hst : st.Mirrors)
    (hruns : Runs.count st.free false (regionPages start len) ≤ maxSetupRuns) :
    ∃ st' runs, ensurePages e st start len = .ok (st', runs) ∧
      runs ≤ Runs.count st.free false (regionPages start len) ∧
      (st.NoneTwice → st'.NoneTwice) := by
  unfold ensurePages
  dsimp only
  split
  · exact ⟨st, 0, rfl, Nat.zero_le _, id⟩
  · rename_i hspan
    rw [← regionPages_eq hspan]
    split
    · rename_i engine hmap
      exact ⟨_, 0, rfl, Nat.zero_le _,
        fun h ↦ h.push hmap ((he.memMap_region st.engine hspan).mp ⟨engine, hmap⟩) _⟩
    · obtain ⟨st', hres, hnone⟩ := coalesce_exact he 0 hst span_regionPages
        (by rwa [Nat.zero_add])
      rw [Nat.zero_add] at hres
      exact ⟨st', _, hres, le_rfl, hnone⟩

end Exact

/-! ## The promise -/

/-- A page that holds a byte of a region. -/
def HoldsByte (start len q : UInt64) : Prop :=
  ∃ b : ℕ, start.toNat ≤ b ∧ b < start.toNat + len.toNat ∧ pageOf (UInt64.ofNat b) = q

/-- Every page of the region is mapped, and nothing else was added. -/
structure KeepsPromise {e : Engine} (st st' : Setup e) (start len : UInt64) : Prop where
  covered : ∀ q, HoldsByte start len q → q ∈ st'.mapped
  bounded : ∀ q ∈ st'.mapped, q ∈ st.mapped ∨ HoldsByte start len q

/-- The last page of the address space, which the rounding never passes. -/
def topPage : UInt64 := 0xfffffffffffff000

section Promise

variable {start len : UInt64}

theorem toNat_pageOf_ofNat {b : ℕ} (hb : b < 2 ^ 64) :
    (pageOf (UInt64.ofNat b)).toNat = b / 4096 * 4096 := by
  rw [toNat_pageOf, toNat_ofNat64 hb]

/-- The pages of a nonempty region, by addresses. -/
theorem holdsByte_iff (hfit : start.toNat + len.toNat < 2 ^ 64) (hlen : 0 < len.toNat)
    {q : UInt64} : HoldsByte start len q ↔ PageAligned q ∧
      start.toNat / 4096 * 4096 ≤ q.toNat ∧ q.toNat < start.toNat + len.toNat := by
  constructor
  · rintro ⟨b, hlow, hhigh, rfl⟩
    rw [toNat_pageOf_ofNat (by omega)]
    exact ⟨pageAligned_pageOf _, by omega, by omega⟩
  · rintro ⟨hq, hlow, hhigh⟩
    rw [pageAligned_iff] at hq
    refine ⟨max q.toNat start.toNat, by omega, by omega, ?_⟩
    rw [← UInt64.toNat_inj, toNat_pageOf_ofNat (by omega)]
    omega

theorem not_holdsByte_of_empty (hlen : len.toNat = 0) (q : UInt64) : ¬HoldsByte start len q := by
  rintro ⟨b, hlow, hhigh, -⟩
  omega

/-- The pages added for a nonempty region are the region's, less the top. -/
theorem added_iff (hfit : start.toNat + len.toNat < 2 ^ 64) (hlen : 0 < len.toNat) {q : UInt64} :
    (PageAligned q ∧ (firstPage start).toNat ≤ q.toNat ∧
      q.toNat < (lastPage start len).toNat) ↔ HoldsByte start len q ∧ q ≠ topPage := by
  have htop : topPage.toNat = 2 ^ 64 - 4096 := rfl
  rw [holdsByte_iff hfit hlen, toNat_lastPage, firstPage, toNat_pageOf, ne_eq,
    ← UInt64.toNat_inj, htop]
  constructor
  · rintro ⟨hq, hlow, hhigh⟩
    have hmod := pageAligned_iff.mp hq
    exact ⟨⟨hq, hlow, by omega⟩, by omega⟩
  · rintro ⟨⟨hq, hlow, hhigh⟩, hne⟩
    have hmod := pageAligned_iff.mp hq
    exact ⟨hq, hlow, by omega⟩

/-- An aligned region that is empty has no page. -/
theorem not_added_of_empty (hstart : PageAligned start) (hlen : len.toNat = 0) (q : UInt64) :
    ¬((firstPage start).toNat ≤ q.toNat ∧ q.toNat < (lastPage start len).toNat) := by
  have hmod := pageAligned_iff.mp hstart
  rw [toNat_lastPage, firstPage, toNat_pageOf]
  omega

theorem holdsByte_topPage_iff (hfit : start.toNat + len.toNat < 2 ^ 64) (hlen : 0 < len.toNat) :
    HoldsByte start len topPage ↔ 2 ^ 64 - 4096 < start.toNat + len.toNat := by
  have htop : topPage.toNat = 2 ^ 64 - 4096 := rfl
  rw [holdsByte_iff hfit hlen, htop]
  constructor
  · rintro ⟨-, -, hhigh⟩
    exact hhigh
  · intro hhigh
    exact ⟨by decide, by omega, hhigh⟩

end Promise

/-- A successful call keeps its promise unless the region reaches into the
last page of the address space and that page was not mapped before: the end,
rounded up by saturating additions, stops at the start of that page. -/
theorem ensurePages_promise_iff (e : Engine) {st st' : Setup e} {start len : UInt64} {runs : ℕ}
    (hmirror : st.Mirrors) (hfit : start.toNat + len.toNat < 2 ^ 64)
    (h : ensurePages e st start len = .ok (st', runs)) :
    st'.Mirrors ∧ ((¬PageAligned start ∧ len = 0) ∨ KeepsPromise st st' start len ↔
      start.toNat + len.toNat ≤ 2 ^ 64 - 4096 ∨ len = 0 ∨ topPage ∈ st.mapped) := by
  have hmapped : ∀ q, q ∈ st'.mapped ↔ _ := fun q ↦ mem_mapped_iff h
  refine ⟨(ensurePages_ok h).2 hmirror, ?_⟩
  rcases Nat.eq_zero_or_pos len.toNat with hlen | hlen
  · have hzero : len = 0 := UInt64.toNat_inj.mp hlen
    refine iff_of_true ?_ (Or.inr (Or.inl hzero))
    by_cases hstart : PageAligned start
    · refine Or.inr ⟨fun q hq ↦ (not_holdsByte_of_empty hlen q hq).elim, fun q hq ↦ ?_⟩
      rcases (hmapped q).mp hq with hq | ⟨-, hq⟩
      · exact Or.inl hq
      · exact (not_added_of_empty hstart hlen q hq).elim
    · exact Or.inl ⟨hstart, hzero⟩
  · have hne : len ≠ 0 := by
      rintro rfl
      exact absurd hlen (by decide)
    simp only [added_iff hfit hlen] at hmapped
    constructor
    · rintro (⟨-, hzero⟩ | hkeeps)
      · exact Or.inr (Or.inl hzero)
      · by_cases htop : HoldsByte start len topPage
        · rcases (hmapped topPage).mp (hkeeps.covered topPage htop) with hin | ⟨-, hneq⟩
          · exact Or.inr (Or.inr hin)
          · exact (hneq rfl).elim
        · rw [holdsByte_topPage_iff hfit hlen] at htop
          exact Or.inl (not_lt.mp htop)
    · intro hcond
      refine Or.inr ⟨fun q hq ↦ (hmapped q).mpr ?_, fun q hq ↦ ?_⟩
      · by_cases hqtop : q = topPage
        · subst hqtop
          have hhigh := (holdsByte_topPage_iff hfit hlen).mp hq
          rcases hcond with hlow | hzero | hin
          · omega
          · exact (hne hzero).elim
          · exact Or.inl hin
        · exact Or.inr ⟨hq, hqtop⟩
      · rcases (hmapped q).mp hq with hq | ⟨hq, -⟩
        · exact Or.inl hq
        · exact Or.inr hq

/-! ## A table of pages as an engine -/

/-- An engine that keeps a table of its pages. -/
def tableMemMap (s : Finset UInt64) (addr size : UInt64) : Except UcError (Finset UInt64) :=
  let ps := pagesFrom addr (size / pageSize).toNat
  if PageAligned addr ∧ PageAligned size ∧ 0 < size ∧ addr.toNat + size.toNat < 2 ^ 64 ∧
      ∀ q ∈ ps, q ∉ s then .ok (s ∪ ps.toFinset)
  else .error (.other 1)

theorem mem_tablePages {addr size q : UInt64} (haddr : PageAligned addr) (hsize : PageAligned size)
    (hfit : addr.toNat + size.toNat < 2 ^ 64) :
    q ∈ pagesFrom addr (size / pageSize).toNat ↔ q ∈ requested addr size := by
  have hmod := pageAligned_iff.mp hsize
  have hpage : pageSize.toNat = 4096 := rfl
  have hpages : (size / pageSize).toNat * 4096 = size.toNat := by
    rw [UInt64.toNat_div, hpage]
    omega
  rw [mem_pagesFrom haddr (by omega), hpages, requested, Set.mem_ofPred_eq]

def tableEngine : Engine where
  State := Finset UInt64
  pages := fun s ↦ s
  memMap := tableMemMap
  pages_memMap := by
    intro s s' addr size h
    unfold tableMemMap at h
    dsimp only at h
    split at h
    · rename_i hok
      rw [← Except.ok.inj h, Finset.coe_union, List.coe_toFinset]
      congr 1
      ext q
      exact mem_tablePages hok.1 hok.2.1 hok.2.2.2.1
    · cases h

theorem tableEngine_exact : tableEngine.Exact := by
  intro s addr size haddr hsize hpos hfit
  have hmem := fun q ↦ mem_tablePages (q := q) haddr hsize hfit
  rw [Set.disjoint_right]
  change (∃ s', tableMemMap s addr size = .ok s') ↔ _
  unfold tableMemMap
  dsimp only
  split
  · rename_i hok
    refine iff_of_true ⟨_, rfl⟩ fun q hq ↦ ?_
    exact hok.2.2.2.2 q ((hmem q).mpr hq)
  · rename_i hno
    refine iff_of_false (fun h ↦ by obtain ⟨s', h⟩ := h; cases h) fun h ↦ hno ?_
    exact ⟨haddr, hsize, hpos, hfit, fun q hq ↦ h ((hmem q).mp hq)⟩

/-- Before anything is mapped. -/
def Setup.fresh (e : Engine) (s : e.State) : Setup e := { engine := s, mapped := ∅, calls := [] }

theorem Setup.mirrors_fresh {e : Engine} {s : e.State} (h : e.pages s = ∅) :
    (Setup.fresh e s).Mirrors := by
  change e.pages s = ((∅ : Finset UInt64) : Set UInt64)
  rw [h, Finset.coe_empty]

def emptyTable : Setup tableEngine := Setup.fresh tableEngine (∅ : Finset UInt64)

theorem mirrors_emptyTable : emptyTable.Mirrors := Setup.mirrors_fresh Finset.coe_empty

/-- A short code segment, well below the top. -/
theorem ensurePages_promise_iff_segment :
    ∃ st' runs, ensurePages tableEngine emptyTable 0x401000 0x200 = .ok (st', runs) ∧
      st'.Mirrors ∧ ((¬PageAligned 0x401000 ∧ (0x200 : UInt64) = 0) ∨
        KeepsPromise emptyTable st' 0x401000 0x200 ↔
          (0x401000 : UInt64).toNat + (0x200 : UInt64).toNat ≤ 2 ^ 64 - 4096 ∨
            (0x200 : UInt64) = 0 ∨ topPage ∈ emptyTable.mapped) := by
  have hcount := Runs.two_mul_count_le emptyTable.free false (regionPages 0x401000 0x200)
  have hlength : (regionPages 0x401000 0x200).length = 1 := by decide
  rw [hlength] at hcount
  have hruns : Runs.count emptyTable.free false (regionPages 0x401000 0x200) ≤ maxSetupRuns := by
    simp only [Bool.false_eq_true, if_false] at hcount
    unfold maxSetupRuns
    omega
  obtain ⟨st', runs, hres, -⟩ :=
    ensurePages_exact tableEngine_exact 0x401000 0x200 mirrors_emptyTable hruns
  exact ⟨st', runs, hres, ensurePages_promise_iff tableEngine mirrors_emptyTable (by decide) hres⟩

/-- Sixteen bytes in the last page: nothing is mapped and no error is given. -/
theorem ensurePages_misses_top :
    emptyTable.Mirrors ∧ (0xfffffffffffff000 : UInt64).toNat + (0x10 : UInt64).toNat < 2 ^ 64 ∧
      ∃ st', ensurePages tableEngine emptyTable 0xfffffffffffff000 0x10 = .ok (st', 0) ∧
        ¬((¬PageAligned 0xfffffffffffff000 ∧ (0x10 : UInt64) = 0) ∨
          KeepsPromise emptyTable st' 0xfffffffffffff000 0x10) := by
  refine ⟨mirrors_emptyTable, by decide, emptyTable, rfl, ?_⟩
  rintro (⟨-, hzero⟩ | hkeeps)
  · exact absurd hzero (by decide)
  · have htop : HoldsByte 0xfffffffffffff000 0x10 topPage :=
      (holdsByte_topPage_iff (by decide) (by decide)).mpr (by decide)
    exact Finset.notMem_empty _ (hkeeps.covered topPage htop)

end Fnprint
