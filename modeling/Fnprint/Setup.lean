import Fnprint.Layout
import Fnprint.Pages

/-!
# Setting up a run

Before a run the segments, the argument buffers and the stack are mapped, in
this order.  The segments of an accepted image are sorted and disjoint up to
saturation, so that of the pages of one at most the first is mapped already.
-/

namespace Fnprint

open StableSort Fallible

/-! ## The regions of a run -/

inductive SetupRegion where
  | segment (s : Segment)
  | argBuffer (k : ℕ)
  | stack

def SetupRegion.start : SetupRegion → UInt64
  | .segment s => s.vaddr
  | .argBuffer k => argBase k
  | .stack => stackBase

def SetupRegion.len : SetupRegion → UInt64
  | .segment s => UInt64.ofNat s.bytes.length
  | .argBuffer _ => argSize
  | .stack => stackSize

/-- The most runs the fallback takes for a region. -/
def SetupRegion.maxRuns : SetupRegion → ℕ
  | .segment _ => 1
  | .argBuffer _ => 4
  | .stack => 32

theorem SetupRegion.maxRuns_le (r : SetupRegion) : r.maxRuns ≤ maxSetupRuns := by
  cases r <;> simp [maxRuns, maxSetupRuns]

def regions (image : Image) : List SetupRegion :=
  image.segments.map SetupRegion.segment ++
    ((List.range nargs).map SetupRegion.argBuffer ++ [SetupRegion.stack])

def mapRegion (e : Engine) (st : Setup e) (r : SetupRegion) : Except UcError (Setup e) := do
  let (st, _) ← ensurePages e st r.start r.len
  return st

def mapRegions (e : Engine) (st : Setup e) (rs : List SetupRegion) : Except UcError (Setup e) :=
  rs.foldlM (mapRegion e) st

/-! ## Clean runs -/

/-- The mirror is exact and no page was mapped twice. -/
structure Steady {e : Engine} (st : Setup e) : Prop where
  mirrors : st.Mirrors
  none_twice : st.NoneTwice

/-- SetupRegion after region is mapped without an error and within its runs, and
the setup is steady before and after each. -/
def Clean (e : Engine) : Setup e → List SetupRegion → Prop
  | st, [] => Steady st
  | st, r :: rs => Steady st ∧ ∃ st' runs, ensurePages e st r.start r.len = .ok (st', runs) ∧
      runs ≤ r.maxRuns ∧ Clean e st' rs

theorem Clean.mapRegions {e : Engine} {st : Setup e} {rs : List SetupRegion} (h : Clean e st rs) :
    ∃ st', mapRegions e st rs = .ok st' ∧ Steady st' := by
  induction rs generalizing st with
  | nil => exact ⟨st, rfl, h⟩
  | cons r rs ih =>
      obtain ⟨-, st', runs, hres, -, hrest⟩ := h
      obtain ⟨st'', hmap, hsteady⟩ := ih hrest
      refine ⟨st'', foldlM_cons_eq_ok_iff.mpr ⟨st', ?_, hmap⟩, hsteady⟩
      rw [mapRegion, hres]
      rfl

section Exact

variable {e : Engine}

/-- One region, given how many free runs it has. -/
theorem Steady.step (he : e.Exact) {st : Setup e} (hst : Steady st) {r : SetupRegion}
    (hruns : Runs.count st.free false (regionPages r.start r.len) ≤ r.maxRuns) :
    ∃ st' runs, ensurePages e st r.start r.len = .ok (st', runs) ∧ runs ≤ r.maxRuns ∧
      Steady st' := by
  obtain ⟨st', runs, hres, hle, hnone⟩ :=
    ensurePages_exact he r.start r.len hst.mirrors (hruns.trans r.maxRuns_le)
  exact ⟨st', runs, hres, hle.trans hruns, (ensurePages_ok hres).2 hst.mirrors,
    hnone hst.none_twice⟩

/-! ## Argument buffers and the stack -/

/-- Runs take at most half the pages of a region, whatever is mapped there. -/
theorem count_regionPages_le (st : Setup e) (start len : UInt64) {n : ℕ}
    (h : (regionPages start len).length = 2 * n) :
    Runs.count st.free false (regionPages start len) ≤ n := by
  have hcount := Runs.two_mul_count_le st.free false (regionPages start len)
  rw [h] at hcount
  simp only [Bool.false_eq_true, if_false] at hcount
  omega

theorem length_regionPages (start len : UInt64) (h : ¬lastPage start len ≤ firstPage start) :
    (regionPages start len).length = ((lastPage start len - firstPage start) / pageSize).toNat := by
  rw [regionPages_eq h, length_pagesFrom]

theorem length_argBuffer : ∀ k < nargs, (regionPages (argBase k) argSize).length = 2 * 4 := by
  intro k hk
  have hspan : ∀ k < nargs, ¬lastPage (argBase k) argSize ≤ firstPage (argBase k) ∧
      ((lastPage (argBase k) argSize - firstPage (argBase k)) / pageSize).toNat = 2 * 4 := by
    decide
  rw [length_regionPages _ _ (hspan k hk).1, (hspan k hk).2]

theorem length_stack : (regionPages stackBase stackSize).length = 2 * 32 := by
  rw [length_regionPages _ _ (by decide)]
  decide

theorem clean_stack (he : e.Exact) {st : Setup e} (hst : Steady st) :
    Clean e st [SetupRegion.stack] := by
  obtain ⟨st', runs, hres, hle, hst'⟩ :=
    hst.step he (r := .stack) (count_regionPages_le st _ _ length_stack)
  exact ⟨hst, st', runs, hres, hle, hst'⟩

theorem clean_argBuffers (he : e.Exact) {ks : List ℕ} (hks : ∀ k ∈ ks, k < nargs) {st : Setup e}
    (hst : Steady st) : Clean e st (ks.map SetupRegion.argBuffer ++ [SetupRegion.stack]) := by
  induction ks generalizing st with
  | nil => exact clean_stack he hst
  | cons k ks ih =>
      obtain ⟨hk, hrest⟩ := List.forall_mem_cons.mp hks
      obtain ⟨st', runs, hres, hle, hst'⟩ :=
        hst.step he (r := .argBuffer k) (count_regionPages_le st _ _ (length_argBuffer k hk))
      exact ⟨hst, st', runs, hres, hle, ih hrest hst'⟩

/-! ## Segments -/

/-- Nothing is mapped above the page of an address. -/
def Below (st : Setup e) (v : UInt64) : Prop :=
  ∀ q ∈ st.mapped, q.toNat ≤ (firstPage v).toNat

/-- Then only the first page of a region there can be mapped already. -/
theorem Below.count_le_one {st : Setup e} {start : UInt64} (h : Below st start) (len : UInt64) :
    Runs.count st.free false (regionPages start len) ≤ 1 := by
  refine Runs.count_false_le_one fun q hq ↦ Setup.free_eq_true.mpr fun hmem ↦ ?_
  have hspan := @span_regionPages start len
  have hle := h q hmem
  have hin := mem_regionPages.mp (List.mem_of_mem_tail hq)
  cases hps : regionPages start len with
  | nil =>
      rw [hps] at hq
      cases hq
  | cons p ps =>
      rw [hps] at hq hspan
      have hp := mem_regionPages.mp (hps ▸ List.mem_cons_self : p ∈ regionPages start len)
      cases ps with
      | nil => cases hq
      | cons r ps =>
          obtain ⟨hr, -⟩ := List.isChain_cons_cons.mp hspan.chain
          have hlow := (hspan.tail.mem_cons_iff.mp hq).2.1
          omega

/-- A region that ends at or below an address adds no page above its page. -/
theorem Below.step {st st' : Setup e} {start len v : UInt64} {runs : ℕ} (h : Below st v)
    (hres : ensurePages e st start len = .ok (st', runs))
    (hend : satAdd start.toNat len.toNat ≤ v.toNat) : Below st' v := by
  intro q hq
  rcases (mem_mapped_iff hres).mp hq with hq | ⟨hal, -, hlt⟩
  · exact h q hq
  · have hmod := pageAligned_iff.mp hal
    rw [toNat_lastPage] at hlt
    rw [firstPage, toNat_pageOf]
    unfold satAdd at hend
    omega

theorem clean_segments (he : e.Exact) {segments : List Segment} {rest : List SetupRegion}
    (hrest : ∀ st : Setup e, Steady st → Clean e st rest)
    (hlen : ∀ s ∈ segments, s.bytes.length < 2 ^ 64)
    (hsorted : segments.Pairwise fun s t ↦ satAdd s.vaddr.toNat s.bytes.length ≤ t.vaddr.toNat)
    {st : Setup e} (hst : Steady st) (hbelow : ∀ s ∈ segments, Below st s.vaddr) :
    Clean e st (segments.map SetupRegion.segment ++ rest) := by
  induction segments generalizing st with
  | nil => exact hrest st hst
  | cons s segments ih =>
      obtain ⟨hs, hlens⟩ := List.forall_mem_cons.mp hlen
      obtain ⟨hnext, htail⟩ := List.pairwise_cons.mp hsorted
      obtain ⟨hbelows, hbelowt⟩ := List.forall_mem_cons.mp hbelow
      obtain ⟨st', runs, hres, hle, hst'⟩ :=
        hst.step he (r := .segment s) (hbelows.count_le_one _)
      refine ⟨hst, st', runs, hres, hle, ih hlens htail hst' fun t ht ↦ ?_⟩
      refine (hbelowt t ht).step hres ?_
      rw [SetupRegion.start, SetupRegion.len, Checked.toNat_ofNat64 hs]
      exact hnext t ht

end Exact

/-! ## Accepted images -/

/-- What the loader promises of the segments of an accepted file. -/
theorem segments_of_load {p : Parsers} {bytes : List UInt8} {l : Loaded}
    (h : load p bytes = .ok l) :
    (∀ s ∈ l.image.segments, s.bytes.length < 2 ^ 64) ∧
      l.image.segments.Pairwise fun s t ↦
        satAdd s.vaddr.toNat s.bytes.length ≤ t.vaddr.toNat := by
  obtain ⟨elf, arch, segments, -, -, hseg, himage, -⟩ := load_ok h
  rw [himage]
  obtain ⟨hsegments, hcheck⟩ := loadSegments_ok hseg
  constructor
  · intro s hs
    obtain ⟨ph, hph, rfl⟩ := (mem_loadSegments hseg).mp hs
    have hextent := extent_le_of_loadSegments hseg ph hph
    rw [length_segmentOf]
    exact lt_of_le_of_lt hextent (by decide)
  · refine pairwise_of_checkOverlap ?_ hcheck
    rw [hsegments]
    exact (pairwise_sortBy (byKey Segment.vaddr compare) _).imp fun hst ↦ Std.isLE_compare.mp hst

theorem steady_fresh {e : Engine} {s : e.State} (h : e.pages s = ∅) :
    Steady (Setup.fresh e s) :=
  ⟨Setup.mirrors_fresh h, by simp [Setup.fresh], List.Pairwise.nil⟩

/-- Over an engine that maps exactly the ranges with no mapped page, the setup
of an accepted image is clean at every step, so the cap on runs is never
reached. -/
theorem setup_clean (e : Engine) (he : e.Exact) (s : e.State) (hs : e.pages s = ∅)
    {p : Parsers} {bytes : List UInt8} {l : Loaded} (h : load p bytes = .ok l) :
    Clean e (Setup.fresh e s) (regions l.image) ∧
      (∀ r ∈ regions l.image, r.maxRuns ≤ maxSetupRuns) ∧
      ∃ st, mapRegions e (Setup.fresh e s) (regions l.image) = .ok st ∧ Steady st := by
  obtain ⟨hlen, hsorted⟩ := segments_of_load h
  have hrest : ∀ st : Setup e, Steady st →
      Clean e st ((List.range nargs).map SetupRegion.argBuffer ++ [SetupRegion.stack]) :=
    fun st hst ↦ clean_argBuffers he (fun k hk ↦ List.mem_range.mp hk) hst
  have hclean : Clean e (Setup.fresh e s) (regions l.image) :=
    clean_segments he hrest hlen hsorted (steady_fresh hs) fun t _ q hq ↦
      (Finset.notMem_empty q hq).elim
  exact ⟨hclean, fun r _ ↦ r.maxRuns_le, hclean.mapRegions⟩

/-- The first bytes of a page, and a segment from its last bytes into the next page. -/
def sharedPage : List ProgramHeader :=
  [⟨ptLoad, 5, 0, 0x401000, 16, 16⟩, ⟨ptLoad, 4, 16, 0x401ff0, 16, 32⟩]

theorem setup_clean_shared :
    ∃ l, loadCraft sharedPage = .ok l ∧
      (l.image.segments.map fun t ↦ regionPages t.vaddr (UInt64.ofNat t.bytes.length)) =
        [[0x401000], [0x401000, 0x402000]] ∧
      Clean tableEngine emptyTable (regions l.image) ∧
      (∀ r ∈ regions l.image, r.maxRuns ≤ maxSetupRuns) ∧
      ∃ st, mapRegions tableEngine emptyTable (regions l.image) = .ok st ∧ Steady st := by
  have hpages : (loadCraft sharedPage).toOption.map (fun l ↦ l.image.segments.map fun t ↦
      regionPages t.vaddr (UInt64.ofNat t.bytes.length)) =
        some [[0x401000], [0x401000, 0x402000]] := by decide +kernel
  obtain ⟨l, hl, hpages⟩ := Option.map_eq_some_iff.mp hpages
  have hload := eq_ok_of_toOption hl
  exact ⟨l, hload, hpages, setup_clean tableEngine tableEngine_exact _ Finset.coe_empty hload⟩

end Fnprint
