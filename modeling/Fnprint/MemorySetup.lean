import Fnprint.Memory

/-!
# When the setup succeeds

Mapping the regions of an accepted image never fails, but the last page of the
address space is never mapped: a segment that ends in it cannot be written, and
no run of the image starts.
-/

namespace Fnprint

open Paging Checked Fallible

variable {e : MemEngine}

/-! ## Single calls -/

theorem MemEngine.read_eq_none {s : e.State} {a : UInt64} (h : pageOf a ∉ e.pages s) :
    e.read s a = none := by
  rw [← Option.not_isSome_iff_eq_none]
  exact fun hsome ↦ h (e.isSome_read.mp hsome)

/-- Mapping shows only as zeros where nothing was. -/
theorem complete_memMap {s s' : e.State} {addr size : UInt64} (h : e.memMap s addr size = .ok s') :
    complete (e.read s') (fun _ ↦ 0) = complete (e.read s) fun _ ↦ 0 := by
  apply complete_eq_of_filled
  intro a
  by_cases ha : pageOf a ∈ requested addr size
  · right
    have hfree : pageOf a ∉ e.pages s := fun hin ↦
      Set.disjoint_left.mp (e.disjoint_memMap h) hin ha
    exact ⟨e.read_eq_none hfree, (e.read_memMap h a).1 ha⟩
  · exact Or.inl ((e.read_memMap h a).2 ha)

theorem coalesce_engine {E : Engine} {P : E.State → Prop}
    (hmap : ∀ s addr size s', P s → E.memMap s addr size = .ok s' → P s') {ps : List UInt64}
    {st st' : Setup E} {runs runs' : ℕ} (hst : P st.engine)
    (h : coalesce E ps st runs = .ok (st', runs')) : P st'.engine := by
  fun_induction coalesce E ps st runs with
  | case1 st runs =>
      obtain ⟨rfl, -⟩ := Prod.mk.inj (Except.ok.inj h)
      exact hst
  | case2 st runs p ps hp ih => exact ih hst h
  | case3 => cases h
  | case4 => cases h
  | case5 st runs p ps hp run runs₁ hcap size engine hok ih => exact ih (hmap _ _ _ _ hst hok) h

/-- What every call to the engine keeps, mapping a region keeps. -/
theorem ensurePages_engine {E : Engine} {P : E.State → Prop}
    (hmap : ∀ s addr size s', P s → E.memMap s addr size = .ok s' → P s') {st st' : Setup E}
    {start len : UInt64} {runs : ℕ} (hst : P st.engine)
    (h : ensurePages E st start len = .ok (st', runs)) : P st'.engine := by
  unfold ensurePages at h
  dsimp only at h
  split at h
  · obtain ⟨rfl, -⟩ := Prod.mk.inj (Except.ok.inj h)
    exact hst
  · split at h
    · next engine hok =>
        obtain ⟨rfl, -⟩ := Prod.mk.inj (Except.ok.inj h)
        exact hmap _ _ _ _ hst hok
    · exact coalesce_engine hmap hst h

/-! ## The setup -/

theorem setupByte_cons (seed : UInt64) (r : SetupRegion) (rs : List SetupRegion) :
    setupByte seed (r :: rs) =
      onto (setupByte seed rs) (window (r.contents seed).1 (r.contents seed).2) := by
  funext a
  rw [setupByte, List.reverse_cons, List.findSome?_append, onto, setupByte]
  congr 1
  cases h : window (r.contents seed).1 (r.contents seed).2 a <;> simp [h]

theorem setupByte_singleton (seed : UInt64) (r : SetupRegion) :
    setupByte seed [r] = window (r.contents seed).1 (r.contents seed).2 := by
  rw [setupByte_cons]
  rfl

/-- The pages and the bytes after some regions. -/
structure FilledIn (e : MemEngine) (seed : UInt64) (rs : List SetupRegion)
    (st st' : Setup e.toEngine) : Prop where
  mirrors : st'.Mirrors
  mapped : st'.mapped = st.mapped ∪ (rs.flatMap fun r ↦ regionPages r.start r.len).toFinset
  bytes : complete (e.read st'.engine) (fun _ ↦ 0) =
    complete (setupByte seed rs) (complete (e.read st.engine) fun _ ↦ 0)
  reached : ∀ a, (setupByte seed rs a).isSome = true → pageOf a ∈ st'.mapped

theorem filledIn_setRegion {seed : UInt64} {st st' : Setup e.toEngine} {r : SetupRegion}
    (hst : st.Mirrors) (h : setRegion e seed st r = .ok st') : FilledIn e seed [r] st st' := by
  obtain ⟨st₁, hregion, h⟩ := bind_eq_ok_iff.mp h
  obtain ⟨engine, hwrite, h⟩ := bind_eq_ok_iff.mp h
  obtain rfl := pure_eq_ok_iff.mp h
  obtain ⟨⟨st₁, runs⟩, hpages, hregion⟩ := bind_eq_ok_iff.mp hregion
  obtain rfl := pure_eq_ok_iff.mp hregion
  obtain ⟨hmapped, hmirrors⟩ := ensurePages_ok hpages
  have hread := e.read_memWrite hwrite
  have hbytes := setupByte_singleton seed r
  have hpagesEq : e.pages engine = st₁.mapped :=
    (e.pages_memWrite hwrite).trans (hmirrors hst)
  refine ⟨hpagesEq, ?_, ?_, ?_⟩
  · rw [List.flatMap_singleton]
    exact hmapped
  · have hzero : complete (e.read st₁.engine) (fun _ ↦ 0) =
        complete (e.read st.engine) fun _ ↦ 0 :=
      ensurePages_engine (P := fun s ↦ complete (e.read s) (fun _ ↦ 0) =
        complete (e.read st.engine) fun _ ↦ 0)
        (fun _ _ _ _ hs hmap ↦ (complete_memMap hmap).trans hs) rfl hpages
    rw [hread, complete_onto, hzero, hbytes]
  · intro a ha
    have hsome : (e.read engine a).isSome = true := by
      rw [hread, onto, ← hbytes]
      rw [Option.isSome_or, ha, Bool.true_or]
    have hin := e.isSome_read.mp hsome
    rw [hpagesEq] at hin
    exact hin

theorem filledIn_foldlM {seed : UInt64} {st st' : Setup e.toEngine} {rs : List SetupRegion}
    (hst : st.Mirrors) (h : rs.foldlM (setRegion e seed) st = .ok st') :
    FilledIn e seed rs st st' := by
  induction rs generalizing st with
  | nil =>
      obtain rfl := pure_eq_ok_iff.mp h
      exact ⟨hst, by simp, rfl, fun a ha ↦ by cases ha⟩
  | cons r rs ih =>
      obtain ⟨st₁, hr, hrs⟩ := foldlM_cons_eq_ok_iff.mp h
      have hone := filledIn_setRegion hst hr
      have hrest := ih hone.mirrors hrs
      refine ⟨hrest.mirrors, ?_, ?_, ?_⟩
      · rw [hrest.mapped, hone.mapped, List.flatMap_singleton, List.flatMap_cons,
          List.toFinset_append, Finset.union_assoc]
      · rw [hrest.bytes, hone.bytes, setupByte_singleton, setupByte_cons, complete_onto]
      · intro a ha
        rw [setupByte_cons, onto, Option.isSome_or, Bool.or_eq_true] at ha
        rcases ha with ha | ha
        · exact hrest.reached a ha
        · have hin : pageOf a ∈ st₁.mapped := by
            apply hone.reached
            rwa [setupByte_singleton]
          rw [hrest.mapped]
          exact Finset.mem_union_left _ hin

/-- After the setup the memory, filled up with junk, is the initial one. -/
theorem complete_setupMemory {seed : UInt64} {image : Image} {s : e.State} (hs : e.pages s = ∅)
    {st : Setup e.toEngine} (h : setupMemory e seed image s = .ok st) :
    e.pages st.engine = setupPages image ∧
      complete (e.read st.engine) (junkByte seed) = initialMemory seed image := by
  have hfilled : FilledIn e seed (regions image) (Setup.fresh e.toEngine s) st :=
    filledIn_foldlM (Setup.mirrors_fresh hs) h
  have hmapped : st.mapped = setupPages image := by
    rw [hfilled.mapped, setupPages]
    exact Finset.empty_union _
  have hpages : e.pages st.engine = setupPages image := by
    have hmirrors : e.pages st.engine = st.mapped := hfilled.mirrors
    rw [hmirrors, hmapped]
  refine ⟨hpages, ?_⟩
  have hzero : complete (e.read s) (fun _ ↦ 0) = fun _ ↦ 0 := by
    funext a
    exact complete_of_none (e.read_eq_none (by rw [hs]; exact Set.notMem_empty _))
  have hbytes : complete (e.read st.engine) (fun _ ↦ 0) =
      complete (setupByte seed (regions image)) fun _ ↦ 0 := by
    rw [hfilled.bytes]
    exact congrArg _ hzero
  funext a
  have hat := congrFun hbytes a
  by_cases ha : pageOf a ∈ setupPages image
  · have hsome : (e.read st.engine a).isSome = true := e.isSome_read.mpr (by rw [hpages]; exact ha)
    obtain ⟨v, hv⟩ := Option.isSome_iff_exists.mp hsome
    rw [complete_of_some hv] at hat
    rw [complete_of_some hv, hat, initialMemory, complete, complete, if_pos ha]
  · have hnone : e.read st.engine a = none := e.read_eq_none (by rw [hpages]; exact ha)
    have hbare : setupByte seed (regions image) a = none := by
      rw [← Option.not_isSome_iff_eq_none]
      intro hsome
      exact ha (hmapped ▸ hfilled.reached a hsome)
    rw [complete_of_none hnone, initialMemory, complete_of_none hbare, if_neg ha]

/-! ## A table of pages and bytes -/

def tableWrite (s : Finset UInt64 × (UInt64 → UInt8)) (addr : UInt64) (bytes : List UInt8) :
    Except UcError (Finset UInt64 × (UInt64 → UInt8)) :=
  if addr.toNat + bytes.length ≤ 2 ^ 64 ∧
      ∀ i < bytes.length, pageOf (addr + UInt64.ofNat i) ∈ s.1 then
    .ok (s.1, complete (window addr bytes) s.2)
  else .error (.other 2)

theorem isSome_window_iff_exists {addr a : UInt64} {bytes : List UInt8}
    (hfit : addr.toNat + bytes.length ≤ 2 ^ 64) :
    (window addr bytes a).isSome = true ↔ ∃ i < bytes.length, addr + UInt64.ofNat i = a := by
  rw [isSome_window_iff]
  constructor
  · rintro ⟨hlow, hhigh⟩
    refine ⟨a.toNat - addr.toNat, by omega, UInt64.toNat_inj.mp ?_⟩
    have hlt := a.toNat_lt
    rw [UInt64.toNat_add, toNat_ofNat64 (by omega), Nat.mod_eq_of_lt (by omega)]
    omega
  · rintro ⟨i, hi, rfl⟩
    have hadd : (addr + UInt64.ofNat i).toNat = addr.toNat + i := by
      rw [UInt64.toNat_add, toNat_ofNat64 (by omega), Nat.mod_eq_of_lt (by omega)]
    omega

theorem tableWrite_ok_iff {s s' : Finset UInt64 × (UInt64 → UInt8)} {addr : UInt64}
    {bytes : List UInt8} : tableWrite s addr bytes = .ok s' ↔
      (addr.toNat + bytes.length ≤ 2 ^ 64 ∧
        ∀ a, (window addr bytes a).isSome = true → pageOf a ∈ s.1) ∧
      s' = (s.1, complete (window addr bytes) s.2) := by
  unfold tableWrite
  by_cases hfit : addr.toNat + bytes.length ≤ 2 ^ 64
  · have hiff : (∀ i < bytes.length, pageOf (addr + UInt64.ofNat i) ∈ s.1) ↔
        ∀ a, (window addr bytes a).isSome = true → pageOf a ∈ s.1 := by
      simp only [isSome_window_iff_exists hfit]
      constructor
      · rintro h a ⟨i, hi, rfl⟩
        exact h i hi
      · exact fun h i hi ↦ h _ ⟨i, hi, rfl⟩
    rw [← hiff]
    split
    · next hok => exact ⟨fun h ↦ ⟨hok, (Except.ok.inj h).symm⟩, fun h ↦ congrArg Except.ok h.2.symm⟩
    · next hno => exact iff_of_false (fun h ↦ by cases h) fun h ↦ hno h.1
  · rw [if_neg fun h ↦ hfit h.1]
    exact iff_of_false (fun h ↦ by cases h) fun h ↦ hfit h.1.1

theorem disjoint_tableMemMap {s s' : Finset UInt64} {addr size : UInt64}
    (h : tableMemMap s addr size = .ok s') : Disjoint (s : Set UInt64) (requested addr size) := by
  unfold tableMemMap at h
  dsimp only at h
  split at h
  · next hok =>
      rw [Set.disjoint_right]
      intro q hq
      exact hok.2.2.2.2 q ((mem_tablePages hok.1 hok.2.1 hok.2.2.2.1).mpr hq)
  · cases h

/-- An engine that keeps a table of its pages and of the bytes in them. -/
def tableMem : MemEngine where
  State := Finset UInt64 × (UInt64 → UInt8)
  pages s := s.1
  memMap s addr size := (tableMemMap s.1 addr size).map fun pages ↦
    (pages, fun a ↦ if pageOf a ∈ s.1 then s.2 a else 0)
  read s a := if pageOf a ∈ s.1 then some (s.2 a) else none
  memWrite := tableWrite
  pages_memMap h := by
    obtain ⟨pages, hpages, rfl⟩ := map_eq_ok_iff.mp h
    exact tableEngine.pages_memMap hpages
  isSome_read := by
    intro s a
    by_cases ha : pageOf a ∈ s.1 <;> simp [ha]
  disjoint_memMap h := by
    obtain ⟨pages, hpages, -⟩ := map_eq_ok_iff.mp h
    exact disjoint_tableMemMap hpages
  read_memMap := by
    intro s s' addr size h a
    obtain ⟨pages, hpages, rfl⟩ := map_eq_ok_iff.mp h
    have hunion : (pages : Set UInt64) = (s.1 : Set UInt64) ∪ requested addr size :=
      tableEngine.pages_memMap hpages
    have hmem : pageOf a ∈ pages ↔ pageOf a ∈ s.1 ∨ pageOf a ∈ requested addr size := by
      rw [← Finset.mem_coe, hunion, Set.mem_union, Finset.mem_coe]
    have hnew : pageOf a ∈ requested addr size → pageOf a ∉ s.1 := fun hin hold ↦
      Set.disjoint_left.mp (disjoint_tableMemMap hpages) hold hin
    constructor
    · intro ha
      rw [if_pos (hmem.mpr (Or.inr ha))]
      exact congrArg some (if_neg (hnew ha))
    · intro ha
      by_cases hold : pageOf a ∈ s.1
      · rw [if_pos (hmem.mpr (Or.inl hold)), if_pos hold]
        exact congrArg some (if_pos hold)
      · rw [if_neg fun hin ↦ (hmem.mp hin).elim hold ha, if_neg hold]
  read_memWrite := by
    intro s s' addr bytes h
    obtain ⟨⟨hfit, hall⟩, rfl⟩ := tableWrite_ok_iff.mp h
    funext a
    cases hw : window addr bytes a with
    | none =>
        rw [onto, hw, Option.none_or]
        dsimp only
        rw [complete_of_none hw]
    | some b =>
        rw [onto, hw, Option.some_or, if_pos (hall a (by rw [hw]; rfl))]
        exact congrArg some (complete_of_some hw)
  memWrite_ok_iff := by
    intro s addr bytes
    constructor
    · rintro ⟨s', h⟩
      exact (tableWrite_ok_iff.mp h).1
    · exact fun h ↦ ⟨_, tableWrite_ok_iff.mpr ⟨h, rfl⟩⟩
  pages_memWrite h := by
    obtain ⟨-, rfl⟩ := tableWrite_ok_iff.mp h
    rfl

/-- Before anything is mapped. -/
def emptyMem : tableMem.State := ((∅ : Finset UInt64), fun _ ↦ 0)

theorem pages_emptyMem : tableMem.pages emptyMem = ∅ := Finset.coe_empty

theorem tableMem_exact : tableMem.Exact := by
  intro s addr size haddr hsize hpos hfit
  have hexact := tableEngine_exact s.1 addr size haddr hsize hpos hfit
  constructor
  · rintro ⟨s', h⟩
    obtain ⟨pages, hpages, -⟩ := map_eq_ok_iff.mp h
    exact hexact.mp ⟨pages, hpages⟩
  · intro h
    obtain ⟨pages, hpages⟩ := hexact.mpr h
    exact ⟨_, map_eq_ok_iff.mpr ⟨pages, hpages, rfl⟩⟩

/-! ## One region -/

/-- Every byte of a region below the last page is in its pages. -/
theorem pageOf_mem_regionPages {start len a : UInt64} (hlow : start.toNat ≤ a.toNat)
    (hhigh : a.toNat < start.toNat + len.toNat)
    (htop : start.toNat + len.toNat ≤ 2 ^ 64 - 4096) : pageOf a ∈ regionPages start len := by
  rw [mem_regionPages, firstPage, toNat_pageOf, toNat_pageOf, toNat_lastPage]
  exact ⟨pageAligned_pageOf a, by omega, by omega⟩

theorem topPage_notMem_regionPages (start len : UInt64) : topPage ∉ regionPages start len := by
  intro h
  have hbelow := span_regionPages.below topPage h
  have htop : topPage.toNat = 2 ^ 64 - 4096 := rfl
  omega

/-- Bytes written over the setup leave it steady. -/
theorem Steady.write {st : Setup e.toEngine} (h : Steady st) {engine : e.State} {addr : UInt64}
    {bytes : List UInt8} (hwrite : e.memWrite st.engine addr bytes = .ok engine) :
    Steady { st with engine := engine } := by
  have hpages := e.pages_memWrite hwrite
  refine ⟨?_, ⟨?_, h.none_twice.disjoint⟩⟩
  · exact hpages.trans h.mirrors
  · intro c hc
    exact (h.none_twice.held c hc).trans hpages.ge

theorem exists_setRegion (he : e.Exact) (seed : UInt64) {st : Setup e.toEngine} (hst : Steady st)
    {r : SetupRegion} (hruns : Runs.count st.free false (regionPages r.start r.len) ≤ r.maxRuns)
    (hfit : (r.contents seed).1.toNat + (r.contents seed).2.length ≤ 2 ^ 64)
    (hin : ∀ a, (window (r.contents seed).1 (r.contents seed).2 a).isSome = true →
      pageOf a ∈ regionPages r.start r.len) :
    ∃ st', setRegion e seed st r = .ok st' ∧ Steady st' ∧
      ∃ st₁ runs, ensurePages e.toEngine st r.start r.len = .ok (st₁, runs) ∧
        st'.mapped = st₁.mapped := by
  obtain ⟨st₁, runs, hpages, -, hsteady⟩ := hst.step he hruns
  have hmapped := (ensurePages_ok hpages).1
  have hreached : ∀ a, (window (r.contents seed).1 (r.contents seed).2 a).isSome = true →
      pageOf a ∈ e.pages st₁.engine := by
    intro a ha
    have hmirrors : e.pages st₁.engine = st₁.mapped := hsteady.mirrors
    rw [hmirrors, hmapped, Finset.mem_coe, Finset.mem_union, List.mem_toFinset]
    exact Or.inr (hin a ha)
  obtain ⟨engine, hwrite⟩ := e.memWrite_ok_iff.mpr ⟨hfit, hreached⟩
  refine ⟨{ st₁ with engine := engine }, ?_, hsteady.write hwrite, st₁, runs, hpages, rfl⟩
  have hregion : mapRegion e.toEngine st r = .ok st₁ := by
    rw [mapRegion, hpages]
    rfl
  exact bind_eq_ok_iff.mpr ⟨st₁, hregion, bind_eq_ok_iff.mpr ⟨engine, hwrite, rfl⟩⟩

/-! ## Argument buffers and the stack -/

theorem contents_argBuffer (seed : UInt64) {k : ℕ} (hk : k < nargs) (a : UInt64)
    (ha : (window ((SetupRegion.argBuffer k).contents seed).1
      ((SetupRegion.argBuffer k).contents seed).2 a).isSome = true) :
    pageOf a ∈ regionPages (argBase k) argSize := by
  have hbound : ∀ k < nargs, (argBase k).toNat + argSize.toNat ≤ 2 ^ 64 - 4096 := by decide
  obtain ⟨hlow, hhigh⟩ := isSome_window_iff.mp ha
  rw [SetupRegion.contents, length_fillBytes] at hhigh
  exact pageOf_mem_regionPages hlow hhigh (hbound k hk)

theorem contents_stack (seed a : UInt64)
    (ha : (window (SetupRegion.stack.contents seed).1
      (SetupRegion.stack.contents seed).2 a).isSome = true) :
    pageOf a ∈ regionPages stackBase stackSize := by
  obtain ⟨hlow, hhigh⟩ := isSome_window_iff.mp ha
  have hbase : stackBase.toNat = 0x2000000000 := rfl
  have hsize : stackSize.toNat = 0x40000 := rfl
  have hrsp : rsp0.toNat = 0x2000020000 := rfl
  rw [SetupRegion.contents, length_leBytes] at hhigh
  rw [SetupRegion.contents] at hlow
  dsimp only at hlow hhigh
  apply pageOf_mem_regionPages <;> omega

theorem exists_setup_stack (he : e.Exact) (seed : UInt64) {st : Setup e.toEngine}
    (hst : Steady st) : ∃ st', [SetupRegion.stack].foldlM (setRegion e seed) st = .ok st' := by
  have hruns : Runs.count st.free false (regionPages stackBase stackSize) ≤ 32 :=
    count_regionPages_le st _ _ length_stack
  obtain ⟨st', hset, -⟩ := exists_setRegion he seed hst (r := .stack) hruns
    (by rw [SetupRegion.contents, length_leBytes]; decide) (contents_stack seed)
  exact ⟨st', foldlM_cons_eq_ok_iff.mpr ⟨st', hset, rfl⟩⟩

theorem exists_setup_argBuffers (he : e.Exact) (seed : UInt64) {ks : List ℕ}
    (hks : ∀ k ∈ ks, k < nargs) {st : Setup e.toEngine} (hst : Steady st) :
    ∃ st', (ks.map SetupRegion.argBuffer ++ [SetupRegion.stack]).foldlM (setRegion e seed) st =
      .ok st' := by
  induction ks generalizing st with
  | nil => exact exists_setup_stack he seed hst
  | cons k ks ih =>
      obtain ⟨hk, hrest⟩ := List.forall_mem_cons.mp hks
      have hfit : ∀ k < nargs, (argBase k).toNat + argSize.toNat ≤ 2 ^ 64 := by decide
      obtain ⟨st', hset, hst', -⟩ := exists_setRegion he seed hst (r := .argBuffer k)
        (count_regionPages_le st _ _ (length_argBuffer k hk))
        (by rw [SetupRegion.contents, length_fillBytes]; exact hfit k hk)
        (contents_argBuffer seed hk)
      obtain ⟨st'', hrest'⟩ := ih hrest hst'
      exact ⟨st'', foldlM_cons_eq_ok_iff.mpr ⟨st', hset, hrest'⟩⟩

/-! ## Segments -/

theorem Below.congr {E : Engine} {st st' : Setup E} {v : UInt64} (h : Below st v)
    (hmapped : st'.mapped = st.mapped) : Below st' v := fun q hq ↦ h q (hmapped ▸ hq)

/-- A segment that stays below the last page, or has nothing to write there. -/
def Segment.Placed (s : Segment) : Prop :=
  s.bytes = [] ∨ s.vaddr.toNat + s.bytes.length ≤ 2 ^ 64 - 4096

instance (s : Segment) : Decidable s.Placed := inferInstanceAs (Decidable (_ ∨ _))

theorem exists_setup_segments (he : e.Exact) (seed : UInt64) {segments : List Segment}
    {rest : List SetupRegion}
    (hrest : ∀ st : Setup e.toEngine, Steady st →
      ∃ st', rest.foldlM (setRegion e seed) st = .ok st')
    (hlen : ∀ s ∈ segments, s.bytes.length < 2 ^ 64)
    (hsorted : segments.Pairwise fun s t ↦ satAdd s.vaddr.toNat s.bytes.length ≤ t.vaddr.toNat)
    (hplaced : ∀ s ∈ segments, s.Placed) {st : Setup e.toEngine} (hst : Steady st)
    (hbelow : ∀ s ∈ segments, Below st s.vaddr) :
    ∃ st', (segments.map SetupRegion.segment ++ rest).foldlM (setRegion e seed) st = .ok st' := by
  induction segments generalizing st with
  | nil => exact hrest st hst
  | cons s segments ih =>
      obtain ⟨hs, hlens⟩ := List.forall_mem_cons.mp hlen
      obtain ⟨hnext, htail⟩ := List.pairwise_cons.mp hsorted
      obtain ⟨hplace, hplaces⟩ := List.forall_mem_cons.mp hplaced
      obtain ⟨hbelows, hbelowt⟩ := List.forall_mem_cons.mp hbelow
      have hlength : (UInt64.ofNat s.bytes.length).toNat = s.bytes.length := toNat_ofNat64 hs
      have hfit : s.vaddr.toNat + s.bytes.length ≤ 2 ^ 64 := by
        have hlt := s.vaddr.toNat_lt
        rcases hplace with hnil | hle
        · rw [hnil, List.length_nil]
          omega
        · omega
      have hin : ∀ a, (window s.vaddr s.bytes a).isSome = true →
          pageOf a ∈ regionPages s.vaddr (UInt64.ofNat s.bytes.length) := by
        intro a ha
        obtain ⟨hlow, hhigh⟩ := isSome_window_iff.mp ha
        rcases hplace with hnil | hle
        · rw [hnil, List.length_nil] at hhigh
          omega
        · exact pageOf_mem_regionPages hlow (by omega) (by omega)
      obtain ⟨st', hset, hst', st₁, runs, hpages, hmapped⟩ :=
        exists_setRegion he seed hst (r := .segment s) (hbelows.count_le_one _) hfit hin
      have hbelow' : ∀ t ∈ segments, Below st' t.vaddr := by
        intro t ht
        refine ((hbelowt t ht).step hpages ?_).congr hmapped
        rw [SetupRegion.start, SetupRegion.len, hlength]
        exact hnext t ht
      obtain ⟨st'', hrest'⟩ := ih hlens htail hplaces hst' hbelow'
      exact ⟨st'', foldlM_cons_eq_ok_iff.mpr ⟨st', hset, hrest'⟩⟩

theorem isSome_setupByte {seed a : UInt64} {r : SetupRegion} {rs : List SetupRegion} (hr : r ∈ rs)
    (ha : (window (r.contents seed).1 (r.contents seed).2 a).isSome = true) :
    (setupByte seed rs a).isSome = true :=
  List.findSome?_isSome_iff.mpr ⟨r, List.mem_reverse.mpr hr, ha⟩

/-- Once the setup has succeeded, every segment has its place. -/
theorem placed_of_setupMemory {seed : UInt64} {image : Image} {s : e.State} (hs : e.pages s = ∅)
    {st : Setup e.toEngine} (h : setupMemory e seed image s = .ok st) :
    ∀ t ∈ image.segments, t.Placed := by
  intro t ht
  have hfilled : FilledIn e seed (regions image) (Setup.fresh e.toEngine s) st :=
    filledIn_foldlM (Setup.mirrors_fresh hs) h
  unfold Segment.Placed
  by_contra hno
  obtain ⟨hne, hhigh⟩ := not_or.mp hno
  have hpos := List.length_pos_of_ne_nil hne
  -- a byte of the segment in the last page
  obtain ⟨a, ha⟩ : ∃ a : UInt64, a.toNat = max t.vaddr.toNat (2 ^ 64 - 4096) := by
    have hlt := t.vaddr.toNat_lt
    exact ⟨_, toNat_ofNat64 (by omega)⟩
  have hwindow : (window t.vaddr t.bytes a).isSome = true :=
    isSome_window_iff.mpr ⟨by omega, by omega⟩
  have hregion : SetupRegion.segment t ∈ regions image :=
    List.mem_append_left _ (List.mem_map.mpr ⟨t, ht, rfl⟩)
  have hin := hfilled.reached a (isSome_setupByte hregion hwindow)
  have htop : pageOf a = topPage := by
    have hlt := a.toNat_lt
    have htoNat : topPage.toNat = 2 ^ 64 - 4096 := rfl
    rw [← UInt64.toNat_inj, toNat_pageOf, htoNat]
    omega
  rw [hfilled.mapped, htop, Finset.mem_union, List.mem_toFinset, List.mem_flatMap] at hin
  rcases hin with hin | ⟨r, -, hin⟩
  · exact Finset.notMem_empty _ hin
  · exact topPage_notMem_regionPages _ _ hin

/-- For an accepted image, the memory of a run can be set up exactly when no
segment has bytes in the last page of the address space. -/
theorem setupMemory_ok_iff (e : MemEngine) (he : e.Exact) {s : e.State} (hs : e.pages s = ∅)
    (seed : UInt64) {p : Parsers} {bytes : List UInt8} {l : Loaded} (h : load p bytes = .ok l) :
    (∃ st, setupMemory e seed l.image s = .ok st) ↔ ∀ t ∈ l.image.segments, t.Placed := by
  obtain ⟨hlen, hsorted⟩ := segments_of_load h
  constructor
  · rintro ⟨st, hst⟩
    exact placed_of_setupMemory hs hst
  · intro hplaced
    have hrest : ∀ st : Setup e.toEngine, Steady st →
        ∃ st', ((List.range nargs).map SetupRegion.argBuffer ++ [SetupRegion.stack]).foldlM
          (setRegion e seed) st = .ok st' :=
      fun st hst ↦ exists_setup_argBuffers he seed (fun k hk ↦ List.mem_range.mp hk) hst
    exact exists_setup_segments he seed hrest hlen hsorted hplaced (steady_fresh hs)
      fun t _ q hq ↦ (Finset.notMem_empty q hq).elim

/-- Bytes in the last page of the address space. -/
def topBytes : List ProgramHeader := [⟨ptLoad, 5, 0, 0xfffffffffffff000, 32, 32⟩]

/-- Segments with a page in common are set up, bytes in the last page are not. -/
theorem setupMemory_ok_iff_shared :
    (∃ l, loadCraft sharedPage = .ok l ∧ ∃ st, setupMemory tableMem 7 l.image emptyMem = .ok st) ∧
      ∃ l, loadCraft topBytes = .ok l ∧
        ¬∃ st, setupMemory tableMem 7 l.image emptyMem = .ok st := by
  have hshared : (loadCraft sharedPage).toOption.map (fun l ↦
      decide (∀ t ∈ l.image.segments, t.Placed)) = some true := by decide +kernel
  have htop : (loadCraft topBytes).toOption.map (fun l ↦
      decide (∀ t ∈ l.image.segments, t.Placed)) = some false := by decide +kernel
  obtain ⟨l, hl, hplaced⟩ := Option.map_eq_some_iff.mp hshared
  obtain ⟨l', hl', hhigh⟩ := Option.map_eq_some_iff.mp htop
  have hload := eq_ok_of_toOption hl
  have hload' := eq_ok_of_toOption hl'
  refine ⟨⟨l, hload, ?_⟩, l', hload', ?_⟩
  · rw [setupMemory_ok_iff tableMem tableMem_exact pages_emptyMem 7 hload]
    exact of_decide_eq_true hplaced
  · rw [setupMemory_ok_iff tableMem tableMem_exact pages_emptyMem 7 hload']
    exact of_decide_eq_false hhigh

end Fnprint
