import Fnprint.Lib.Fallible
import Fnprint.Loader
import Fnprint.Trace

/-!
# The layout of accepted images

An accepted image has one segment for each PT_LOAD header, in address order.
The true extent of a segment is the larger of its clamped file window and its
memory size, while the wrap check looks at the memory size alone and the
overlap check saturates; the exact condition on the headers is stated here.
-/

namespace Fnprint

open StableSort Fallible

/-! ## What the first pass lets through -/

def loads (headers : List ProgramHeader) : List ProgramHeader :=
  headers.filter fun ph ↦ ph.pType == ptLoad

theorem loads_cons (ph : ProgramHeader) (headers : List ProgramHeader) :
    loads (ph :: headers) = if ph.pType = ptLoad then ph :: loads headers else loads headers := by
  by_cases h : ph.pType = ptLoad <;> simp [loads, h]

/-- The true extent of a header over a file of some length. -/
def extent (len : ℕ) (ph : ProgramHeader) : ℕ := (planOf len ph).allocLen

/-- What one header does to the first pass when it is not refused. -/
theorem planStep_ok {len : ℕ} {ps ps' : List Plan} {t t' : ℕ} {ph : ProgramHeader}
    (h : planStep len (ps, t) ph = .ok (ps', t')) :
    (ph.pType ≠ ptLoad ∧ ps' = ps ∧ t' = t) ∨
    (ph.pType = ptLoad ∧ ps' = ps ++ [planOf len ph] ∧ t' = satAdd t (extent len ph) ∧
      ph.pMemsz.toNat ≤ maxSegMem ∧ ph.pVaddr.toNat + ph.pMemsz.toNat < 2 ^ 64 ∧
      t' ≤ maxTotalMem ∧ ps'.length ≤ maxLoadSegs) := by
  unfold planStep at h
  dsimp only at h
  split at h
  · rename_i htype
    obtain ⟨rfl, rfl⟩ := Prod.mk.inj (Except.ok.inj h)
    exact Or.inl ⟨by simpa using htype, rfl, rfl⟩
  · rename_i htype
    split at h
    · cases h
    · split at h
      · cases h
      · split at h
        · cases h
        · split at h
          · cases h
          · obtain ⟨rfl, rfl⟩ := Prod.mk.inj (Except.ok.inj h)
            right
            exact ⟨by simpa using htype, rfl, rfl, by omega, by omega,
              by omega, by omega⟩

theorem foldlM_planStep_ok {len : ℕ} {headers : List ProgramHeader} {ps ps' : List Plan}
    {t t' : ℕ} (h : headers.foldlM (planStep len) (ps, t) = .ok (ps', t')) :
    ps' = ps ++ (loads headers).map (planOf len) ∧
      ∀ ph ∈ loads headers, extent len ph ≤ maxTotalMem := by
  induction headers generalizing ps t with
  | nil =>
      obtain ⟨rfl, rfl⟩ := Prod.mk.inj (Except.ok.inj h)
      simp [loads]
  | cons ph headers ih =>
      obtain ⟨⟨ps₁, t₁⟩, hstep, hrest⟩ := foldlM_cons_eq_ok_iff.mp h
      obtain ⟨hplans, hextent⟩ := ih hrest
      rcases planStep_ok hstep with ⟨htype, rfl, -⟩ | ⟨htype, rfl, rfl, -, -, hmem, -⟩
      · rw [loads_cons, if_neg htype]
        exact ⟨hplans, hextent⟩
      · rw [loads_cons, if_pos htype, List.forall_mem_cons, List.map_cons, List.append_cons]
        refine ⟨hplans, ?_, hextent⟩
        unfold satAdd maxTotalMem at hmem
        unfold maxTotalMem
        omega

/-- The accepted plans are the PT_LOAD headers, in file order, and none is
larger than all the memory allowed. -/
theorem plans_ok {len : ℕ} {headers : List ProgramHeader} {ps : List Plan}
    (h : plans len headers = .ok ps) : ps = (loads headers).map (planOf len) ∧
      ∀ ph ∈ loads headers, extent len ph ≤ maxTotalMem := by
  obtain ⟨⟨ps', t'⟩, hfold, h⟩ := bind_eq_ok_iff.mp h
  dsimp only at h
  split at h
  · cases h
  · rw [← Except.ok.inj h]
    exact foldlM_planStep_ok hfold

theorem stop_planOf_le (len : ℕ) (ph : ProgramHeader) : (planOf len ph).stop ≤ len :=
  Nat.min_le_right _ _

theorem length_segmentOf (bytes : List UInt8) (ph : ProgramHeader) :
    (segmentOf bytes (planOf bytes.length ph)).bytes.length = extent bytes.length ph := by
  have hstop := stop_planOf_le bytes.length ph
  unfold segmentOf extent Plan.allocLen
  simp only [List.length_append, List.length_take, List.length_drop, List.length_replicate]
  omega

@[simp] theorem vaddr_segmentOf (bytes : List UInt8) (len : ℕ) (ph : ProgramHeader) :
    (segmentOf bytes (planOf len ph)).vaddr = ph.pVaddr := rfl

/-! ## Sound layouts -/

/-- The true address range of a segment. -/
def Segment.range (s : Segment) : Set ℕ :=
  Set.Ico s.vaddr.toNat (s.vaddr.toNat + s.bytes.length)

/-- Address order, no wrap past the top, and pairwise disjoint true ranges. -/
structure SoundLayout (segments : List Segment) : Prop where
  sorted : segments.Pairwise fun s t ↦ s.vaddr ≤ t.vaddr
  no_wrap : ∀ s ∈ segments, s.vaddr.toNat + s.bytes.length ≤ 2 ^ 64
  disjoint : segments.Pairwise fun s t ↦ Disjoint s.range t.range

/-- Two extents that both hold the last byte of the address space. -/
def BothReachTop (s t : Segment) : Prop :=
  0 < s.bytes.length ∧ 0 < t.bytes.length ∧ s.vaddr.toNat + s.bytes.length = 2 ^ 64 ∧
    t.vaddr.toNat + t.bytes.length = 2 ^ 64

/-- What the saturating check establishes, beyond neighbours. -/
theorem pairwise_of_checkOverlap :
    ∀ {segments : List Segment}, segments.Pairwise (fun s t ↦ s.vaddr ≤ t.vaddr) →
      checkOverlap segments = .ok () →
      segments.Pairwise fun s t ↦ satAdd s.vaddr.toNat s.bytes.length ≤ t.vaddr.toNat
  | [], _, _ => List.Pairwise.nil
  | [s], _, _ => List.pairwise_singleton _ s
  | s :: t :: rest, hsorted, h => by
      rw [checkOverlap] at h
      split at h
      · cases h
      · rename_i hst
        obtain ⟨-, htail⟩ := List.pairwise_cons.mp hsorted
        refine List.pairwise_cons.mpr ⟨fun u hu ↦ ?_, pairwise_of_checkOverlap htail h⟩
        rcases List.mem_cons.mp hu with rfl | hu
        · omega
        · have htu := UInt64.le_iff_toNat_le.mp ((List.pairwise_cons.mp htail).1 u hu)
          omega

/-- With extents below the top, the check misses only a shared last byte. -/
theorem disjoint_iff_of_satAdd_le {s t : Segment}
    (hs : s.vaddr.toNat + s.bytes.length ≤ 2 ^ 64) (ht : t.vaddr.toNat + t.bytes.length ≤ 2 ^ 64)
    (h : satAdd s.vaddr.toNat s.bytes.length ≤ t.vaddr.toNat) :
    Disjoint s.range t.range ↔ ¬BothReachTop s t := by
  have hv := t.vaddr.toNat_lt
  have hmin : satAdd s.vaddr.toNat s.bytes.length = s.vaddr.toNat + s.bytes.length ∨
      satAdd s.vaddr.toNat s.bytes.length = 2 ^ 64 - 1 := by
    unfold satAdd
    omega
  rw [Set.disjoint_left]
  constructor
  · rintro hdisj ⟨hs0, ht0, hstop, httop⟩
    exact hdisj (a := 2 ^ 64 - 1) ⟨by omega, by omega⟩ ⟨by omega, by omega⟩
  · rintro hnot x ⟨hx₁, hx₂⟩ ⟨hx₃, hx₄⟩
    unfold satAdd at h
    exact hnot ⟨by omega, by omega, by omega, by omega⟩

theorem soundLayout_iff {segments : List Segment}
    (hsorted : segments.Pairwise fun s t ↦ s.vaddr ≤ t.vaddr)
    (hcheck : checkOverlap segments = .ok ()) :
    SoundLayout segments ↔
      (∀ s ∈ segments, s.vaddr.toNat + s.bytes.length ≤ 2 ^ 64) ∧
        segments.Pairwise fun s t ↦ ¬BothReachTop s t := by
  have hpair := pairwise_of_checkOverlap hsorted hcheck
  constructor
  · intro h
    refine ⟨h.no_wrap, ?_⟩
    refine List.Pairwise.imp_of_mem ?_ (hpair.and h.disjoint)
    rintro s t hs ht ⟨hst, hdisj⟩
    exact (disjoint_iff_of_satAdd_le (h.no_wrap s hs) (h.no_wrap t ht) hst).mp hdisj
  · rintro ⟨hwrap, htop⟩
    refine ⟨hsorted, hwrap, ?_⟩
    refine List.Pairwise.imp_of_mem ?_ (hpair.and htop)
    rintro s t hs ht ⟨hst, hnot⟩
    exact (disjoint_iff_of_satAdd_le (hwrap s hs) (hwrap t ht) hst).mpr hnot

/-! ## The condition on the headers -/

/-- The headers keep every extent below the top of the address space, and at
most one nonempty extent reaches it. -/
structure HeadersFit (len : ℕ) (headers : List ProgramHeader) : Prop where
  no_wrap : ∀ ph ∈ loads headers, ph.pVaddr.toNat + extent len ph ≤ 2 ^ 64
  one_top : (loads headers).Pairwise fun p q ↦
    ¬(0 < extent len p ∧ 0 < extent len q ∧ p.pVaddr.toNat + extent len p = 2 ^ 64 ∧
      q.pVaddr.toNat + extent len q = 2 ^ 64)

/-- The segments of an accepted file, before they are sorted. -/
theorem loadSegments_ok {bytes : List UInt8} {headers : List ProgramHeader}
    {segments : List Segment} (h : loadSegments bytes headers = .ok segments) :
    segments = sortBy (byKey Segment.vaddr compare)
      ((loads headers).map fun ph ↦ segmentOf bytes (planOf bytes.length ph)) ∧
      checkOverlap segments = .ok () := by
  obtain ⟨ps, hplans, h⟩ := bind_eq_ok_iff.mp h
  obtain ⟨u, hcheck, h⟩ := bind_eq_ok_iff.mp h
  rw [(plans_ok hplans).1, List.map_map] at hcheck h
  obtain rfl := Except.ok.inj h
  exact ⟨rfl, hcheck⟩

theorem mem_loadSegments {bytes : List UInt8} {headers : List ProgramHeader}
    {segments : List Segment} (h : loadSegments bytes headers = .ok segments) {s : Segment} :
    s ∈ segments ↔ ∃ ph ∈ loads headers, segmentOf bytes (planOf bytes.length ph) = s := by
  rw [(loadSegments_ok h).1, mem_sortBy, List.mem_map]

theorem extent_le_of_loadSegments {bytes : List UInt8} {headers : List ProgramHeader}
    {segments : List Segment} (h : loadSegments bytes headers = .ok segments) :
    ∀ ph ∈ loads headers, extent bytes.length ph ≤ maxTotalMem := by
  obtain ⟨ps, hplans, -⟩ := bind_eq_ok_iff.mp h
  exact (plans_ok hplans).2

theorem loadSegments_sound_iff {bytes : List UInt8} {headers : List ProgramHeader}
    {segments : List Segment} (h : loadSegments bytes headers = .ok segments) :
    SoundLayout segments ↔ HeadersFit bytes.length headers := by
  obtain ⟨hseg, hcheck⟩ := loadSegments_ok h
  set copies := (loads headers).map fun ph ↦ segmentOf bytes (planOf bytes.length ph) with hcopies
  have hperm : segments.Perm copies := by
    rw [hseg]
    exact perm_sortBy _ _
  have hsorted : segments.Pairwise fun s t ↦ s.vaddr ≤ t.vaddr := by
    rw [hseg]
    refine (pairwise_sortBy (byKey Segment.vaddr compare) copies).imp fun hst ↦ ?_
    exact Std.isLE_compare.mp hst
  have hsymm : ∀ {s t : Segment}, ¬BothReachTop s t → ¬BothReachTop t s :=
    fun hst hts ↦ hst ⟨hts.2.1, hts.1, hts.2.2.2, hts.2.2.1⟩
  rw [soundLayout_iff hsorted hcheck, hperm.pairwise_iff hsymm, hcopies, List.pairwise_map]
  constructor
  · rintro ⟨hwrap, htop⟩
    refine ⟨fun ph hph ↦ ?_, htop.imp fun hpq ↦ ?_⟩
    · have := hwrap _ (hperm.mem_iff.mpr (List.mem_map_of_mem hph))
      rwa [length_segmentOf] at this
    · simpa only [BothReachTop, length_segmentOf, vaddr_segmentOf] using hpq
  · rintro ⟨hwrap, htop⟩
    refine ⟨fun s hs ↦ ?_, htop.imp fun hpq ↦ ?_⟩
    · obtain ⟨ph, hph, rfl⟩ := List.mem_map.mp (hperm.mem_iff.mp hs)
      rw [length_segmentOf]
      exact hwrap ph hph
    · simpa only [BothReachTop, length_segmentOf, vaddr_segmentOf] using hpq

theorem load_ok {p : Parsers} {bytes : List UInt8} {l : Loaded} (h : load p bytes = .ok l) :
    ∃ elf arch segments, p.elf bytes = some elf ∧ archOf elf.eMachine = .ok arch ∧
      loadSegments bytes elf.programHeaders = .ok segments ∧
      l.image = ⟨segments, elf.eEntry, elf.eType == 3, arch⟩ ∧
      l.funcs = sortFuncs (discover p elf bytes) ∧ l.imports = pltImports elf bytes arch := by
  unfold load at h
  cases helf : p.elf bytes with
  | none => simp [helf] at h
  | some elf =>
      simp only [helf] at h
      obtain ⟨arch, harch, h⟩ := bind_eq_ok_iff.mp h
      obtain ⟨segments, hseg, h⟩ := bind_eq_ok_iff.mp h
      obtain rfl := Except.ok.inj h
      exact ⟨elf, arch, segments, rfl, harch, hseg, rfl, rfl, rfl⟩

/-- An accepted image has a sound layout exactly when its headers fit. -/
theorem load_soundLayout_iff {p : Parsers} {bytes : List UInt8} {elf : Elf} {l : Loaded}
    (helf : p.elf bytes = some elf) (h : load p bytes = .ok l) :
    SoundLayout l.image.segments ↔ HeadersFit bytes.length elf.programHeaders := by
  obtain ⟨elf', arch, segments, helf', -, hseg, himage, -⟩ := load_ok h
  obtain rfl : elf' = elf := Option.some.inj (helf'.symm.trans helf)
  rw [himage]
  exact loadSegments_sound_iff hseg

/-! ## Crafted files -/

/-- A program header as a 64-bit file stores it. -/
def headerBytes (ph : ProgramHeader) : List UInt8 :=
  (Fnv.leBytes ph.pType.toUInt64).take 4 ++ (Fnv.leBytes ph.pFlags.toUInt64).take 4 ++
    Fnv.leBytes ph.pOffset ++ Fnv.leBytes ph.pVaddr ++ List.replicate 8 0 ++
    Fnv.leBytes ph.pFilesz ++ Fnv.leBytes ph.pMemsz ++ Fnv.leBytes 0x1000

/-- A minimal 64-bit x86-64 file with some program headers. -/
def craftElf (headers : List ProgramHeader) : List UInt8 :=
  [0x7f, 0x45, 0x4c, 0x46, 2, 1, 1] ++ List.replicate 9 0 ++ [2, 0, 62, 0, 1, 0, 0, 0] ++
    List.replicate 8 0 ++ Fnv.leBytes 64 ++ List.replicate 12 0 ++
    [64, 0, 56, 0, UInt8.ofNat headers.length, 0] ++ List.replicate 6 0 ++
    headers.flatMap headerBytes

/-- What a parser reports of such a file. -/
def craftParsers (headers : List ProgramHeader) : Parsers :=
  { elf := fun _ ↦ some
      { eMachine := 62, eType := 2, eEntry := 0
        programHeaders := headers
        sectionHeaders := [], syms := [], dynsyms := []
        strtab := fun _ ↦ none, dynstrtab := fun _ ↦ none, shdrStrtab := fun _ ↦ none
        pltrelocs := [], dynrelas := [], dynrels := [] }
    ehEntries := fun _ _ ↦ [] }

/-- Loading the file of some headers. -/
def loadCraft (headers : List ProgramHeader) : Except String Loaded :=
  load (craftParsers headers) (craftElf headers)

theorem exists_loadCraft {headers : List ProgramHeader} (h : (loadCraft headers).isOk = true) :
    ∃ l, loadCraft headers = .ok l := by
  cases hl : loadCraft headers with
  | error e =>
      rw [hl] at h
      cases h
  | ok l => exact ⟨l, rfl⟩

theorem load_soundLayout_iff_small :
    ∃ l, loadCraft [⟨ptLoad, 5, 0, 0x1000, 32, 64⟩] = .ok l ∧
      (SoundLayout l.image.segments ↔ HeadersFit
        (craftElf [⟨ptLoad, 5, 0, 0x1000, 32, 64⟩]).length [⟨ptLoad, 5, 0, 0x1000, 32, 64⟩]) := by
  obtain ⟨l, hl⟩ := @exists_loadCraft [⟨ptLoad, 5, 0, 0x1000, 32, 64⟩] (by decide +kernel)
  exact ⟨l, hl, load_soundLayout_iff rfl hl⟩

/-- A file window at the top of the address space with no memory size: the
wrap check sees nothing and the segment runs past the top. -/
theorem load_window_past_top :
    ∃ l, loadCraft [⟨ptLoad, 5, 0, 0xfffffffffffffff0, 4096, 0⟩] = .ok l ∧
      ¬SoundLayout l.image.segments := by
  obtain ⟨l, hl⟩ := @exists_loadCraft [⟨ptLoad, 5, 0, 0xfffffffffffffff0, 4096, 0⟩]
    (by decide +kernel)
  refine ⟨l, hl, fun hsound ↦ ?_⟩
  obtain ⟨elf, arch, segments, helf, -, hseg, himage, -⟩ := load_ok hl
  obtain rfl := Option.some.inj helf
  rw [himage] at hsound
  have hfit := ((loadSegments_sound_iff hseg).mp hsound).no_wrap _ (List.mem_cons_self)
  revert hfit
  decide +kernel

end Fnprint
