import Fnprint.Lib.Fallible
import Fnprint.Strip
import Fnprint.Sweep

/-!
# The sweeps of an accepted file

A sweep computes the address it disassembles at by a checked addition, so it
aborts on a body that runs past the top of the address space.  The headers of
an accepted file decide whether there is such a body.
-/

namespace Fnprint

open Checked

/-- A run of consecutive nonempty instructions inside the bytes. -/
def Disasm.Ok (cs : Disasm) : Prop :=
  ∀ bytes addr insns, cs bytes addr = some insns →
    (∀ insn ∈ insns, insn.bytes ≠ []) ∧ insns.flatMap Insn.bytes <+: bytes

/-! ## A body below the top -/

section Decoding

variable {σ : Type} {visit : σ → Insn → Option σ}

theorem exists_visitRun (hvisit : ∀ s insn, insn.bytes ≠ [] → (visit s insn).isSome) :
    ∀ {insns : List Insn} {p : σ × ℕ}, (∀ insn ∈ insns, insn.bytes ≠ []) →
      p.2 + (insns.flatMap Insn.bytes).length < 2 ^ 64 →
      ∃ q, visitRun visit insns p = some q ∧ q.2 = p.2 + (insns.flatMap Insn.bytes).length
  | [], p, _, _ => ⟨p, rfl, rfl⟩
  | insn :: insns, p, hne, hlen => by
      obtain ⟨hhead, htail⟩ := List.forall_mem_cons.mp hne
      rw [List.flatMap_cons, List.length_append] at hlen
      obtain ⟨s, hs⟩ := Option.isSome_iff_exists.mp (hvisit p.1 insn hhead)
      have hadv : addSize p.2 insn.bytes.length = some (p.2 + insn.bytes.length) :=
        if_pos (by omega)
      obtain ⟨q, hq, hsum⟩ := exists_visitRun hvisit (p := (s, p.2 + insn.bytes.length)) htail
        (by dsimp only; omega)
      refine ⟨q, ?_, ?_⟩
      · rw [visitRun, hadv, Option.bind_eq_bind, Option.bind_some, hs]
        exact hq
      · rw [hsum, List.flatMap_cons, List.length_append, Nat.add_assoc]

theorem inside_decodeStep (hvisit : ∀ s insn, insn.bytes ≠ [] → (visit s insn).isSome)
    {cs : Disasm} (hcs : cs.Ok) {lo : UInt64} {code : List UInt8} (hlen : code.length < 2 ^ 64)
    (hfit : lo.toNat + code.length ≤ 2 ^ 64) :
    Resync.Inside code.length (decodeStep visit cs lo code) := by
  intro off s hoff
  have haddr : add64 lo (UInt64.ofNat off) = some (lo + UInt64.ofNat off) := by
    rw [add64_eq_some_iff, toNat_ofNat64 (by omega)]
    exact ⟨by omega, rfl⟩
  have hrest : sliceFrom code off = some (code.drop off) := if_pos hoff.le
  rw [decodeStep, haddr, hrest]
  simp only [Option.bind_eq_bind, Option.bind_some]
  cases hdis : cs (code.drop off) (lo + UInt64.ofNat off) with
  | none => exact ⟨none, rfl, fun p hp ↦ nomatch hp⟩
  | some insns =>
      obtain ⟨hne, hprefix⟩ := hcs _ _ _ hdis
      have hle := hprefix.length_le
      rw [List.length_drop] at hle
      obtain ⟨q, hq, hsum⟩ := exists_visitRun hvisit (p := (s, 0)) hne (by dsimp only; omega)
      refine ⟨some q, by simp only [hq, Option.bind_some]; rfl, fun p hp ↦ ?_⟩
      obtain rfl := Option.some.inj hp
      rw [hsum]
      dsimp only
      omega

theorem isSome_decodeSweep (hvisit : ∀ s insn, insn.bytes ≠ [] → (visit s insn).isSome)
    {cs : Disasm} (hcs : cs.Ok) {lo : UInt64} {code : List UInt8} (hlen : code.length < 2 ^ 64)
    (hfit : lo.toNat + code.length ≤ 2 ^ 64) (s : σ) : (decodeSweep visit cs lo code s).isSome :=
  Resync.isSome_scan hlen (inside_decodeStep hvisit hcs hlen hfit) 0 s

/-- A disassembler that decodes nothing. -/
def muteDisasm : Disasm := fun _ _ ↦ some []

theorem ok_muteDisasm : muteDisasm.Ok := by
  intro bytes addr insns h
  obtain rfl := Option.some.inj h
  exact ⟨fun insn h ↦ absurd h List.not_mem_nil, List.nil_prefix⟩

/-- A body past the top aborts the sweep that has to step past every byte. -/
theorem decodeSweep_mute_eq_none {lo : UInt64} {code : List UInt8} (hlen : code.length < 2 ^ 64)
    (hpast : 2 ^ 64 < lo.toNat + code.length) (s : σ) :
    decodeSweep visit muteDisasm lo code s = none := by
  have hlo := lo.toNat_lt
  have hword (off : ℕ) (hoff : off < code.length) :
      (UInt64.ofNat off).toNat = off := toNat_ofNat64 (by omega)
  have hcrawl : decodeSweep visit muteDisasm lo code s =
      Resync.scan code.length (decodeStep visit muteDisasm lo code) (2 ^ 64 - lo.toNat) s := by
    apply Resync.scan_crawl (Nat.zero_le _) (by omega) (by omega)
    intro off _ hoff
    have haddr : add64 lo (UInt64.ofNat off) = some (lo + UInt64.ofNat off) := by
      rw [add64_eq_some_iff, hword off (by omega)]
      exact ⟨by omega, rfl⟩
    have hrest : sliceFrom code off = some (code.drop off) := if_pos (by omega)
    rw [decodeStep, haddr, hrest]
    rfl
  have habort : add64 lo (UInt64.ofNat (2 ^ 64 - lo.toNat)) = none := by
    rw [← Option.not_isSome_iff_eq_none, add64_isSome_iff, hword _ (by omega)]
    omega
  rw [hcrawl]
  apply Resync.scan_of_abort (by omega)
  rw [decodeStep, habort]
  rfl

end Decoding

/-! ## The two sweeps -/

theorem wordAt_isSome {b : List UInt8} {i : ℕ} (h : i + 4 ≤ b.length) : (wordAt b i).isSome := by
  rw [wordAt, List.getElem?_eq_getElem (by omega), List.getElem?_eq_getElem (by omega),
    List.getElem?_eq_getElem (by omega), List.getElem?_eq_getElem (by omega)]
  rfl

theorem exists_relTarget (insn : Insn) {i : ℕ} (h : i + 4 ≤ insn.bytes.length) :
    ∃ t, relTarget insn i = some t := by
  obtain ⟨rel, hrel⟩ := Option.isSome_iff_exists.mp (wordAt_isSome h)
  rw [relTarget, hrel]
  exact ⟨_, rfl⟩

theorem x86Call_isSome (image : Image) (imports : KeyMap.Map UInt64 String) (lo hi : UInt64)
    (c : Calls) (insn : Insn) (h : insn.bytes ≠ []) :
    (x86Call image imports lo hi c insn).isSome := by
  have hpos := List.length_pos_of_ne_nil h
  rw [x86Call, List.getElem?_eq_getElem hpos]
  simp only [Option.bind_eq_bind, Option.bind_some]
  split
  · next hcall =>
      obtain ⟨t, ht⟩ := exists_relTarget insn hcall.2
      rw [ht]
      rfl
  · split
    · next hjmp =>
        obtain ⟨t, ht⟩ := exists_relTarget insn hjmp.2.1
        rw [ht]
        rfl
    · split
      · next hslot =>
          rw [List.getElem?_eq_getElem (by omega)]
          simp only [Option.bind_some]
          split
          · obtain ⟨t, ht⟩ := exists_relTarget insn hslot.1
            rw [ht]
            rfl
          · rfl
      · rfl

theorem inside_a64Step (image : Image) (imports : KeyMap.Map UInt64 String) (lo hi : UInt64)
    {code : List UInt8} (hlen : code.length + 4 < 2 ^ 64) :
    Resync.Inside code.length (a64Step image imports lo hi code) := by
  intro i c hi'
  have hnext : addSize i 4 = some (i + 4) := if_pos (by omega)
  rw [a64Step, hnext]
  simp only [Option.bind_eq_bind, Option.bind_some]
  split
  · next hle =>
      obtain ⟨w, hw⟩ := Option.isSome_iff_exists.mp (wordAt_isSome hle)
      rw [hw]
      refine ⟨_, rfl, fun p hp ↦ ?_⟩
      obtain rfl := Option.some.inj hp
      exact hle
  · exact ⟨none, rfl, fun p hp ↦ nomatch hp⟩

theorem Func.sweepLen_le (f : Func) : f.sweepLen ≤ 2 ^ 20 := Nat.min_le_right _ _

/-- One segment holds a window of code. -/
def Segment.HoldsWindow (s : Segment) (vaddr : UInt64) (n : ℕ) : Prop :=
  s.vaddr ≤ vaddr ∧ vaddr.toNat + n ≤ s.vaddr.toNat + s.bytes.length

section Code

variable {image : Image} {vaddr : UInt64} {n : ℕ}

theorem length_of_codeAt {code : List UInt8} (h : image.codeAt vaddr n = some code) :
    code.length = n := by
  obtain ⟨s, -, hs⟩ := List.exists_of_findSome?_eq_some h
  dsimp only at hs
  split at hs
  · cases hs
  · split at hs
    · next hfit =>
        obtain rfl := Option.some.inj hs
        rw [List.length_take, List.length_drop]
        omega
    · cases hs

/-- Code is found when a segment, none of them past the largest word, holds it. -/
theorem codeAt_isSome_iff (hlen : ∀ s ∈ image.segments, s.bytes.length < 2 ^ 64) :
    (image.codeAt vaddr n).isSome ↔ ∃ s ∈ image.segments, s.HoldsWindow vaddr n := by
  rw [Image.codeAt, List.findSome?_isSome_iff]
  refine exists_congr fun s ↦ and_congr_right fun hs ↦ ?_
  have hword := hlen s hs
  by_cases hv : s.vaddr ≤ vaddr
  · have hsub : (vaddr - s.vaddr).toNat = vaddr.toNat - s.vaddr.toNat :=
      UInt64.toNat_sub_of_le _ _ hv
    have hnat := UInt64.le_iff_toNat_le.mp hv
    rw [if_neg (UInt64.not_lt.mpr hv)]
    dsimp only
    rw [hsub]
    constructor
    · intro h
      split at h
      · exact ⟨hv, by omega⟩
      · cases h
    · rintro ⟨-, hfit⟩
      rw [if_pos (by omega)]
      rfl
  · rw [if_pos (UInt64.not_le.mp hv)]
    exact iff_of_false Bool.false_ne_true fun h ↦ hv h.1

end Code

/-! ## Accepted files -/

/-- Both sweeps end without an abort, over every function that is indexed. -/
def SweepsSafe (l : Loaded) : Prop :=
  ∀ capstone : Option Disasm, (∀ cs ∈ capstone, cs.Ok) → ∀ f ∈ l.funcs, 0 < f.size →
    (l.image.codeAt f.entry 1).isSome →
      (staticCalls capstone l.image f l.imports).isSome ∧ (insnStarts capstone l.image f).isSome

/-- On x86-64, no header holds a body that runs past the top of the address
space. -/
def BodiesFit (len : ℕ) (elf : Elf) (funcs : List Func) : Prop :=
  elf.eMachine = 62 → ∀ f ∈ funcs, 0 < f.size → ∀ ph ∈ loads elf.programHeaders,
    ph.pVaddr ≤ f.entry → f.entry.toNat + f.sweepLen ≤ ph.pVaddr.toNat + extent len ph →
      f.entry.toNat + f.sweepLen ≤ 2 ^ 64

/-- Headers whose extents stay below the top hold no such body. -/
theorem bodiesFit_of_headersFit {len : ℕ} {elf : Elf} (h : HeadersFit len elf.programHeaders)
    (funcs : List Func) : BodiesFit len elf funcs := by
  intro _ f _ _ ph hph _ hend
  exact hend.trans (h.no_wrap ph hph)

theorem isSome_staticCalls {capstone : Option Disasm} (hcs : ∀ cs ∈ capstone, cs.Ok)
    {image : Image} {f : Func} (imports : KeyMap.Map UInt64 String)
    (hfit : image.arch = .x86_64 → (image.codeAt f.entry f.sweepLen).isSome →
      f.entry.toNat + f.sweepLen ≤ 2 ^ 64) : (staticCalls capstone image f imports).isSome := by
  have hcap := f.sweepLen_le
  unfold staticCalls
  dsimp only
  cases hcode : image.codeAt f.entry f.sweepLen with
  | none => rfl
  | some code =>
      have hlen := length_of_codeAt hcode
      rw [hcode] at hfit
      dsimp only
      cases harch : image.arch with
      | aarch64 =>
          dsimp only
          rw [Option.isSome_map]
          exact Resync.isSome_scan (by omega) (inside_a64Step image imports _ _ (by omega)) 0 _
      | x86_64 =>
          cases capstone with
          | none => rfl
          | some cs =>
              dsimp only
              rw [Option.isSome_map]
              have hbody := hfit harch rfl
              exact isSome_decodeSweep (x86Call_isSome image imports _ _) (hcs cs rfl) (by omega)
                (by omega) _

theorem isSome_insnStarts {capstone : Option Disasm} (hcs : ∀ cs ∈ capstone, cs.Ok)
    {image : Image} {f : Func}
    (hfit : image.arch = .x86_64 → (image.codeAt f.entry f.sweepLen).isSome →
      f.entry.toNat + f.sweepLen ≤ 2 ^ 64) : (insnStarts capstone image f).isSome := by
  have hcap := f.sweepLen_le
  unfold insnStarts
  cases harch : image.arch with
  | aarch64 =>
      apply Fallible.isSome_mapM
      intro i hi
      have hlt := List.mem_range.mp hi
      have hoff : (UInt64.ofNat i).toNat * (4 : UInt64).toNat < 2 ^ 64 := by
        have hfour : (4 : UInt64).toNat = 4 := rfl
        rw [toNat_ofNat64 (by omega), hfour]
        omega
      rw [mul64_eq_some hoff]
      rfl
  | x86_64 =>
      cases capstone with
      | none => rfl
      | some cs =>
          dsimp only
          cases hcode : image.codeAt f.entry f.sweepLen with
          | none => rfl
          | some code =>
              have hlen := length_of_codeAt hcode
              have hbody := hfit harch (by rw [hcode]; rfl)
              exact isSome_decodeSweep (fun _ _ _ ↦ rfl) (hcs cs rfl) (by omega) (by omega) _

theorem arch_eq_x86_64_iff {eMachine : UInt16} {arch : Arch} (h : archOf eMachine = .ok arch) :
    arch = .x86_64 ↔ eMachine = 62 := by
  unfold archOf at h
  split at h
  · next h62 =>
      obtain rfl := Except.ok.inj h
      exact iff_of_true rfl h62
  · next h62 =>
      split at h
      · obtain rfl := Except.ok.inj h
        exact iff_of_false (fun h ↦ nomatch h) h62
      · cases h

/-- In an accepted image code is found where a header holds it. -/
theorem codeAt_isSome_iff_loads {bytes : List UInt8} {headers : List ProgramHeader}
    {segments : List Segment} (h : loadSegments bytes headers = .ok segments) {entry : UInt64}
    {isPie : Bool} {arch : Arch} {vaddr : UInt64} {n : ℕ} :
    ((⟨segments, entry, isPie, arch⟩ : Image).codeAt vaddr n).isSome ↔
      ∃ ph ∈ loads headers, ph.pVaddr ≤ vaddr ∧
        vaddr.toNat + n ≤ ph.pVaddr.toNat + extent bytes.length ph := by
  have hlen : ∀ s ∈ segments, s.bytes.length < 2 ^ 64 := by
    intro s hs
    obtain ⟨ph, hph, rfl⟩ := (mem_loadSegments h).mp hs
    have hle := extent_le_of_loadSegments h ph hph
    rw [length_segmentOf]
    unfold maxTotalMem at hle
    omega
  rw [codeAt_isSome_iff hlen]
  constructor
  · rintro ⟨s, hs, hv, hend⟩
    obtain ⟨ph, hph, rfl⟩ := (mem_loadSegments h).mp hs
    rw [length_segmentOf] at hend
    exact ⟨ph, hph, hv, hend⟩
  · rintro ⟨ph, hph, hv, hend⟩
    refine ⟨_, (mem_loadSegments h).mpr ⟨ph, hph, rfl⟩, hv, ?_⟩
    rwa [length_segmentOf]

/-- A body past the top is swept past its last address when nothing decodes. -/
theorem bodiesFit_of_sweepsSafe {p : Parsers} {bytes : List UInt8} {elf : Elf} {l : Loaded}
    (helf : p.elf bytes = some elf) (h : load p bytes = .ok l) (hsafe : SweepsSafe l) :
    BodiesFit bytes.length elf l.funcs := by
  obtain ⟨elf', arch, segments, helf', harch, hseg, himage, -⟩ := load_ok h
  obtain rfl : elf' = elf := Option.some.inj (helf'.symm.trans helf)
  rw [SweepsSafe, himage] at hsafe
  intro hmachine f hf hpos ph hph hv hend
  by_contra hpast
  have hcap := f.sweepLen_le
  have hcode : (Image.codeAt ⟨segments, elf'.eEntry, elf'.eType == 3, arch⟩ f.entry
      f.sweepLen).isSome := (codeAt_isSome_iff_loads hseg).mpr ⟨ph, hph, hv, hend⟩
  have hone : (Image.codeAt ⟨segments, elf'.eEntry, elf'.eType == 3, arch⟩ f.entry 1).isSome := by
    refine (codeAt_isSome_iff_loads hseg).mpr ⟨ph, hph, hv, le_trans ?_ hend⟩
    have hsize : 0 < f.sweepLen := lt_min (UInt64.lt_iff_toNat_lt.mp hpos) (by decide)
    omega
  have hcalls := (hsafe (some muteDisasm) (fun cs hcs ↦ Option.some.inj hcs ▸ ok_muteDisasm)
    f hf hpos hone).1
  obtain ⟨code, hbody⟩ := Option.isSome_iff_exists.mp hcode
  have hlen := length_of_codeAt hbody
  obtain rfl := (arch_eq_x86_64_iff harch).mpr hmachine
  unfold staticCalls at hcalls
  dsimp only at hcalls
  rw [hbody] at hcalls
  dsimp only at hcalls
  rw [decodeSweep_mute_eq_none (by omega) (by omega)] at hcalls
  cases hcalls

theorem sweepsSafe_of_bodiesFit {p : Parsers} {bytes : List UInt8} {elf : Elf} {l : Loaded}
    (helf : p.elf bytes = some elf) (h : load p bytes = .ok l)
    (hfit : BodiesFit bytes.length elf l.funcs) : SweepsSafe l := by
  obtain ⟨elf', arch, segments, helf', harch, hseg, himage, -⟩ := load_ok h
  obtain rfl : elf' = elf := Option.some.inj (helf'.symm.trans helf)
  rw [SweepsSafe, himage]
  intro capstone hcs f hf hpos _
  have hbody : arch = .x86_64 → (Image.codeAt ⟨segments, elf'.eEntry, elf'.eType == 3, arch⟩
      f.entry f.sweepLen).isSome → f.entry.toNat + f.sweepLen ≤ 2 ^ 64 := by
    intro hx86 hcode
    obtain ⟨ph, hph, hv, hend⟩ := (codeAt_isSome_iff_loads hseg).mp hcode
    exact hfit ((arch_eq_x86_64_iff harch).mp hx86) f hf hpos ph hph hv hend
  exact ⟨isSome_staticCalls hcs l.imports hbody, isSome_insnStarts hcs hbody⟩

/-- The sweeps of an accepted file are safe exactly when its bodies fit. -/
theorem load_sweepsSafe_iff {p : Parsers} {bytes : List UInt8} {elf : Elf} {l : Loaded}
    (helf : p.elf bytes = some elf) (h : load p bytes = .ok l) :
    SweepsSafe l ↔ BodiesFit bytes.length elf l.funcs :=
  ⟨bodiesFit_of_sweepsSafe helf h, sweepsSafe_of_bodiesFit helf h⟩

/-! ## A function at the top of the address space -/

def topStrtab : List UInt8 := strings ["top", ".symtab", ".strtab"]

/-- One window of 32 undecodable bytes mapped 16 bytes below the top, with no
memory size, and a symbol for the 16 bytes in its middle. -/
def topFile : List UInt8 :=
  [0x7f, 0x45, 0x4c, 0x46, 2, 1, 1] ++ List.replicate 9 0 ++ field 2 2 ++ field 2 62 ++
    field 4 1 ++ field 8 0 ++ field 8 64 ++ field 8 224 ++ field 4 0 ++ field 2 64 ++
    field 2 56 ++ field 2 1 ++ field 2 64 ++ field 2 3 ++ field 2 2 ++ field 4 1 ++ field 4 5 ++
    field 8 120 ++ field 8 (2 ^ 64 - 16) ++ field 8 (2 ^ 64 - 16) ++ field 8 32 ++ field 8 0 ++
    field 8 1 ++ List.replicate 32 0x06 ++ symBytes 0 0 0 0 0 ++
    symBytes 1 0x12 0xfff1 (2 ^ 64 - 8) 16 ++ topStrtab ++ field 3 0 ++ List.replicate 64 0 ++
    sectionBytes 5 2 0 0 152 48 2 1 8 24 ++ sectionBytes 13 3 0 0 200 21 0 0 1 0

def topElf : Elf :=
  { eMachine := 62, eType := 2, eEntry := 0
    programHeaders := [⟨ptLoad, 5, 120, 0xfffffffffffffff0, 32, 0⟩]
    sectionHeaders := [⟨0, 0, 0, 0⟩, ⟨5, 0, 152, 48⟩, ⟨13, 0, 200, 21⟩]
    syms := [⟨0, 0, 0, 0⟩, ⟨1, 0x12, 0xfffffffffffffff8, 16⟩]
    dynsyms := [], strtab := nameAt topStrtab, dynstrtab := fun _ ↦ none
    shdrStrtab := nameAt topStrtab, pltrelocs := [], dynrelas := [], dynrels := [] }

def topParsers : Parsers :=
  { elf := fun bytes ↦ if bytes = topFile then some topElf else none
    ehEntries := fun _ _ ↦ [] }

theorem topParsers_elf : topParsers.elf topFile = some topElf := by
  simp only [topParsers, if_true]

theorem load_topFile : ∃ l, load topParsers topFile = .ok l := by
  have hok : (load topParsers topFile).isOk = true := by decide +kernel
  cases hl : load topParsers topFile with
  | error e =>
      rw [hl] at hok
      cases hok
  | ok l => exact ⟨l, rfl⟩

theorem load_sweepsSafe_iff_top : ∃ l, load topParsers topFile = .ok l ∧
    (SweepsSafe l ↔ BodiesFit topFile.length topElf l.funcs) := by
  obtain ⟨l, hl⟩ := load_topFile
  exact ⟨l, hl, load_sweepsSafe_iff topParsers_elf hl⟩

theorem discover_topFile : sortFuncs (discover topParsers topElf topFile) =
    [⟨some "top", 0xfffffffffffffff8, 16, .symtab⟩] := by
  decide

/-- The file is accepted and the sweep of its function overflows. -/
theorem top_function_aborts : ∃ l, load topParsers topFile = .ok l ∧ ¬SweepsSafe l := by
  obtain ⟨l, hl⟩ := load_topFile
  refine ⟨l, hl, fun hsafe ↦ ?_⟩
  obtain ⟨elf, _, _, helf, -, -, -, hfuncs, -⟩ := load_ok hl
  obtain rfl := Option.some.inj (helf.symm.trans topParsers_elf)
  have hfit := bodiesFit_of_sweepsSafe topParsers_elf hl hsafe rfl
  rw [hfuncs, discover_topFile] at hfit
  have hend := hfit _ List.mem_cons_self (by decide) ⟨ptLoad, 5, 120, 0xfffffffffffffff0, 32, 0⟩
    (by decide) (by decide) (by decide +kernel)
  revert hend
  decide

end Fnprint
