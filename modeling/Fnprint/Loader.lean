import Fnprint.Lib.KeyMap
import Fnprint.Lib.StableSort

/-!
# The loader

From a parsed ELF file to the loadable segments, the functions found in its
symbol tables and unwind info, and the imports reached through the plt.  The
two foreign parsers are a parameter: what they report is taken as it is.
-/

namespace Fnprint

open StableSort KeyMap

/-! ## What the parsers report -/

structure ProgramHeader where
  pType : UInt32
  pFlags : UInt32
  pOffset : UInt64
  pVaddr : UInt64
  pFilesz : UInt64
  pMemsz : UInt64
  deriving DecidableEq

def ptLoad : UInt32 := 1

def ProgramHeader.isExecutable (ph : ProgramHeader) : Bool := ph.pFlags &&& 1 != 0

def ProgramHeader.isWrite (ph : ProgramHeader) : Bool := ph.pFlags &&& 2 != 0

structure Sym where
  stName : ℕ
  stInfo : UInt8
  stValue : UInt64
  stSize : UInt64
  deriving DecidableEq

def sttFunc : UInt8 := 2

def Sym.stType (s : Sym) : UInt8 := s.stInfo &&& 0xf

structure Reloc where
  rOffset : UInt64
  rSym : ℕ
  deriving DecidableEq

structure SectionHeader where
  shName : ℕ
  shAddr : UInt64
  shOffset : UInt64
  shSize : UInt64
  deriving DecidableEq

/-- The parsed file; a string table gives the name at an offset, if any. -/
structure Elf where
  eMachine : UInt16
  eType : UInt16
  eEntry : UInt64
  programHeaders : List ProgramHeader
  sectionHeaders : List SectionHeader
  syms : List Sym
  dynsyms : List Sym
  strtab : ℕ → Option String
  dynstrtab : ℕ → Option String
  shdrStrtab : ℕ → Option String
  pltrelocs : List Reloc
  dynrelas : List Reloc
  dynrels : List Reloc

/-- One unwind entry; an FDE that parses carries its address and length. -/
inductive EhEntry where
  | cie
  | fde (range : Option (UInt64 × UInt64))
  deriving DecidableEq

/-- The foreign parsers: the ELF reader, and the unwind entries of a section
up to its end or its first malformed entry. -/
structure Parsers where
  elf : List UInt8 → Option Elf
  ehEntries : List UInt8 → UInt64 → List EhEntry

/-! ## The loaded image -/

structure Segment where
  vaddr : UInt64
  bytes : List UInt8
  exec : Bool
  write : Bool
  deriving DecidableEq

inductive FuncSource where
  | symtab
  | dynSym
  | ehFrame
  deriving DecidableEq, Repr

structure Func where
  name : Option String
  entry : UInt64
  size : UInt64
  source : FuncSource
  deriving DecidableEq

inductive Arch where
  | x86_64
  | aarch64
  deriving DecidableEq, Repr

structure Image where
  segments : List Segment
  entry : UInt64
  isPie : Bool
  arch : Arch
  deriving DecidableEq

structure Loaded where
  image : Image
  funcs : List Func
  imports : Map UInt64 String

/-- The code bytes at an address, when one segment holds all of them. -/
def Image.codeAt (image : Image) (vaddr : UInt64) (len : ℕ) : Option (List UInt8) :=
  image.segments.findSome? fun s ↦
    if vaddr < s.vaddr then none
    else
      let off := (vaddr - s.vaddr).toNat
      if off + len < 2 ^ 64 ∧ off + len ≤ s.bytes.length then some ((s.bytes.drop off).take len)
      else none

/-! ## Segments -/

def maxSegMem : ℕ := 2 ^ 30

def maxTotalMem : ℕ := 2 ^ 31

def maxLoadSegs : ℕ := 256

/-- Saturating addition of 64-bit words. -/
def satAdd (a b : ℕ) : ℕ := min (a + b) (2 ^ 64 - 1)

/-- An address in the usual hexadecimal form. -/
def hex (v : UInt64) : String := "0x" ++ String.ofList (Nat.toDigits 16 v.toNat)

structure Plan where
  start : ℕ
  stop : ℕ
  memsz : ℕ
  vaddr : UInt64
  exec : Bool
  write : Bool
  deriving DecidableEq

/-- The file window of a header, clamped to the file. -/
def planOf (len : ℕ) (ph : ProgramHeader) : Plan :=
  let start := min ph.pOffset.toNat len
  { start := start
    stop := min (satAdd start ph.pFilesz.toNat) len
    memsz := ph.pMemsz.toNat
    vaddr := ph.pVaddr
    exec := ph.isExecutable
    write := ph.isWrite }

def Plan.allocLen (p : Plan) : ℕ := max (p.stop - p.start) p.memsz

/-- One header of the first pass. -/
def planStep (len : ℕ) (st : List Plan × ℕ) (ph : ProgramHeader) :
    Except String (List Plan × ℕ) :=
  let (plans, totalMem) := st
  if ph.pType != ptLoad then .ok (plans, totalMem)
  else if maxSegMem < ph.pMemsz.toNat then
    .error s!"PT_LOAD p_memsz {ph.pMemsz} over {maxSegMem}-byte limit, refusing"
  else if 2 ^ 64 ≤ ph.pVaddr.toNat + ph.pMemsz.toNat then
    .error s!"PT_LOAD vaddr {hex ph.pVaddr} + memsz overflows"
  else
    let plan := planOf len ph
    let totalMem := satAdd totalMem plan.allocLen
    if maxTotalMem < totalMem then .error s!"total PT_LOAD memory over {maxTotalMem}-byte limit"
    else
      let plans := plans ++ [plan]
      if maxLoadSegs < plans.length then
        .error s!"over {maxLoadSegs} PT_LOAD segments, refusing"
      else .ok (plans, totalMem)

/-- The first pass: every PT_LOAD is validated before anything is copied. -/
def plans (len : ℕ) (headers : List ProgramHeader) : Except String (List Plan) := do
  let (plans, _) ← headers.foldlM (planStep len) ([], 0)
  if plans.isEmpty then .error "no PT_LOAD segments" else .ok plans

/-- The second pass: the file window, grown with zeros to the memory size. -/
def segmentOf (bytes : List UInt8) (p : Plan) : Segment :=
  let data := (bytes.drop p.start).take (p.stop - p.start)
  { vaddr := p.vaddr
    bytes := data ++ List.replicate (p.memsz - data.length) 0
    exec := p.exec
    write := p.write }

/-- Neighbours in address order must not overlap. -/
def checkOverlap : List Segment → Except String Unit
  | s :: t :: rest =>
      if t.vaddr.toNat < satAdd s.vaddr.toNat s.bytes.length then
        .error s!"overlapping PT_LOAD segments at {hex s.vaddr} and {hex t.vaddr}, refusing"
      else checkOverlap (t :: rest)
  | _ => .ok ()

def loadSegments (bytes : List UInt8) (headers : List ProgramHeader) :
    Except String (List Segment) := do
  let plans ← plans bytes.length headers
  let segments := sortBy (byKey Segment.vaddr compare) (plans.map (segmentOf bytes))
  checkOverlap segments
  return segments

/-! ## Functions -/

def maxName : ℕ := 4096

def maxFuncs : ℕ := 1000000

/-- The longest run of leading characters that fits a byte budget. -/
def takeBytes : ℕ → List Char → List Char
  | _, [] => []
  | budget, c :: cs =>
      if c.utf8Size ≤ budget then c :: takeBytes (budget - c.utf8Size) cs else []

def clampName (s : String) : String :=
  if s.utf8ByteSize ≤ maxName then s else String.ofList (takeBytes maxName s.toList)

/-- One symbol of a table; nothing is added once the cap is reached. -/
def discoverSym (strtab : ℕ → Option String) (source : FuncSource) (out : List Func) (sym : Sym) :
    List Func :=
  if maxFuncs ≤ out.length then out
  else if sym.stType != sttFunc then out
  else if sym.stValue == 0 || sym.stSize == 0 then out
  else
    let name := ((strtab sym.stName).map clampName).filter fun s ↦ s != ""
    out ++ [{ name := name, entry := sym.stValue, size := sym.stSize, source := source }]

def collectFdes : List EhEntry → List Func → List Func
  | [], out => out
  | e :: entries, out =>
      let out := match e with
        | .fde (some (entry, size)) =>
            if size > 0 then
              out ++ [{ name := none, entry := entry, size := size, source := .ehFrame }]
            else out
        | _ => out
      if maxFuncs ≤ out.length then out else collectFdes entries out

/-- A checked slice of the file. -/
def slice (raw : List UInt8) (start size : ℕ) : Option (List UInt8) :=
  if start + size < 2 ^ 64 ∧ start + size ≤ raw.length then some ((raw.drop start).take size)
  else none

def Elf.sectionName (elf : Elf) (sh : SectionHeader) : Option String := elf.shdrStrtab sh.shName

/-- The function ranges of `.eh_frame`. -/
def ehFrameFuncs (p : Parsers) (elf : Elf) (raw : List UInt8) : Option (List Func) := do
  let sh ← elf.sectionHeaders.find? fun sh ↦ elf.sectionName sh == some ".eh_frame"
  let data ← slice raw sh.shOffset.toNat sh.shSize.toNat
  let out := collectFdes (p.ehEntries data sh.shAddr) []
  if out.isEmpty then none else some out

def Elf.pltRanges (elf : Elf) : List (ℕ × ℕ) :=
  let plts := elf.sectionHeaders.filter fun sh ↦
    elf.sectionName sh ∈ [some ".plt", some ".plt.sec", some ".plt.got"]
  plts.map fun sh ↦ (sh.shAddr.toNat, satAdd sh.shAddr.toNat sh.shSize.toNat)

/-- One unwind range; known entries and plt stubs are not new functions. -/
def mergeFde (known : List UInt64) (plt : List (ℕ × ℕ)) (out : List Func) (f : Func) : List Func :=
  if maxFuncs ≤ out.length then out
  else if f.entry ∈ known ∨ ∃ r ∈ plt, r.1 ≤ f.entry.toNat ∧ f.entry.toNat < r.2 then out
  else out ++ [f]

def discover (p : Parsers) (elf : Elf) (raw : List UInt8) : List Func :=
  let out := elf.syms.foldl (discoverSym elf.strtab .symtab) []
  let out := elf.dynsyms.foldl (discoverSym elf.dynstrtab .dynSym) out
  match ehFrameFuncs p elf raw with
  | some fdes => fdes.foldl (mergeFde (out.map Func.entry) elf.pltRanges) out
  | none => out

/-! ## Imports -/

/-- A little-endian word at the start of some bytes. -/
def le32 (bytes : List UInt8) : UInt32 :=
  let b := fun i ↦ (bytes.getD i 0).toUInt32
  b 0 ||| (b 1 <<< 8) ||| (b 2 <<< 16) ||| (b 3 <<< 24)

/-- The offset of `jmp [rip+disp32]` in a stub, past its usual prefixes. -/
def findJmpRip (stub : List UInt8) : Option ℕ :=
  let i := if stub.take 4 = [0xf3, 0x0f, 0x1e, 0xfa] then 4 else 0
  let i := if stub[i]? = some 0xf2 then i + 1 else i
  if i + 6 ≤ stub.length ∧ stub[i]? = some 0xff ∧ stub[i + 1]? = some 0x25 then some i else none

def x86PltSlot (stub : List UInt8) (stubAddr : UInt64) : Option UInt64 :=
  (findJmpRip stub).map fun at' ↦
    let disp := (le32 (stub.drop (at' + 2))).toInt32.toInt64.toUInt64
    stubAddr + UInt64.ofNat at' + 6 + disp

/-- The slot an adrp/ldr stub loads through. -/
def aarch64PltSlot (stub : List UInt8) (stubAddr : UInt64) : Option UInt64 :=
  let w0 := le32 stub
  let w1 := le32 (stub.drop 4)
  if w0 &&& 0x9f000000 != 0x90000000 then none
  else
    let immlo := ((w0 >>> 29) &&& 0x3).toUInt64
    let immhi := ((w0 >>> 5) &&& 0x7ffff).toUInt64
    let imm := (immhi <<< 2) ||| immlo
    let imm := ((imm <<< 43).toInt64 >>> 43).toUInt64
    let page := (stubAddr &&& ~~~(0xfff : UInt64)) + (imm <<< 12)
    if w1 &&& 0xffc00000 != 0xf9400000 then none
    else
      let imm12 := ((w1 >>> 10) &&& 0xfff).toUInt64
      some (page + imm12 * 8)

def pltSlot : Arch → List UInt8 → UInt64 → Option UInt64
  | .x86_64 => x86PltSlot
  | .aarch64 => aarch64PltSlot

/-- One relocation: its slot is named by the dynamic symbol. -/
def relocImport (elf : Elf) (out : Map UInt64 String) (r : Reloc) : Map UInt64 String :=
  if maxFuncs ≤ out.keys.length then out
  else
    match (elf.dynsyms[r.rSym]?).bind fun sym ↦ elf.dynstrtab sym.stName with
    | some name => if name = "" then out else out.insert r.rOffset (clampName name)
    | none => out

/-- The 16-byte stubs of one plt section that go through a known slot. -/
def stubImports (arch : Arch) (out : Map UInt64 String) (addr : UInt64) (data : List UInt8)
    (stubs : List (UInt64 × String)) : List (UInt64 × String) :=
  (List.range (data.length / 16)).foldl (fun stubs k ↦
    if maxFuncs ≤ stubs.length then stubs
    else
      let stubAddr := addr + UInt64.ofNat (16 * k)
      match (pltSlot arch ((data.drop (16 * k)).take 16) stubAddr).bind out.lookup with
      | some name => stubs ++ [(stubAddr, name)]
      | none => stubs) stubs

def pltImports (elf : Elf) (raw : List UInt8) (arch : Arch) : Map UInt64 String :=
  let out := (elf.pltrelocs ++ elf.dynrelas ++ elf.dynrels).foldl (relocImport elf) ∅
  if out.keys.isEmpty then out
  else
    let stubs := elf.sectionHeaders.foldl (fun stubs sh ↦
      if elf.sectionName sh ∈ [some ".plt", some ".plt.sec"] then
        match slice raw sh.shOffset.toNat sh.shSize.toNat with
        | some data => stubImports arch out sh.shAddr data stubs
        | none => stubs
      else stubs) []
    stubs.foldl (fun m s ↦ m.insert s.1 s.2) out

/-! ## Loading -/

def archOf (eMachine : UInt16) : Except String Arch :=
  if eMachine = 62 then .ok .x86_64
  else if eMachine = 183 then .ok .aarch64
  else .error s!"only x86-64 and aarch64 are supported (got e_machine {eMachine})"

/-- Entry order, a named function before an unnamed one at the same entry. -/
def funcCmp : Func → Func → Ordering :=
  compareLex (byKey Func.entry compare) (byKey (fun f ↦ f.name.isSome) (descending compare))

instance : Std.TransCmp funcCmp :=
  inferInstanceAs (Std.TransCmp (compareLex _ _))

/-- Sorted by entry, one function for each. -/
def sortFuncs (funcs : List Func) : List Func :=
  dedupBy Func.entry (sortBy funcCmp funcs)

def load (p : Parsers) (bytes : List UInt8) : Except String Loaded :=
  match p.elf bytes with
  | none => .error "not a valid elf"
  | some elf => do
      let arch ← archOf elf.eMachine
      let segments ← loadSegments bytes elf.programHeaders
      let isPie := elf.eType == 3
      return {
        image := { segments := segments, entry := elf.eEntry, isPie := isPie, arch := arch }
        funcs := sortFuncs (discover p elf bytes)
        imports := pltImports elf bytes arch }

end Fnprint
