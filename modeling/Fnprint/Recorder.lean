import Fnprint.Lib.Checked
import Fnprint.Lib.KeyMap
import Fnprint.Lib.Machine
import Fnprint.Loader
import Fnprint.Trace

/-!
# The recorder

What a run leaves behind: the hooks of the emulator as functions of the
recorder state and of one callback.  The engine that fires them is left open,
any callback may come at any time; what the hooks ask of it is an output.  A
counter that overflows aborts the run.
-/

namespace Fnprint

open KeyMap Checked

def pageSize : UInt64 := 0x1000

def nargs : ℕ := 6

def argsBase : UInt64 := 0x1000000000

def argStride : UInt64 := 0x0100000000

def argSize : UInt64 := 0x8000

def stackBase : UInt64 := 0x2000000000

def stackSize : UInt64 := 0x40000

def rsp0 : UInt64 := stackBase + stackSize / 2

/-- The most pages one run may map on the fly. -/
def maxRuntimeMaps : ℕ := 256

def memOpsPerInstrCap : UInt64 := 64

structure Config where
  instrCap : UInt64
  visitCap : UInt32
  timeoutUs : UInt64
  seed : UInt64
  maxHeapish : ℕ
  maxEffects : ℕ
  exploreDepth : ℕ
  blanketRestarts : ℕ

def Config.default : Config :=
  { instrCap := 20000
    visitCap := 64
    timeoutUs := 3000000
    seed := 0
    maxHeapish := 24
    maxEffects := 96
    exploreDepth := 0
    blanketRestarts := 0 }

/-- The ceiling on memory callbacks, saturating. -/
def Config.memOpCap (cfg : Config) : UInt64 :=
  UInt64.ofNat (min (cfg.instrCap.toNat * memOpsPerInstrCap.toNat) (2 ^ 64 - 1))

/-- What an instruction is, decoded just enough to steer the run. -/
inductive Kind where
  | call (target : Option UInt64) (direct : Bool)
  | ret
  | syscall
  | branch (target : Option UInt64)
  | plain
  deriving DecidableEq

/-- Everything the hooks need. -/
structure Rec where
  effects : List Effect
  visits : Map UInt64 UInt32
  instret : UInt64
  capped : Bool
  seenHeapish : Finset UInt64
  seenReads : Finset UInt64
  heapishCount : ℕ
  symbols : Map UInt64 String
  retCtr : UInt64
  cfg : Config
  /-- the loaded segments, for `global` -/
  segs : List (UInt64 × UInt64)
  force : List Bool
  branchSeen : ℕ
  naturalDirs : List Bool
  /-- the target of the branch just passed -/
  pendingBranch : Option UInt64
  mapCount : ℕ
  funcLo : UInt64
  funcHi : UInt64
  coveredBytes : UInt64
  covered : Map UInt64 UInt64
  callees : Finset UInt64
  memOpIters : UInt64

/-- What a hook asks of the engine. -/
inductive Command where
  /-- the access is not handled -/
  | refuse
  /-- map a page and fill it -/
  | map (page : UInt64)
  | stop
  | setRetval (val : UInt64)
  | setPc (pc : UInt64)
  deriving DecidableEq

/-! ## Classification -/

def argBase (k : ℕ) : UInt64 := argsBase + UInt64.ofNat k * argStride

def inArg (addr : UInt64) (k : ℕ) : Bool := argBase k ≤ addr && addr < argBase k + argSize

/-- A value seeded into input `k`, or drifted from it. -/
def inputClass (v : UInt64) (k : ℕ) : Option ValueClass :=
  if v = argBase k then some (.input (UInt16.ofNat k))
  else if inArg v k then some (.inputDeriv (UInt16.ofNat k))
  else none

def classifyValue (v : UInt64) : ValueClass :=
  if v = 0 then .zero
  else
    match (List.range nargs).findSome? (inputClass v) with
    | some c => c
    | none =>
        let sv := v.toInt64
        if -4096 ≤ sv ∧ sv ≤ 4096 then .smallConst sv else .bigConst

def maskToSize (v : UInt64) (size : ℕ) : UInt64 :=
  match size with
  | 1 => v &&& 0xff
  | 2 => v &&& 0xffff
  | 4 => v &&& 0xffffffff
  | _ => v

/-- Offsets in buckets of eight, clamped. -/
def bucketOff (off : Int64) : Int32 :=
  let b := off / 8 * 8
  (if b < -2048 then (-2048 : Int64) else if 2048 < b then 2048 else b).toInt32

def pageOf (addr : UInt64) : UInt64 := addr &&& ~~~(pageSize - 1)

namespace Rec

/-- Where an address landed, and at what offset from the region's base. -/
def classifyAddr (r : Rec) (addr : UInt64) : Region × Int64 :=
  match (List.range nargs).find? (inArg addr) with
  | some k => (.arg (UInt16.ofNat k), (addr - argBase k).toInt64)
  | none =>
      if stackBase ≤ addr ∧ addr < stackBase + stackSize then
        (.stack, addr.toInt64 - rsp0.toInt64)
      else if r.segs.any fun s ↦ s.1 ≤ addr ∧ addr < s.2 then (.global, 0)
      else (.heapish, (addr &&& (pageSize - 1)).toInt64)

def push (r : Rec) (e : Effect) : Rec := { r with effects := r.effects ++ [e] }

def argKey (k : UInt16) : UInt64 := 0xA00 + k.toUInt64

def globalKey : UInt64 := 0xB00

/-- The first touch of an argument, of the globals, of a fresh page. -/
def noteNewRegion (r : Rec) (addr : UInt64) : Rec :=
  match (r.classifyAddr addr).1 with
  | .arg k =>
      if argKey k ∈ r.seenHeapish then r
      else { r with seenHeapish := insert (argKey k) r.seenHeapish }.push (.newRegion (.arg k))
  | .global =>
      if globalKey ∈ r.seenHeapish then r
      else { r with seenHeapish := insert globalKey r.seenHeapish }.push (.newRegion .global)
  | .heapish =>
      if pageOf addr ∈ r.seenHeapish then r
      else
        let r := { r with seenHeapish := insert (pageOf addr) r.seenHeapish }
        if r.heapishCount < r.cfg.maxHeapish then
          { r with heapishCount := r.heapishCount + 1 }.push (.newRegion .heapish)
        else r
  | .stack => r

/-- One read for each distinct field, the first 64 of them. -/
def noteRead (r : Rec) (e : Effect) : Rec :=
  if e.token ∈ r.seenReads then r
  else
    let r := { r with seenReads := insert e.token r.seenReads }
    if r.seenReads.card ≤ 64 then r.push e else r

/-- Reads of the stack are ignored. -/
def recordRead (r : Rec) (addr : UInt64) : Rec :=
  let landed := r.classifyAddr addr
  if landed.1 = .stack then r else r.noteRead (.read landed.1 (bucketOff landed.2))

def recordWrite (r : Rec) (addr : UInt64) (size : ℕ) (val : Int64) : Rec :=
  let landed := r.classifyAddr addr
  if landed.1 = .stack then r
  else
    r.push (.write landed.1 (bucketOff landed.2) (classifyValue (maskToSize val.toUInt64 size)))

/-! ## Bookkeeping -/

def countMap (r : Rec) : Rec := { r with mapCount := r.mapCount + 1 }

def countMemOp (r : Rec) (n : UInt64) : Rec := { r with memOpIters := n }

def countVisit (r : Rec) (addr instret : UInt64) (visits : UInt32) : Rec :=
  { r with instret := instret, visits := r.visits.insert addr visits }

def countRet (r : Rec) (ctr : UInt64) : Rec := { r with retCtr := ctr }

def cap (r : Rec) (hit : Bool) : Rec := { r with capped := r.capped || hit }

/-- Which way the previous branch went, by where the run landed. -/
def settleBranch (r : Rec) (addr : UInt64) : Rec :=
  match r.pendingBranch with
  | some t => { r with naturalDirs := r.naturalDirs ++ [addr == t], pendingBranch := none }
  | none => r

/-- Count each instruction of the body once. -/
def cover (r : Rec) (addr ilen : UInt64) : Rec :=
  if r.visits.lookup addr = some 1 ∧ r.funcLo ≤ addr ∧ addr < r.funcHi then
    { r with
      coveredBytes := satAdd64 r.coveredBytes ilen
      covered := r.covered.insert addr ilen }
  else r

/-- A direct call into the image that is no import is an edge. -/
def noteCallee (r : Rec) (target : Option UInt64) (direct : Bool) : Rec :=
  match target with
  | some t =>
      if direct ∧ r.symbols.lookup t = none ∧ r.segs.any fun s ↦ s.1 ≤ t ∧ t < s.2 then
        { r with callees := insert t r.callees }
      else r
  | none => r

/-- A branch is forced, or its target kept for the next instruction. -/
def passBranch (r : Rec) (addr ilen : UInt64) (target : Option UInt64) : Rec × List Command :=
  let next := { r with branchSeen := r.branchSeen + 1 }
  match r.force[r.branchSeen]?, target with
  | some dir, some t => (next, [.setPc (if dir then t else addr + ilen)])
  | _, _ => ({ next with pendingBranch := target }, [])

/-! ## The hooks -/

def unmappedHook (r : Rec) (fetch : Bool) (addr : UInt64) (mapOk : Bool) : Rec × List Command :=
  if fetch then (r, [.refuse])
  else if maxRuntimeMaps ≤ r.mapCount then (r.cap true, [.refuse])
  else if mapOk then (r.countMap.noteNewRegion addr, [.map (pageOf addr)])
  else (r.countMap, [.refuse])

/-- Reads never grow the effects past their fields, so their callbacks are
bounded on their own. -/
def readHook (r : Rec) (addr : UInt64) : Option (Rec × List Command) := do
  let n ← add64 r.memOpIters 1
  let r := (r.countMemOp n).cap (r.cfg.memOpCap ≤ n)
  if r.capped then return (r, [.stop])
  else return ((r.noteNewRegion addr).recordRead addr, [])

/-- A repeated store fires this hook without a code hook in between, so the
effects are capped here too. -/
def writeHook (r : Rec) (addr : UInt64) (size : ℕ) (val : Int64) :
    Option (Rec × List Command) := do
  let n ← add64 r.memOpIters 1
  let r := (r.countMemOp n).cap (r.cfg.maxEffects ≤ r.effects.length || r.cfg.memOpCap ≤ n)
  if r.capped then return (r, [.stop])
  else return ((r.noteNewRegion addr).recordWrite addr size val, [])

/-- What an instruction does to the run. -/
def steer (r : Rec) (addr : UInt64) (kind : Kind) (ilen : UInt64) (nr : UInt32)
    (retval : UInt64) : Option (Rec × List Command) :=
  match kind with
  | .call target direct => do
      let ctr ← add64 r.retCtr 1
      let name := target.bind r.symbols.lookup
      return (((r.noteCallee target direct).countRet ctr).push
          (.call (match name with | some n => .sym n | none => .anon)),
        [.setRetval (0x5555000000000000 ^^^ ctr * 0x9e3779b97f4a7c15), .setPc (addr + ilen)])
  | .syscall => do
      let ctr ← add64 r.retCtr 1
      return ((r.countRet ctr).push (.syscall nr),
        [.setRetval (0x6666000000000000 ^^^ ctr), .setPc (addr + ilen)])
  | .ret => some (r.push (.ret (classifyValue retval)), [])
  | .branch target => some ((r.push .branch).passBranch addr ilen target)
  | .plain => some (r, [])

/-- The caps an instruction is counted against. -/
def overCaps (r : Rec) (instret : UInt64) (visits : UInt32) : Bool :=
  r.cfg.visitCap < visits || r.cfg.instrCap < instret || r.cfg.maxEffects ≤ r.effects.length

def codeHook (r : Rec) (addr : UInt64) (kind : Kind) (ilen : UInt64) (nr : UInt32)
    (retval : UInt64) : Option (Rec × List Command) := do
  let r := r.settleBranch addr
  let instret ← add64 r.instret 1
  let visits ← add32 ((r.visits.lookup addr).getD 0) 1
  let r := r.countVisit addr instret visits
  if r.overCaps instret visits then return (r.cap true, [.stop])
  else (r.cover addr ilen).steer addr kind ilen nr retval

end Rec

/-! ## Runs -/

/-- One callback, with what the hook reads off the engine: whether a page could
be mapped, how the instruction decodes, the syscall number, the return value. -/
inductive Callback where
  | unmapped (fetch : Bool) (addr : UInt64) (mapOk : Bool)
  | read (addr : UInt64)
  | write (addr : UInt64) (size : ℕ) (val : Int64)
  | code (addr : UInt64) (kind : Kind) (ilen : UInt64) (nr : UInt32) (retval : UInt64)

def Rec.step (r : Rec) : Callback → Option (Rec × List Command)
  | .unmapped fetch addr mapOk => some (r.unmappedHook fetch addr mapOk)
  | .read addr => r.readHook addr
  | .write addr size val => r.writeHook addr size val
  | .code addr kind ilen nr retval => r.codeHook addr kind ilen nr retval

/-- The recorder a run starts with. -/
def Rec.start (cfg : Config) (image : Image) (func : Func) (symbols : Map UInt64 String)
    (force : List Bool) : Rec :=
  { effects := []
    visits := ∅
    instret := 0
    capped := false
    seenHeapish := ∅
    seenReads := ∅
    heapishCount := 0
    symbols := symbols
    retCtr := 0
    cfg := cfg
    segs := image.segments.map fun s ↦
      (s.vaddr, satAdd64 s.vaddr (UInt64.ofNat s.bytes.length))
    force := force
    branchSeen := 0
    naturalDirs := []
    pendingBranch := none
    mapCount := 0
    funcLo := func.entry
    funcHi := satAdd64 func.entry func.size
    coveredBytes := 0
    covered := ∅
    callees := ∅
    memOpIters := 0 }

/-- The recorder after some callbacks, with all that was asked of the engine. -/
def record (cfg : Config) (image : Image) (func : Func) (symbols : Map UInt64 String)
    (force : List Bool) (callbacks : List Callback) : Option (Rec × List Command) :=
  Machine.run Rec.step (Rec.start cfg image func symbols force) callbacks

end Fnprint
