import Fnprint.Lib.Checked
import Fnprint.Lib.Resync
import Fnprint.Loader

/-!
# The static sweeps

The linear sweeps over the body of a function: its static calls, and the
addresses its instructions start at.  The disassembler is a parameter.  Every
index, slice and checked operation that would abort gives no result.
-/

namespace Fnprint

open StableSort KeyMap Checked

/-- What a disassembler reports of one instruction. -/
structure Insn where
  address : UInt64
  bytes : List UInt8
  mnemonic : Option String

/-- A disassembler of some bytes at an address; an error gives nothing. -/
abbrev Disasm := List UInt8 → UInt64 → Option (List Insn)

/-- A crafted size can claim the whole image; a real function is far under this. -/
def sweepCap : ℕ := 2 ^ 20

/-- The length of the body a sweep looks at. -/
def Func.sweepLen (f : Func) : ℕ := min f.size.toNat sweepCap

/-- The little-endian word at an offset. -/
def wordAt (b : List UInt8) (i : ℕ) : Option UInt32 := do
  let b0 ← b[i]?
  let b1 ← b[i + 1]?
  let b2 ← b[i + 2]?
  let b3 ← b[i + 3]?
  return le32 [b0, b1, b2, b3]

/-- The bytes from an offset on. -/
def sliceFrom (b : List UInt8) (off : ℕ) : Option (List UInt8) :=
  if off ≤ b.length then some (b.drop off) else none

/-! ## Decoding past junk -/

section Decoding

variable {σ : Type} (visit : σ → Insn → Option σ)

/-- The instructions of one run, with the bytes they take. -/
def visitRun : List Insn → σ × ℕ → Option (σ × ℕ)
  | [], p => some p
  | insn :: insns, p => do
      let advanced ← addSize p.2 insn.bytes.length
      let s ← visit p.1 insn
      visitRun insns (s, advanced)

/-- One round: the disassembler stops at the first byte it cannot decode. -/
def decodeStep (cs : Disasm) (lo : UInt64) (code : List UInt8) (off : ℕ) (s : σ) :
    Option (Option (σ × ℕ)) := do
  let addr ← add64 lo (UInt64.ofNat off)
  let rest ← sliceFrom code off
  match cs rest addr with
  | none => return none
  | some insns => do
      let p ← visitRun visit insns (s, 0)
      return some p

def decodeSweep (cs : Disasm) (lo : UInt64) (code : List UInt8) (s : σ) : Option σ :=
  Resync.scan code.length (decodeStep visit cs lo code) 0 s

end Decoding

/-! ## Static calls -/

structure Calls where
  callees : List UInt64
  names : List String

/-- The address ranges of the loaded segments. -/
def Image.segRanges (image : Image) : List (UInt64 × UInt64) :=
  image.segments.map fun s ↦ (s.vaddr, satAdd64 s.vaddr (UInt64.ofNat s.bytes.length))

def Image.holds (image : Image) (t : UInt64) : Bool :=
  image.segRanges.any fun r ↦ r.1 ≤ t && t < r.2

section Body

variable (image : Image) (imports : Map UInt64 String) (lo hi : UInt64)

/-- A target is an import by name, or an entry inside the image. -/
def Calls.addTarget (c : Calls) (t : UInt64) : Calls :=
  match imports.lookup t with
  | some n => { c with names := c.names ++ [n] }
  | none => if image.holds t then { c with callees := c.callees ++ [t] } else c

/-- A got slot counts when it is an import. -/
def Calls.addSlot (c : Calls) (slot : UInt64) : Calls :=
  match imports.lookup slot with
  | some n => { c with names := c.names ++ [n] }
  | none => c

/-- A jump inside the body is a loop or a branch, outside it a tail call. -/
def Calls.addTail (c : Calls) (t : UInt64) : Calls :=
  if lo ≤ t ∧ t < hi then c else c.addTarget image imports t

/-- Both lists deduped and sorted. -/
def Calls.finish (c : Calls) : List UInt64 × List String :=
  (sortDedup compare c.callees, sortDedup compare c.names)

/-- Pc-relative target from an immediate of `bits` bits, in words. -/
def a64Rel (addr : UInt64) (imm bits : UInt32) : UInt64 :=
  let shift := (64 - bits).toUInt64
  let off := (imm.toUInt64 <<< shift).toInt64 >>> shift.toInt64
  addr + off.toUInt64 * 4

/-- `bl` is a call, `b` out of the body a tail call. -/
def a64Call (a : UInt64) (w : UInt32) (c : Calls) : Calls :=
  if w &&& 0xfc000000 = 0x94000000 then c.addTarget image imports (a64Rel a (w &&& 0x03ffffff) 26)
  else if w &&& 0xfc000000 = 0x14000000 then
    c.addTail image imports lo hi (a64Rel a (w &&& 0x03ffffff) 26)
  else c

def a64Step (code : List UInt8) (i : ℕ) (c : Calls) : Option (Option (Calls × ℕ)) := do
  let next ← addSize i 4
  if next ≤ code.length then
    let w ← wordAt code i
    return some (a64Call image imports lo hi (lo + UInt64.ofNat i) w c, 4)
  else return none

/-- A displacement from the end of an instruction. -/
def relTarget (insn : Insn) (at' : ℕ) : Option UInt64 := do
  let rel ← wordAt insn.bytes at'
  return insn.address + UInt64.ofNat insn.bytes.length + rel.toInt32.toInt64.toUInt64

/-- `call rel32`, `jmp rel32` out of the body, and `call` or `jmp [rip+disp32]`. -/
def x86Call (c : Calls) (insn : Insn) : Option Calls := do
  let b := insn.bytes
  let b0 ← b[0]?
  if b0 = 0xe8 ∧ 5 ≤ b.length then
    let t ← relTarget insn 1
    return c.addTarget image imports t
  else if b0 = 0xe9 ∧ 5 ≤ b.length ∧ insn.mnemonic.getD "" = "jmp" then
    let t ← relTarget insn 1
    return c.addTail image imports lo hi t
  else if 6 ≤ b.length ∧ b0 = 0xff then
    let b1 ← b[1]?
    if b1 = 0x15 ∨ b1 = 0x25 then
      let slot ← relTarget insn 2
      return c.addSlot imports slot
    else return c
  else return c

end Body

/-- The static call graph of one function: callee entries and import names. -/
def staticCalls (capstone : Option Disasm) (image : Image) (func : Func)
    (imports : Map UInt64 String) : Option (List UInt64 × List String) :=
  let lo := func.entry
  let hi := satAdd64 func.entry func.size
  match image.codeAt lo func.sweepLen with
  | none => some ([], [])
  | some code =>
      match image.arch with
      | .aarch64 =>
          (Resync.scan code.length (a64Step image imports lo hi code) 0 ⟨[], []⟩).map Calls.finish
      | .x86_64 =>
          match capstone with
          | none => some ([], [])
          | some cs =>
              (decodeSweep (x86Call image imports lo hi) cs lo code ⟨[], []⟩).map Calls.finish

/-! ## Instruction starts -/

/-- Instruction start addresses of a function body, sorted. -/
def insnStarts (capstone : Option Disasm) (image : Image) (func : Func) :
    Option (List UInt64) :=
  match image.arch with
  | .aarch64 =>
      (List.range (func.sweepLen / 4)).mapM fun i ↦ do
        let off ← mul64 (UInt64.ofNat i) 4
        return func.entry + off
  | .x86_64 =>
      match capstone with
      | none => some []
      | some cs =>
          match image.codeAt func.entry func.sweepLen with
          | none => some []
          | some code =>
              decodeSweep (fun out insn ↦ some (out ++ [insn.address])) cs func.entry code []

end Fnprint
