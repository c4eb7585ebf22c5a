import Fnprint.Recorder
import Fnprint.Sweep

/-!
# The run-time decoder

What the code hook makes of the bytes at the program counter: just enough to
steer the run.  On x86 a disassembler gives the length and the mnemonic, on
aarch64 the words are told apart by their top bits.
-/

namespace Fnprint

/-- The sixteen bytes a hook reads at the program counter. -/
abbrev Window := Vector UInt8 16

def le32At (buf : Window) (i : ℕ) (_ : i + 3 < 16) : UInt32 :=
  le32 [buf[i], buf[i + 1], buf[i + 2], buf[i + 3]]

/-- A displacement from the end of the instruction. -/
def relFrom (addr ilen : UInt64) (rel : Int64) : UInt64 := addr + ilen + rel.toUInt64

/-! ## Taken targets -/

/-- The two common encodings of a conditional jump; any other runs naturally. -/
def branchTarget (addr ilen : UInt64) (buf : Window) : Option UInt64 :=
  if (0x70 : UInt8) ≤ buf[0] ∧ buf[0] ≤ 0x7f then
    some (relFrom addr ilen buf[1].toInt8.toInt64)
  else if buf[0] = 0x0f ∧ (0x80 : UInt8) ≤ buf[1] ∧ buf[1] ≤ 0x8f then
    some (relFrom addr ilen (le32At buf 2 (by decide)).toInt32.toInt64)
  else none

def callKind (addr ilen : UInt64) (buf : Window) : Kind :=
  if buf[0] = 0xe8 then
    .call (some (relFrom addr ilen (le32At buf 1 (by decide)).toInt32.toInt64)) true
  else if buf[0] = 0xff ∧ buf[1] = 0x15 then
    .call (some (relFrom addr ilen (le32At buf 2 (by decide)).toInt32.toInt64)) false
  else .call none false

def startsWith (m : String) (p : String) : Bool := p.toList.isPrefixOf m.toList

/-- What a mnemonic stands for. -/
def x86Kind (addr ilen : UInt64) (buf : Window) (m : String) : Kind :=
  if startsWith m "call" then callKind addr ilen buf
  else if m = "ret" ∨ startsWith m "ret" then .ret
  else if m = "syscall" ∨ m = "sysenter" ∨ m = "int" then .syscall
  else if startsWith m "j" ∧ m ≠ "jmp" then .branch (branchTarget addr ilen buf)
  else .plain

/-! ## aarch64 words -/

/-- A word with given bits under a mask. -/
def hasBits (mask bits w : UInt32) : Bool := w &&& mask == bits

def isBl : UInt32 → Bool := hasBits 0xfc000000 0x94000000

def isBlr : UInt32 → Bool := hasBits 0xfffffc1f 0xd63f0000

def isRet : UInt32 → Bool := hasBits 0xfffffc1f 0xd65f0000

def isSvc : UInt32 → Bool := hasBits 0xffe0001f 0xd4000001

def isBCond : UInt32 → Bool := hasBits 0xff000010 0x54000000

def isCbz : UInt32 → Bool := hasBits 0x7e000000 0x34000000

def isTbz : UInt32 → Bool := hasBits 0x7e000000 0x36000000

/-- What a word is; an unconditional `b` is a jump, not a decision. -/
def a64Kind (addr : UInt64) (w : UInt32) : Kind :=
  if isBl w then .call (some (a64Rel addr (w &&& 0x03ffffff) 26)) true
  else if isBlr w then .call none false
  else if isRet w then .ret
  else if isSvc w then .syscall
  else if isBCond w ∨ isCbz w then .branch (some (a64Rel addr (w >>> 5 &&& 0x7ffff) 19))
  else if isTbz w then .branch (some (a64Rel addr (w >>> 5 &&& 0x3fff) 14))
  else .plain

def decodeA64 (addr : UInt64) (buf : List UInt8) : Kind × UInt64 :=
  match wordAt buf 0 with
  | none => (.plain, 4)
  | some w => (a64Kind addr w, 4)

/-! ## The decoder -/

/-- What kind of instruction, and how long; without a disassembler the words
are aarch64. -/
def decode (cs : Option Disasm) (addr : UInt64) (buf : Window) : Kind × UInt64 :=
  match cs with
  | none => decodeA64 addr buf.toList
  | some cs =>
      match cs buf.toList addr with
      | some (insn :: _) =>
          let ilen := UInt64.ofNat insn.bytes.length
          (x86Kind addr ilen buf (insn.mnemonic.getD ""), ilen)
      | _ => (.plain, 1)

theorem target_of_decodeA64 {addr : UInt64} {buf : List UInt8} {target : Option UInt64}
    (h : (decodeA64 addr buf).1 = .branch target) : target.isSome := by
  unfold decodeA64 at h
  split at h
  · cases h
  · unfold a64Kind at h
    split_ifs at h <;> cases h <;> rfl

end Fnprint
