import Mathlib

/-!
# The effect model

What the emulator reports of a run: a list of effects without absolute
addresses, each with a stable 64-bit token, together with the advisory
coverage figure and the direct callees of the run.
-/

namespace Fnprint

/-- Where a memory access landed, relative to something the run seeded. -/
inductive Region where
  | arg (k : UInt16)
  | stack
  | global
  | heapish
  deriving DecidableEq, Repr

/-- What a value looks like, without the raw bits of an address. -/
inductive ValueClass where
  | input (k : UInt16)
  | inputDeriv (k : UInt16)
  | zero
  | smallConst (v : Int64)
  | bigConst
  | unknown
  deriving DecidableEq

inductive CallTarget where
  | sym (name : String)
  | anon
  deriving DecidableEq, Repr

/-- One observable thing a function did. -/
inductive Effect where
  | write (region : Region) (off : Int32) (val : ValueClass)
  | read (region : Region) (off : Int32)
  | newRegion (region : Region)
  | call (target : CallTarget)
  | syscall (nr : UInt32)
  | branch
  | ret (val : ValueClass)
  | capped
  deriving DecidableEq

/-! ## FNV-1a tokens -/

/-- The running state of the hand-written FNV-1a hash. -/
structure Fnv where
  state : UInt64
  deriving DecidableEq, Repr

namespace Fnv

def new : Fnv := ⟨0xcbf29ce484222325⟩

def byte (h : Fnv) (b : UInt8) : Fnv :=
  ⟨(h.state ^^^ b.toUInt64) * 0x100000001b3⟩

def tag (h : Fnv) (t : UInt8) : Fnv := h.byte t

/-- The eight bytes of a word, least significant first. -/
def leBytes (v : UInt64) : List UInt8 :=
  (List.range 8).map fun i ↦ (v >>> (UInt64.ofNat (i * 8))).toUInt8

def u64 (h : Fnv) (v : UInt64) : Fnv := (leBytes v).foldl byte h

def i32 (h : Fnv) (v : Int32) : Fnv := h.u64 v.toInt64.toUInt64

end Fnv

def Region.hash (r : Region) (h : Fnv) : Fnv :=
  match r with
  | .arg k => (h.tag 10).u64 k.toUInt64
  | .stack => h.tag 11
  | .global => h.tag 13
  | .heapish => h.tag 12

def ValueClass.hash (v : ValueClass) (h : Fnv) : Fnv :=
  match v with
  | .input k => (h.tag 20).u64 k.toUInt64
  | .inputDeriv k => (h.tag 21).u64 k.toUInt64
  | .zero => h.tag 22
  | .smallConst c => (h.tag 23).u64 c.toUInt64
  | .bigConst => h.tag 24
  | .unknown => h.tag 25

/-- The stable token of an effect. -/
def Effect.token (e : Effect) : UInt64 :=
  let h := Fnv.new
  let h := match e with
    | .write region off val => val.hash ((region.hash (h.tag 1)).i32 off)
    | .read region off => (region.hash (h.tag 8)).i32 off
    | .newRegion r => r.hash (h.tag 2)
    | .call (.sym s) => s.toUTF8.data.toList.foldl Fnv.byte ((h.tag 3).tag 1)
    | .call .anon => (h.tag 3).tag 2
    | .syscall n => (h.tag 4).u64 n.toUInt64
    | .branch => h.tag 5
    | .ret v => v.hash (h.tag 6)
    | .capped => h.tag 7
  h.state

/-! ## Traces -/

/-- The full result of micro-executing one function. -/
structure EffectTrace where
  effects : List Effect
  instret : UInt64
  capped : Bool
  coverage : Float32
  callees : List UInt64

namespace EffectTrace

def tokens (t : EffectTrace) : List UInt64 := t.effects.map Effect.token

/-- What one effect adds to the signal gate: calls and writes weigh more. -/
def weight : Effect → ℕ
  | .call _ | .syscall _ => 3
  | .write .. | .newRegion _ => 2
  | .read .. => 1
  | .ret (.input _) | .ret (.inputDeriv _) => 1
  | _ => 0

def complexity (t : EffectTrace) : ℕ := (t.effects.map weight).sum

end EffectTrace

end Fnprint
