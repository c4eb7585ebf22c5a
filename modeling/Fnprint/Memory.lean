import Fnprint.Decode
import Fnprint.Frame
import Fnprint.Lib.Paging
import Fnprint.RecorderBounds
import Fnprint.Setup
import Fnprint.Store

/-!
# Guest memory

A run starts over the segments, the argument buffers and the return address;
any other page comes in when it is touched, filled with bytes that depend on
the address and the seed alone.  The hook that decodes the code reads memory too,
but nothing comes in for it.
-/

namespace Fnprint

open Paging Checked Fallible

def retAddr : UInt64 := 0x3000000000

/-! ## Fill -/

/-- The finalizer of `splitmix64`. -/
def splitmix (x : UInt64) : UInt64 :=
  let x := (x ^^^ (x >>> 30)) * 0xbf58476d1ce4e5b9
  let x := (x ^^^ (x >>> 27)) * 0x94d049bb133111eb
  x ^^^ (x >>> 31)

def golden : UInt64 := 0x9e3779b97f4a7c15

def fillWord (base seed : UInt64) (i : ℕ) : UInt64 :=
  splitmix (base + (UInt64.ofNat i <<< 3) + seed * golden)

/-- The contents of a buffer of zeros once it is filled: a rest too short for a
word stays as it is. -/
def fillBytes (len : ℕ) (base seed : UInt64) : List UInt8 :=
  (List.range (len / 8)).flatMap (fun i ↦ Fnv.leBytes (fillWord base seed i)) ++
    List.replicate (len % 8) 0

/-- The byte that any page filled over an address gets there. -/
def junkByte (seed a : UInt64) : UInt8 :=
  (Fnv.leBytes (splitmix (a - a % (8 : UInt64) + seed * golden))).getD (a % (8 : UInt64)).toNat 0

theorem toNat_shiftLeft_three {i : ℕ} (hi : i * 8 < 2 ^ 64) :
    (UInt64.ofNat i <<< 3).toNat = i * 8 := by
  rw [UInt64.toNat_shiftLeft, toNat_ofNat64 (by omega), Nat.shiftLeft_eq]
  exact Nat.mod_eq_of_lt hi

/-- The word that holds an address of a buffer. -/
theorem word_base {base : UInt64} {i : ℕ} (hbase : base.toNat % 8 = 0)
    (hfit : base.toNat + i < 2 ^ 64) :
    base + UInt64.ofNat i - (base + UInt64.ofNat i) % (8 : UInt64) =
      base + (UInt64.ofNat (i / 8) <<< 3) := by
  have hadd : (base + UInt64.ofNat i).toNat = base.toNat + i := by
    rw [UInt64.toNat_add, toNat_ofNat64 (by omega), Nat.mod_eq_of_lt hfit]
  have hmod : ((base + UInt64.ofNat i) % (8 : UInt64)).toNat = i % 8 := by
    rw [UInt64.toNat_mod, hadd]
    change (base.toNat + i) % 8 = i % 8
    omega
  have hle : (base + UInt64.ofNat i) % (8 : UInt64) ≤ base + UInt64.ofNat i := by
    rw [UInt64.le_iff_toNat_le, hmod, hadd]
    omega
  have hword : base.toNat + i / 8 * 8 < 2 ^ 64 := by omega
  rw [← UInt64.toNat_inj, UInt64.toNat_sub_of_le _ _ hle, hmod, hadd, UInt64.toNat_add,
    toNat_shiftLeft_three (by omega), Nat.mod_eq_of_lt hword]
  omega

theorem getElem?_leBytes (v : UInt64) {i : ℕ} (hi : i < 8) :
    (Fnv.leBytes v)[i]? = some ((Fnv.leBytes v).getD i 0) := by
  rw [List.getD_eq_getElem?_getD, List.getElem?_eq_getElem (by rwa [length_leBytes])]
  rfl

/-- Filling leaves the same byte at an address, wherever the buffer begins. -/
theorem getElem?_fillBytes {len i : ℕ} {base : UInt64} (seed : UInt64) (hlen : len % 8 = 0)
    (hbase : base.toNat % 8 = 0) (hi : i < len) (hfit : base.toNat + i < 2 ^ 64) :
    (fillBytes len base seed)[i]? = some (junkByte seed (base + UInt64.ofNat i)) := by
  have hword : i / 8 < len / 8 := by omega
  have hmod : ((base + UInt64.ofNat i) % (8 : UInt64)).toNat = i % 8 := by
    rw [UInt64.toNat_mod, UInt64.toNat_add, toNat_ofNat64 (by omega), Nat.mod_eq_of_lt hfit]
    change (base.toNat + i) % 8 = i % 8
    omega
  rw [fillBytes, hlen, List.replicate_zero, List.append_nil,
    Stride.getElem?_flatMap (by decide) (fun _ ↦ length_leBytes _), List.getElem?_range hword,
    Option.bind_some, getElem?_leBytes _ (Nat.mod_lt i (by decide)), junkByte, hmod,
    word_base hbase hfit, fillWord]

theorem length_fillBytes (len : ℕ) (base seed : UInt64) :
    (fillBytes len base seed).length = len := by
  rw [fillBytes, List.length_append, Stride.length_flatMap fun _ ↦ length_leBytes _,
    List.length_range, List.length_replicate]
  omega

/-! ## Bytes of the engine -/

/-- The bytes a write covers. -/
def window (addr : UInt64) (bytes : List UInt8) (a : UInt64) : Option UInt8 :=
  if addr ≤ a then bytes[(a - addr).toNat]? else none

theorem isSome_window_iff {addr a : UInt64} {bytes : List UInt8} :
    (window addr bytes a).isSome = true ↔
      addr.toNat ≤ a.toNat ∧ a.toNat < addr.toNat + bytes.length := by
  unfold window
  by_cases hle : addr ≤ a
  · have hle' := UInt64.le_iff_toNat_le.mp hle
    rw [if_pos hle, UInt64.toNat_sub_of_le _ _ hle, isSome_getElem?]
    omega
  · have hlt := mt UInt64.le_iff_toNat_le.mpr hle
    rw [if_neg hle]
    exact iff_of_false (by simp) fun h ↦ hlt h.1

/-- An engine with the bytes of its pages.  A page that is mapped was not
mapped before and starts out zero; a write reaches mapped pages only. -/
structure MemEngine extends Engine where
  read : State → UInt64 → Option UInt8
  memWrite : State → UInt64 → List UInt8 → Except UcError State
  isSome_read : ∀ {s : State} {a : UInt64}, (read s a).isSome = true ↔ pageOf a ∈ pages s
  disjoint_memMap : ∀ {s s' : State} {addr size : UInt64}, memMap s addr size = .ok s' →
    Disjoint (pages s) (requested addr size)
  read_memMap : ∀ {s s' : State} {addr size : UInt64}, memMap s addr size = .ok s' →
    ∀ a, (pageOf a ∈ requested addr size → read s' a = some 0) ∧
      (pageOf a ∉ requested addr size → read s' a = read s a)
  read_memWrite : ∀ {s s' : State} {addr : UInt64} {bytes : List UInt8},
    memWrite s addr bytes = .ok s' → read s' = onto (window addr bytes) (read s)
  memWrite_ok_iff : ∀ {s : State} {addr : UInt64} {bytes : List UInt8},
    (∃ s', memWrite s addr bytes = .ok s') ↔ addr.toNat + bytes.length ≤ 2 ^ 64 ∧
      ∀ a, (window addr bytes a).isSome = true → pageOf a ∈ pages s
  pages_memWrite : ∀ {s s' : State} {addr : UInt64} {bytes : List UInt8},
    memWrite s addr bytes = .ok s' → pages s' = pages s

/-! ## Setting up the memory -/

/-- Where a region is written before a run, and with what. -/
def SetupRegion.contents (seed : UInt64) : SetupRegion → UInt64 × List UInt8
  | .segment s => (s.vaddr, s.bytes)
  | .argBuffer k => (argBase k, fillBytes argSize.toNat (argBase k) seed)
  | .stack => (rsp0, Fnv.leBytes retAddr)

variable (e : MemEngine)

def setRegion (seed : UInt64) (st : Setup e.toEngine) (r : SetupRegion) :
    Except UcError (Setup e.toEngine) := do
  let st ← mapRegion e.toEngine st r
  let engine ← e.memWrite st.engine (r.contents seed).1 (r.contents seed).2
  return { st with engine := engine }

def setupMemory (seed : UInt64) (image : Image) (s : e.State) :
    Except UcError (Setup e.toEngine) :=
  (regions image).foldlM (setRegion e seed) (Setup.fresh e.toEngine s)

/-! ## A run over its memory -/

/-- The recorder of a run and the engine it runs on. -/
structure Guest where
  recorder : Rec
  engine : e.State

/-- A callback of a memory hook, the code hook at an address, a byte the guest
reads, a byte it writes. -/
inductive GuestEvent where
  | callback (c : Callback)
  | code (addr : UInt64) (nr : UInt32) (retval : UInt64)
  | load (a : UInt64)
  | store (a : UInt64) (v : UInt8)

inductive GuestOutput where
  | command (c : Command)
  | loaded (v : UInt8)
  deriving DecidableEq

/-- Map a page and fill it; an error of the write is ignored. -/
def pageIn (seed : UInt64) (s : e.State) (page : UInt64) : e.State :=
  match e.memMap s page pageSize with
  | .ok s => okOr s (e.memWrite s page (fillBytes pageSize.toNat page seed))
  | .error _ => s

def obey (seed : UInt64) (s : e.State) : Command → e.State
  | .map page => pageIn e seed s page
  | _ => s

/-- What a memory hook is told of the engine is what the engine does. -/
def honest (s : e.State) : Callback → Bool
  | .unmapped _ addr mapOk => mapOk == (e.memMap s (pageOf addr) pageSize).toBool
  | .read _ | .write _ _ _ => true
  | .code _ _ _ _ _ => false

/-- The sixteen bytes from an address on can all be read. -/
def InView (read : UInt64 → Option UInt8) (addr : UInt64) : Prop :=
  addr.toNat + 16 ≤ 2 ^ 64 ∧ ∀ i < 16, (read (addr + UInt64.ofNat i)).isSome = true

instance (read : UInt64 → Option UInt8) (addr : UInt64) : Decidable (InView read addr) :=
  inferInstanceAs (Decidable (_ ∧ _))

/-- What the code hook finds in its buffer, which stays zero when the read fails. -/
def codeWindow (read : UInt64 → Option UInt8) (addr : UInt64) : Window :=
  if InView read addr then Vector.ofFn fun i : Fin 16 ↦ (read (addr + UInt64.ofNat i)).getD 0
  else Vector.replicate 16 0

variable (cs : Option Disasm)

/-- The code hook makes the instruction out by itself. -/
def codeCallback (read : UInt64 → Option UInt8) (addr : UInt64) (nr : UInt32) (retval : UInt64) :
    Callback :=
  let (kind, ilen) := decode cs addr (codeWindow read addr)
  .code addr kind ilen nr retval

/-- One event; the guest itself reaches mapped pages only. -/
def guestStep (g : Guest e) : GuestEvent → Option (Guest e × List GuestOutput)
  | .callback c =>
      if honest e g.engine c then
        (g.recorder.step c).map fun p ↦
          (⟨p.1, p.2.foldl (obey e g.recorder.cfg.seed) g.engine⟩, p.2.map .command)
      else none
  | .code addr nr retval =>
      if (e.read g.engine addr).isSome then
        (g.recorder.step (codeCallback cs (e.read g.engine) addr nr retval)).map fun p ↦
          (⟨p.1, p.2.foldl (obey e g.recorder.cfg.seed) g.engine⟩, p.2.map .command)
      else none
  | .load a => (e.read g.engine a).map fun v ↦ (g, [.loaded v])
  | .store a v => (e.memWrite g.engine a [v]).toOption.map fun s ↦ ({ g with engine := s }, [])

/-- The code hook reads mapped pages only. -/
def Sighted (g : Guest e) : GuestEvent → Prop
  | .code addr _ _ => InView (e.read g.engine) addr
  | .callback _ | .load _ | .store _ _ => True

/-! ## The same run over a complete memory -/

/-- The last of the contents of some regions that covers an address. -/
def setupByte (seed : UInt64) (rs : List SetupRegion) (a : UInt64) : Option UInt8 :=
  rs.reverse.findSome? fun r ↦ window (r.contents seed).1 (r.contents seed).2 a

/-- The pages mapped before a run. -/
def setupPages (image : Image) : Finset UInt64 :=
  ((regions image).flatMap fun r ↦ regionPages r.start r.len).toFinset

/-- All of the memory that a run finds. -/
def initialMemory (seed : UInt64) (image : Image) (a : UInt64) : UInt8 :=
  complete (setupByte seed (regions image))
    (fun a ↦ if pageOf a ∈ setupPages image then 0 else junkByte seed a) a

/-- One event over a complete memory, where nothing is mapped. -/
def flatStep (g : Rec × (UInt64 → UInt8)) :
    GuestEvent → Option ((Rec × (UInt64 → UInt8)) × List GuestOutput)
  | .callback c =>
      if c.codeAddr = none then (g.1.step c).map fun p ↦ ((p.1, g.2), p.2.map .command) else none
  | .code addr nr retval =>
      (g.1.step (codeCallback cs (fun a ↦ some (g.2 a)) addr nr retval)).map fun p ↦
        ((p.1, g.2), p.2.map .command)
  | .load a => some (g, [.loaded (g.2 a)])
  | .store a v => some ((g.1, complete (window a [v]) g.2), [])

end Fnprint
