import Fnprint.Lib.Delimited
import Fnprint.Store

/-!
# What a token hashes

A token is a fold over the bytes of an effect: a tag, and what the tag stands
for, without lengths.  Every part but a symbol name is self-delimiting, and a
name comes last, so the bytes determine the effect.
-/

namespace Fnprint

open Delimited

/-! ## The bytes -/

namespace Region

def tag : Region → UInt8
  | .arg _ => 10
  | .stack => 11
  | .global => 13
  | .heapish => 12

def fields : Region → List UInt8
  | .arg k => Fnv.leBytes k.toUInt64
  | _ => []

def bytes (r : Region) : List UInt8 := r.tag :: r.fields

theorem hash_eq (r : Region) (h : Fnv) : r.hash h = r.bytes.foldl Fnv.byte h := by
  rw [bytes, List.foldl_cons]
  cases r with
  | arg k => simp only [hash, Fnv.u64, Fnv.tag, tag, fields]
  | stack => rfl
  | global => rfl
  | heapish => rfl

end Region

namespace ValueClass

def tag : ValueClass → UInt8
  | .input _ => 20
  | .inputDeriv _ => 21
  | .zero => 22
  | .smallConst _ => 23
  | .bigConst => 24
  | .unknown => 25

def fields : ValueClass → List UInt8
  | .input k => Fnv.leBytes k.toUInt64
  | .inputDeriv k => Fnv.leBytes k.toUInt64
  | .smallConst c => Fnv.leBytes c.toUInt64
  | _ => []

def bytes (v : ValueClass) : List UInt8 := v.tag :: v.fields

theorem hash_eq (v : ValueClass) (h : Fnv) : v.hash h = v.bytes.foldl Fnv.byte h := by
  rw [bytes, List.foldl_cons]
  cases v with
  | input k => simp only [hash, Fnv.u64, Fnv.tag, tag, fields]
  | inputDeriv k => simp only [hash, Fnv.u64, Fnv.tag, tag, fields]
  | zero => rfl
  | smallConst c => simp only [hash, Fnv.u64, Fnv.tag, tag, fields]
  | bigConst => rfl
  | unknown => rfl

end ValueClass

def offBytes (off : Int32) : List UInt8 := Fnv.leBytes off.toInt64.toUInt64

def CallTarget.bytes : CallTarget → List UInt8
  | .sym s => 1 :: s.toUTF8.data.toList
  | .anon => [2]

namespace Effect

def tag : Effect → UInt8
  | .write .. => 1
  | .read .. => 8
  | .newRegion _ => 2
  | .call _ => 3
  | .syscall _ => 4
  | .branch => 5
  | .ret _ => 6
  | .capped => 7

def fields : Effect → List UInt8
  | .write region off val => region.bytes ++ offBytes off ++ val.bytes
  | .read region off => region.bytes ++ offBytes off
  | .newRegion r => r.bytes
  | .call target => target.bytes
  | .syscall n => Fnv.leBytes n.toUInt64
  | .ret v => v.bytes
  | _ => []

/-- What an effect feeds the hash. -/
def bytes (e : Effect) : List UInt8 := e.tag :: e.fields

theorem token_eq (e : Effect) : e.token = (e.bytes.foldl Fnv.byte Fnv.new).state := by
  rw [bytes, List.foldl_cons]
  cases e with
  | write region off val =>
      simp only [token, tag, fields, Fnv.tag, Fnv.i32, Fnv.u64, offBytes, List.foldl_append,
        Region.hash_eq, ValueClass.hash_eq]
  | read region off =>
      simp only [token, tag, fields, Fnv.tag, Fnv.i32, Fnv.u64, offBytes, List.foldl_append,
        Region.hash_eq]
  | newRegion r => simp only [token, tag, fields, Fnv.tag, Region.hash_eq]
  | call target =>
      cases target <;>
        simp only [token, tag, fields, CallTarget.bytes, Fnv.tag, List.foldl_cons, List.foldl_nil]
  | syscall n => simp only [token, tag, fields, Fnv.tag, Fnv.u64]
  | branch => rfl
  | ret v => simp only [token, tag, fields, Fnv.tag, ValueClass.hash_eq]
  | capped => rfl

end Effect

/-! ## No two effects share their bytes -/

theorem delimits_leBytes : Delimits Fnv.leBytes :=
  delimits_of_length (Function.LeftInverse.injective leWord_leBytes) length_leBytes

theorem toUInt64_injective16 : Function.Injective UInt16.toUInt64 := fun k l h ↦ by
  rw [← UInt16.toUInt16_toUInt64 k, h, UInt16.toUInt16_toUInt64]

theorem toUInt64_injective32 : Function.Injective UInt32.toUInt64 := fun m n h ↦ by
  rw [← UInt32.toUInt32_toUInt64 m, h, UInt32.toUInt32_toUInt64]

theorem toUInt64_injective_signed : Function.Injective Int64.toUInt64 := fun v w h ↦ by
  rw [← Int64.toInt64_toUInt64 v, h, Int64.toInt64_toUInt64]

theorem toInt64_injective32 : Function.Injective Int32.toInt64 := fun m n h ↦ by
  rw [← Int32.toInt32_toInt64 m, h, Int32.toInt32_toInt64]

theorem delimits_offBytes : Delimits offBytes :=
  delimits_leBytes.comp (toUInt64_injective_signed.comp toInt64_injective32)

/-- Only one of the regions holds a field. -/
theorem Region.delimits_bytes : Delimits Region.bytes := by
  refine delimits_of_tag (fun r ↦ rfl) fun x y htag s t h ↦ ?_
  cases x <;> cases y <;> try (simp [Region.tag] at htag; done)
  case arg.arg k l =>
    obtain ⟨heq, hst⟩ := (delimits_leBytes.comp toUInt64_injective16) k l s t h
    exact ⟨congrArg Region.arg heq, hst⟩
  all_goals exact ⟨rfl, h⟩

theorem ValueClass.delimits_bytes : Delimits ValueClass.bytes := by
  refine delimits_of_tag (fun v ↦ rfl) fun x y htag s t h ↦ ?_
  cases x <;> cases y <;> try (simp [ValueClass.tag] at htag; done)
  case input.input k l =>
    obtain ⟨heq, hst⟩ := (delimits_leBytes.comp toUInt64_injective16) k l s t h
    exact ⟨congrArg ValueClass.input heq, hst⟩
  case inputDeriv.inputDeriv k l =>
    obtain ⟨heq, hst⟩ := (delimits_leBytes.comp toUInt64_injective16) k l s t h
    exact ⟨congrArg ValueClass.inputDeriv heq, hst⟩
  case smallConst.smallConst c d =>
    obtain ⟨heq, hst⟩ := (delimits_leBytes.comp toUInt64_injective_signed) c d s t h
    exact ⟨congrArg ValueClass.smallConst heq, hst⟩
  all_goals exact ⟨rfl, h⟩

/-- A name is not delimited, but nothing follows it. -/
theorem CallTarget.bytes_injective : Function.Injective CallTarget.bytes := by
  intro x y h
  cases x <;> cases y <;> try (simp [CallTarget.bytes] at h; done)
  case sym.sym s t =>
    have hutf8 : s.toUTF8 = t.toUTF8 := by
      have hlist := congrArg List.toArray (List.cons.inj h).2
      rw [Array.toArray_toList, Array.toArray_toList] at hlist
      exact ByteArray.ext hlist
    rw [String.toByteArray_inj.mp hutf8]
  case anon.anon => rfl

theorem Effect.bytes_injective : Function.Injective Effect.bytes := by
  refine injective_of_tag (fun e ↦ rfl) fun x y htag h ↦ ?_
  cases x <;> cases y <;> try (simp [Effect.tag] at htag; done)
  case write.write r off v r' off' v' =>
    have hinj := ((Region.delimits_bytes.append delimits_offBytes).append
      ValueClass.delimits_bytes).injective
    obtain ⟨hfield, hv⟩ := Prod.mk.inj (@hinj ((r, off), v) ((r', off'), v') h)
    obtain ⟨hr, hoff⟩ := Prod.mk.inj hfield
    rw [hr, hoff, hv]
  case read.read r off r' off' =>
    have hinj := (Region.delimits_bytes.append delimits_offBytes).injective
    obtain ⟨hr, hoff⟩ := Prod.mk.inj (@hinj (r, off) (r', off') h)
    rw [hr, hoff]
  case newRegion.newRegion r r' => rw [Region.delimits_bytes.injective h]
  case call.call c c' => rw [CallTarget.bytes_injective h]
  case syscall.syscall m n =>
    rw [(delimits_leBytes.comp toUInt64_injective32).injective h]
  case ret.ret v v' => rw [ValueClass.delimits_bytes.injective h]
  all_goals rfl

/-- Tokens are a fold over bytes that determine the effect, so that different
effects with one token are a collision of the hash. -/
theorem token_unambiguous :
    (∀ e : Effect, e.token = (e.bytes.foldl Fnv.byte Fnv.new).state) ∧
      Function.Injective Effect.bytes ∧
      ∀ e e' : Effect, e ≠ e' → e.token = e'.token → e.bytes ≠ e'.bytes ∧
        (e.bytes.foldl Fnv.byte Fnv.new).state = (e'.bytes.foldl Fnv.byte Fnv.new).state := by
  refine ⟨Effect.token_eq, Effect.bytes_injective, fun e e' hne htoken ↦ ⟨?_, ?_⟩⟩
  · exact fun h ↦ hne (Effect.bytes_injective h)
  · rw [← Effect.token_eq, ← Effect.token_eq, htoken]

end Fnprint
