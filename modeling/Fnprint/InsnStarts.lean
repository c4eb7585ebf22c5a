import Fnprint.Lib.Fallible
import Fnprint.SweepSafe

/-!
# Where instructions start

The instruction starts of a body increase and lie inside it, as long as the
body does not run past the top of the address space.
-/

namespace Fnprint

open Checked

/-- Instructions reported one behind the other, from an address on. -/
def PlacedAt : UInt64 → List Insn → Prop
  | _, [] => True
  | addr, insn :: insns =>
      insn.address = addr ∧ PlacedAt (addr + UInt64.ofNat insn.bytes.length) insns

/-- A disassembler that reports where each instruction starts. -/
def Disasm.Placed (cs : Disasm) : Prop :=
  ∀ bytes addr insns, cs bytes addr = some insns → PlacedAt addr insns

/-- Increasing addresses of a window of bytes. -/
structure StartsIn (lo : UInt64) (n : ℕ) (starts : List UInt64) : Prop where
  increasing : starts.Pairwise (· < ·)
  inside : ∀ a ∈ starts, lo.toNat ≤ a.toNat ∧ a.toNat < lo.toNat + n

theorem startsIn_nil (lo : UInt64) (n : ℕ) : StartsIn lo n [] :=
  ⟨List.Pairwise.nil, fun _ ha ↦ absurd ha List.not_mem_nil⟩

theorem StartsIn.append {lo mid : UInt64} {m n : ℕ} {starts starts' : List UInt64}
    (h : StartsIn lo m starts) (h' : StartsIn mid n starts')
    (hmid : mid.toNat = lo.toNat + m) : StartsIn lo (m + n) (starts ++ starts') := by
  refine ⟨List.pairwise_append.mpr ⟨h.increasing, h'.increasing, fun a ha b hb ↦ ?_⟩,
    fun a ha ↦ ?_⟩
  · have hlow := h.inside a ha
    have hhigh := h'.inside b hb
    exact UInt64.lt_iff_toNat_lt.mpr (by omega)
  · rcases List.mem_append.mp ha with ha | ha
    · have hlow := h.inside a ha
      omega
    · have hhigh := h'.inside a ha
      omega

theorem StartsIn.mono {lo : UInt64} {m n : ℕ} {starts : List UInt64} (h : StartsIn lo m starts)
    (hmn : m ≤ n) : StartsIn lo n starts := by
  refine ⟨h.increasing, fun a ha ↦ ?_⟩
  have hin := h.inside a ha
  omega

/-! ## One run of the disassembler -/

theorem startsIn_placed {insns : List Insn} {addr : UInt64} (h : PlacedAt addr insns)
    (hne : ∀ insn ∈ insns, insn.bytes ≠ [])
    (hfit : addr.toNat + (insns.flatMap Insn.bytes).length ≤ 2 ^ 64) :
    StartsIn addr (insns.flatMap Insn.bytes).length (insns.map Insn.address) := by
  induction insns generalizing addr with
  | nil => exact startsIn_nil addr 0
  | cons insn insns ih =>
      obtain ⟨haddr, hrest⟩ := h
      obtain ⟨hhead, htail⟩ := List.forall_mem_cons.mp hne
      have hpos := List.length_pos_of_ne_nil hhead
      have hone : StartsIn addr insn.bytes.length [insn.address] := by
        refine ⟨List.pairwise_singleton _ _, fun a ha ↦ ?_⟩
        rw [List.mem_singleton.mp ha, haddr]
        omega
      rw [List.flatMap_cons, List.length_append] at hfit ⊢
      cases insns with
      | nil => exact hone.mono (Nat.le_add_right _ _)
      | cons next insns =>
          have hnext := List.length_pos_of_ne_nil (htail next (List.mem_cons_self ..))
          have hmid : (addr + UInt64.ofNat insn.bytes.length).toNat =
              addr.toNat + insn.bytes.length := by
            rw [List.flatMap_cons, List.length_append] at hfit
            rw [UInt64.toNat_add, toNat_ofNat64 (by omega)]
            exact Nat.mod_eq_of_lt (by omega)
          exact hone.append (ih hrest htail (by rw [hmid]; omega)) hmid

theorem visitRun_starts {insns : List Insn} {p q : List UInt64 × ℕ}
    (h : visitRun (fun out insn ↦ some (out ++ [insn.address])) insns p = some q) :
    q = (p.1 ++ insns.map Insn.address, p.2 + (insns.flatMap Insn.bytes).length) := by
  induction insns generalizing p with
  | nil =>
      rw [← Option.some.inj h, List.map_nil, List.append_nil]
      rfl
  | cons insn insns ih =>
      obtain ⟨advanced, hadv, h⟩ := Option.bind_eq_some_iff.mp h
      obtain ⟨s, hs, h⟩ := Option.bind_eq_some_iff.mp h
      obtain ⟨-, hadv⟩ := Option.ite_none_right_eq_some.mp hadv
      rw [ih h, ← Option.some.inj hs, ← Option.some.inj hadv, List.map_cons, List.flatMap_cons,
        List.length_append, List.append_assoc, List.singleton_append, Nat.add_assoc]

/-! ## Whole sweeps -/

theorem startsIn_decodeSweep {cs : Disasm} (hok : cs.Ok) (hplaced : cs.Placed) {lo : UInt64}
    {code : List UInt8} (hfit : lo.toNat + code.length < 2 ^ 64) {starts : List UInt64}
    (h : decodeSweep (fun out insn ↦ some (out ++ [insn.address])) cs lo code [] = some starts) :
    StartsIn lo code.length starts := by
  have hinv : ∃ off, off ≤ code.length ∧ StartsIn lo off starts := by
    refine Resync.scan_invariant (P := fun off out ↦ off ≤ code.length ∧ StartsIn lo off out) ?_
      ⟨Nat.zero_le _, startsIn_nil lo 0⟩ h
    rintro off out out' n hoff ⟨-, hout⟩ hstep
    obtain ⟨addr, haddr, hstep⟩ := Option.bind_eq_some_iff.mp hstep
    obtain ⟨rest, hrest, hstep⟩ := Option.bind_eq_some_iff.mp hstep
    obtain ⟨-, hrest⟩ := Option.ite_none_right_eq_some.mp hrest
    obtain ⟨-, rfl⟩ := add64_eq_some_iff.mp haddr
    have hmid : (lo + UInt64.ofNat off).toNat = lo.toNat + off := by
      rw [UInt64.toNat_add, toNat_ofNat64 (by omega)]
      exact Nat.mod_eq_of_lt (by omega)
    cases hcs : cs rest (lo + UInt64.ofNat off) with
    | none =>
        rw [hcs] at hstep
        cases hstep
    | some insns =>
        rw [hcs] at hstep
        obtain ⟨q, hvisit, hstep⟩ := Option.bind_eq_some_iff.mp hstep
        have hq := visitRun_starts hvisit
        rw [Option.some.inj (Option.some.inj hstep)] at hq
        obtain ⟨rfl, rfl⟩ := Prod.mk.inj hq
        obtain ⟨hne, hprefix⟩ := hok _ _ _ hcs
        have hle := hprefix.length_le
        rw [← Option.some.inj hrest, List.length_drop] at hle
        have hrun := startsIn_placed (hplaced _ _ _ hcs) hne (by omega)
        rw [Nat.zero_add]
        exact ⟨by omega, (hout.append hrun hmid).mono (by omega)⟩
  obtain ⟨off, hoff, hstarts⟩ := hinv
  exact hstarts.mono hoff

theorem startsIn_fours {lo : UInt64} {n : ℕ} (hfit : lo.toNat + n * 4 < 2 ^ 64) :
    StartsIn lo (n * 4) ((List.range n).map fun i ↦ lo + UInt64.ofNat i * 4) := by
  have hat : ∀ i < n, (lo + UInt64.ofNat i * 4).toNat = lo.toNat + i * 4 := by
    intro i hi
    have hoff : (UInt64.ofNat i * 4).toNat = i * 4 := by
      rw [UInt64.toNat_mul, toNat_ofNat64 (by omega)]
      exact Nat.mod_eq_of_lt (show i * 4 < 2 ^ 64 by omega)
    rw [UInt64.toNat_add, hoff]
    exact Nat.mod_eq_of_lt (by omega)
  refine ⟨List.pairwise_map.mpr ?_, fun a ha ↦ ?_⟩
  · refine List.pairwise_lt_range.imp_of_mem fun {i j} hi hj hij ↦ ?_
    rw [UInt64.lt_iff_toNat_lt, hat i (List.mem_range.mp hi), hat j (List.mem_range.mp hj)]
    omega
  · obtain ⟨i, hi, rfl⟩ := List.mem_map.mp ha
    have hlt := List.mem_range.mp hi
    rw [hat i hlt]
    omega

/-- The starts of a body below the top increase and lie in the body. -/
theorem startsIn_insnStarts {capstone : Option Disasm}
    (hcs : ∀ cs ∈ capstone, cs.Ok ∧ cs.Placed) {image : Image} {func : Func}
    (hwrap : func.entry.toNat + func.size.toNat < 2 ^ 64) {starts : List UInt64}
    (h : insnStarts capstone image func = some starts) :
    StartsIn func.entry func.size.toNat starts := by
  have hlen : func.sweepLen ≤ func.size.toNat := Nat.min_le_left _ _
  unfold insnStarts at h
  split at h
  · have hfour : (4 : UInt64).toNat = 4 := rfl
    have hle := Nat.div_mul_le_self func.sweepLen 4
    rw [Fallible.mapM_eq_some_map (g := fun i ↦ func.entry + UInt64.ofNat i * 4)] at h
    · rw [← Option.some.inj h]
      exact (startsIn_fours (by omega)).mono (hle.trans hlen)
    · intro i hi
      have hlt := List.mem_range.mp hi
      rw [mul64_eq_some (by rw [toNat_ofNat64 (by omega), hfour]; omega)]
      rfl
  · split at h
    · rw [← Option.some.inj h]
      exact startsIn_nil _ _
    · next cs =>
        split at h
        · rw [← Option.some.inj h]
          exact startsIn_nil _ _
        · next code hcode =>
            have hlength := length_of_codeAt hcode
            obtain ⟨hok, hplaced⟩ := hcs cs rfl
            exact (startsIn_decodeSweep hok hplaced (by omega) h).mono (by omega)

end Fnprint
