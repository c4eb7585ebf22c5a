import Fnprint.Recorder

/-!
# What each hook leaves alone

The memory hooks grow the effects and their keys.  All the rest of the recorder
belongs to the code hook, whose two outcomes are told apart here once.
-/

namespace Fnprint

open KeyMap Checked

/-- The part of the recorder that only the code hook changes. -/
structure CodeState where
  visits : Map UInt64 UInt32
  instret : UInt64
  covered : Map UInt64 UInt64
  coveredBytes : UInt64
  funcLo : UInt64
  funcHi : UInt64
  symbols : Map UInt64 String
  segs : List (UInt64 × UInt64)
  callees : Finset UInt64
  retCtr : UInt64
  force : List Bool
  branchSeen : ℕ
  naturalDirs : List Bool
  pendingBranch : Option UInt64

/-- The address of the instruction a code hook is about. -/
def Callback.codeAddr : Callback → Option UInt64
  | .code addr .. => some addr
  | _ => none

namespace Rec

def codeState (r : Rec) : CodeState :=
  { visits := r.visits
    instret := r.instret
    covered := r.covered
    coveredBytes := r.coveredBytes
    funcLo := r.funcLo
    funcHi := r.funcHi
    symbols := r.symbols
    segs := r.segs
    callees := r.callees
    retCtr := r.retCtr
    force := r.force
    branchSeen := r.branchSeen
    naturalDirs := r.naturalDirs
    pendingBranch := r.pendingBranch }

@[simp] theorem codeState_push (r : Rec) (e : Effect) : (r.push e).codeState = r.codeState := rfl

@[simp] theorem codeState_countMap (r : Rec) : r.countMap.codeState = r.codeState := rfl

@[simp] theorem codeState_countMemOp (r : Rec) (n : UInt64) :
    (r.countMemOp n).codeState = r.codeState := rfl

@[simp] theorem codeState_cap (r : Rec) (hit : Bool) : (r.cap hit).codeState = r.codeState := rfl

@[simp] theorem codeState_noteNewRegion (r : Rec) (addr : UInt64) :
    (r.noteNewRegion addr).codeState = r.codeState := by
  unfold noteNewRegion
  split
  · split <;> rfl
  · split <;> rfl
  · split
    · rfl
    · dsimp only
      split <;> rfl
  · rfl

@[simp] theorem codeState_noteRead (r : Rec) (e : Effect) :
    (r.noteRead e).codeState = r.codeState := by
  unfold noteRead
  split
  · rfl
  · dsimp only
    split <;> rfl

@[simp] theorem codeState_recordRead (r : Rec) (addr : UInt64) :
    (r.recordRead addr).codeState = r.codeState := by
  unfold recordRead
  dsimp only
  split
  · rfl
  · exact codeState_noteRead r _

@[simp] theorem codeState_recordWrite (r : Rec) (addr : UInt64) (size : ℕ) (val : Int64) :
    (r.recordWrite addr size val).codeState = r.codeState := by
  unfold recordWrite
  dsimp only
  split <;> rfl

theorem codeState_unmappedHook (r : Rec) (fetch : Bool) (addr : UInt64) (mapOk : Bool) :
    (r.unmappedHook fetch addr mapOk).1.codeState = r.codeState := by
  unfold unmappedHook
  split
  · rfl
  · split
    · rfl
    · split
      · simp
      · rfl

section Hooks

variable {r r' : Rec} {out : List Command}

theorem codeState_readHook {addr : UInt64} (h : r.readHook addr = some (r', out)) :
    r'.codeState = r.codeState := by
  obtain ⟨n, -, h⟩ := Option.bind_eq_some_iff.mp h
  dsimp only at h
  split at h
  · rw [← (Prod.mk.inj (Option.some.inj h)).1]
    simp
  · rw [← (Prod.mk.inj (Option.some.inj h)).1]
    simp

theorem codeState_writeHook {addr : UInt64} {size : ℕ} {val : Int64}
    (h : r.writeHook addr size val = some (r', out)) : r'.codeState = r.codeState := by
  obtain ⟨n, -, h⟩ := Option.bind_eq_some_iff.mp h
  dsimp only at h
  split at h
  · rw [← (Prod.mk.inj (Option.some.inj h)).1]
    simp
  · rw [← (Prod.mk.inj (Option.some.inj h)).1]
    simp

theorem codeState_step {c : Callback} (hc : c.codeAddr = none) (h : r.step c = some (r', out)) :
    r'.codeState = r.codeState := by
  cases c with
  | unmapped fetch addr mapOk =>
      have hr : (r.unmappedHook fetch addr mapOk).1 = r' := congrArg Prod.fst (Option.some.inj h)
      rw [← hr]
      exact codeState_unmappedHook r fetch addr mapOk
  | read addr => exact codeState_readHook h
  | write addr size val => exact codeState_writeHook h
  | code addr kind ilen nr retval => cases hc

/-- A step leaves the state of the code hook alone, or is one. -/
theorem step_cases {c : Callback} (h : r.step c = some (r', out)) :
    (c.codeAddr = none ∧ r'.codeState = r.codeState) ∨ ∃ addr kind ilen nr retval,
      c = .code addr kind ilen nr retval ∧
        r.codeHook addr kind ilen nr retval = some (r', out) := by
  cases c with
  | unmapped fetch addr mapOk => exact Or.inl ⟨rfl, codeState_step rfl h⟩
  | read addr => exact Or.inl ⟨rfl, codeState_step rfl h⟩
  | write addr size val => exact Or.inl ⟨rfl, codeState_step rfl h⟩
  | code addr kind ilen nr retval => exact Or.inr ⟨addr, kind, ilen, nr, retval, rfl, h⟩

/-! ## What an instruction leaves alone -/

section Parts

variable {α : Type*} {π : Rec → α}

theorem keeps_noteCallee (hcallees : ∀ (r : Rec) s, π { r with callees := s } = π r) (r : Rec)
    (target : Option UInt64) (direct : Bool) : π (r.noteCallee target direct) = π r := by
  unfold noteCallee
  split
  · split
    · exact hcallees r _
    · rfl
  · rfl

theorem keeps_passBranch (hseen : ∀ (r : Rec) n, π { r with branchSeen := n } = π r)
    (hpending : ∀ (r : Rec) p, π { r with pendingBranch := p } = π r) (r : Rec)
    (addr ilen : UInt64) (target : Option UInt64) :
    π (r.passBranch addr ilen target).1 = π r := by
  unfold passBranch
  split
  · exact hseen r _
  · exact (hpending _ _).trans (hseen r _)

/-- A part apart from the effects and the counter of the fake returns changes
only where a call or a branch changes it. -/
theorem keeps_steer {addr ilen retval : UInt64} {kind : Kind} {nr : UInt32}
    (hpush : ∀ (r : Rec) e, π (r.push e) = π r)
    (hret : ∀ (r : Rec) ctr, π (r.countRet ctr) = π r)
    (hcall : ∀ target direct, kind = .call target direct →
      π (r.noteCallee target direct) = π r)
    (hbranch : ∀ target, kind = .branch target →
      π ((r.push .branch).passBranch addr ilen target).1 = π (r.push .branch))
    (h : r.steer addr kind ilen nr retval = some (r', out)) : π r' = π r := by
  unfold steer at h
  cases kind with
  | call target direct =>
      obtain ⟨ctr, -, h⟩ := Option.bind_eq_some_iff.mp h
      rw [← (Prod.mk.inj (Option.some.inj h)).1, hpush, hret]
      exact hcall target direct rfl
  | syscall =>
      obtain ⟨ctr, -, h⟩ := Option.bind_eq_some_iff.mp h
      rw [← (Prod.mk.inj (Option.some.inj h)).1, hpush, hret]
  | ret => rw [← (Prod.mk.inj (Option.some.inj h)).1, hpush]
  | branch target =>
      have hr : ((r.push .branch).passBranch addr ilen target).1 = r' :=
        congrArg Prod.fst (Option.some.inj h)
      rw [← hr, hbranch target rfl, hpush]
  | plain => rw [← (Prod.mk.inj (Option.some.inj h)).1]

end Parts

/-- The state a code hook counts an instruction in. -/
def visited (r : Rec) (addr instret : UInt64) (visits : UInt32) : Rec :=
  (r.settleBranch addr).countVisit addr instret visits

theorem settleBranch_counts (r : Rec) (addr : UInt64) :
    (r.settleBranch addr).instret = r.instret ∧ (r.settleBranch addr).visits = r.visits := by
  unfold settleBranch
  split <;> exact ⟨rfl, rfl⟩

/-- A code hook counts the instruction; a cap stops it, or it is steered. -/
theorem codeHook_cases {addr ilen retval : UInt64} {kind : Kind} {nr : UInt32}
    (h : r.codeHook addr kind ilen nr retval = some (r', out)) :
    ∃ instret visits, add64 r.instret 1 = some instret ∧
      add32 ((r.visits.lookup addr).getD 0) 1 = some visits ∧
      (r.overCaps instret visits = true ∧ r' = (r.visited addr instret visits).cap true ∧
          out = [.stop] ∨
        r.overCaps instret visits = false ∧
          ((r.visited addr instret visits).cover addr ilen).steer addr kind ilen nr retval =
            some (r', out)) := by
  have hsettle := r.settleBranch_counts addr
  have hcaps : ∀ instret visits, (r.visited addr instret visits).overCaps instret visits =
      r.overCaps instret visits := by
    intro instret visits
    unfold visited settleBranch
    split <;> rfl
  obtain ⟨instret, hinstret, h⟩ := Option.bind_eq_some_iff.mp h
  obtain ⟨visits, hvisits, h⟩ := Option.bind_eq_some_iff.mp h
  rw [hsettle.1] at hinstret
  rw [hsettle.2] at hvisits
  refine ⟨instret, visits, hinstret, hvisits, ?_⟩
  change (if (r.visited addr instret visits).overCaps instret visits then _ else _) = _ at h
  rw [hcaps] at h
  cases hover : r.overCaps instret visits with
  | true =>
      rw [hover, if_pos rfl] at h
      obtain ⟨hr, hout⟩ := Prod.mk.inj (Option.some.inj h)
      exact Or.inl ⟨rfl, hr.symm, hout.symm⟩
  | false =>
      rw [hover, if_neg Bool.false_ne_true] at h
      exact Or.inr ⟨rfl, h⟩

end Hooks

end Rec

end Fnprint
