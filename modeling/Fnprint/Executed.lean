import Fnprint.Branches
import Fnprint.Coverage
import Fnprint.RecorderBounds

/-!
# What a run executed

A run reports the instructions of its body that it covered.  In the body these
are the instructions it executed, and the first of them is where the run was
started.  Once the cap on instructions or on effects is met nothing runs any
more, so a run that is stopped before its first instruction covers nothing.
-/

namespace Fnprint

open KeyMap Checked

namespace Rec

/-! ## What only grows -/

/-- The configuration stays, effects are only added. -/
structure Grew (r r' : Rec) : Prop where
  cfg : r'.cfg = r.cfg
  effects : r.effects.length ≤ r'.effects.length

theorem Grew.refl (r : Rec) : Grew r r := ⟨rfl, le_rfl⟩

theorem Grew.trans {r r' r'' : Rec} (h : Grew r r') (h' : Grew r' r'') : Grew r r'' :=
  ⟨h'.cfg.trans h.cfg, h.effects.trans h'.effects⟩

theorem Quiet.grew {r r' : Rec} (h : Quiet r r') : Grew r r' := ⟨h.cfg, h.effects ▸ le_rfl⟩

theorem grew_push (r : Rec) (e : Effect) : Grew r (r.push e) :=
  ⟨rfl, by simp [push]⟩

theorem grew_noteNewRegion (r : Rec) (addr : UInt64) : Grew r (r.noteNewRegion addr) := by
  unfold noteNewRegion
  split
  · split
    · exact Grew.refl r
    · exact ⟨rfl, (grew_push _ _).effects⟩
  · split
    · exact Grew.refl r
    · exact ⟨rfl, (grew_push _ _).effects⟩
  · split
    · exact Grew.refl r
    · dsimp only
      split
      · exact ⟨rfl, (grew_push _ _).effects⟩
      · exact ⟨rfl, le_rfl⟩
  · exact Grew.refl r

theorem grew_recordRead (r : Rec) (addr : UInt64) : Grew r (r.recordRead addr) := by
  unfold recordRead noteRead
  dsimp only
  split
  · exact Grew.refl r
  · split
    · exact Grew.refl r
    · split
      · exact ⟨rfl, (grew_push _ _).effects⟩
      · exact ⟨rfl, le_rfl⟩

theorem grew_recordWrite (r : Rec) (addr : UInt64) (size : ℕ) (val : Int64) :
    Grew r (r.recordWrite addr size val) := by
  unfold recordWrite
  dsimp only
  split
  · exact Grew.refl r
  · exact grew_push r _

section Hooks

variable {r r' : Rec} {out : List Command}

theorem grew_unmappedHook (fetch : Bool) (addr : UInt64) (mapOk : Bool) :
    Grew r (r.unmappedHook fetch addr mapOk).1 := by
  unfold unmappedHook
  split
  · exact Grew.refl r
  · split
    · exact (quiet_cap r true).grew
    · have hcount : Grew r r.countMap := ⟨rfl, le_rfl⟩
      split
      · exact hcount.trans (grew_noteNewRegion r.countMap addr)
      · exact hcount

theorem grew_readHook {addr : UInt64} (h : r.readHook addr = some (r', out)) : Grew r r' := by
  obtain ⟨n, -, h⟩ := Option.bind_eq_some_iff.mp h
  have hquiet : Quiet r ((r.countMemOp n).cap (r.cfg.memOpCap ≤ n)) :=
    (quiet_countMemOp r n).trans (quiet_cap _ _)
  dsimp only at h
  split at h
  · rw [← (Prod.mk.inj (Option.some.inj h)).1]
    exact hquiet.grew
  · rw [← (Prod.mk.inj (Option.some.inj h)).1]
    exact (hquiet.grew.trans (grew_noteNewRegion _ addr)).trans (grew_recordRead _ addr)

theorem grew_writeHook {addr : UInt64} {size : ℕ} {val : Int64}
    (h : r.writeHook addr size val = some (r', out)) : Grew r r' := by
  obtain ⟨n, -, h⟩ := Option.bind_eq_some_iff.mp h
  have hquiet : Quiet r ((r.countMemOp n).cap (r.cfg.maxEffects ≤ r.effects.length ||
      r.cfg.memOpCap ≤ n)) := (quiet_countMemOp r n).trans (quiet_cap _ _)
  dsimp only at h
  split at h
  · rw [← (Prod.mk.inj (Option.some.inj h)).1]
    exact hquiet.grew
  · rw [← (Prod.mk.inj (Option.some.inj h)).1]
    exact (hquiet.grew.trans (grew_noteNewRegion _ addr)).trans (grew_recordWrite _ addr size val)

theorem grew_steer {addr ilen retval : UInt64} {kind : Kind} {nr : UInt32}
    (h : r.steer addr kind ilen nr retval = some (r', out)) : Grew r r' := by
  unfold steer at h
  cases kind with
  | call target direct =>
      obtain ⟨ctr, -, h⟩ := Option.bind_eq_some_iff.mp h
      rw [← (Prod.mk.inj (Option.some.inj h)).1]
      exact ((quiet_noteCallee r target direct).trans (quiet_countRet _ ctr)).grew.trans
        (grew_push _ _)
  | syscall =>
      obtain ⟨ctr, -, h⟩ := Option.bind_eq_some_iff.mp h
      rw [← (Prod.mk.inj (Option.some.inj h)).1]
      exact (quiet_countRet r ctr).grew.trans (grew_push _ _)
  | ret =>
      rw [← (Prod.mk.inj (Option.some.inj h)).1]
      exact grew_push r _
  | branch target =>
      have hr : ((r.push .branch).passBranch addr ilen target).1 = r' :=
        congrArg Prod.fst (Option.some.inj h)
      rw [← hr]
      exact (grew_push r .branch).trans (quiet_passBranch _ addr ilen target).grew
  | plain =>
      rw [← (Prod.mk.inj (Option.some.inj h)).1]
      exact Grew.refl r

theorem quiet_visited (r : Rec) (addr instret : UInt64) (visits : UInt32) :
    Quiet r (r.visited addr instret visits) :=
  (quiet_settleBranch r addr).trans (quiet_countVisit _ addr instret visits)

theorem grew_codeHook {addr ilen retval : UInt64} {kind : Kind} {nr : UInt32}
    (h : r.codeHook addr kind ilen nr retval = some (r', out)) : Grew r r' := by
  obtain ⟨instret, visits, -, -, h⟩ := codeHook_cases h
  have hvisited := quiet_visited r addr instret visits
  rcases h with ⟨-, rfl, -⟩ | ⟨-, h⟩
  · exact (hvisited.trans (quiet_cap _ true)).grew
  · exact (hvisited.trans (quiet_cover _ addr ilen)).grew.trans (grew_steer h)

theorem grew_step {c : Callback} (h : r.step c = some (r', out)) : Grew r r' := by
  cases c with
  | unmapped fetch addr mapOk =>
      have hr : (r.unmappedHook fetch addr mapOk).1 = r' := congrArg Prod.fst (Option.some.inj h)
      rw [← hr]
      exact grew_unmappedHook fetch addr mapOk
  | read addr => exact grew_readHook h
  | write addr size val => exact grew_writeHook h
  | code addr kind ilen nr retval => exact grew_codeHook h

/-! ## What a code hook counts -/

/-- The counters of a code hook, and the body it holds addresses against. -/
def counters (r : Rec) : UInt64 × Map UInt64 UInt32 × UInt64 × UInt64 :=
  (r.instret, r.visits, r.funcLo, r.funcHi)

/-- One more instruction, one more visit to its address. -/
structure Steps (r r' : Rec) (addr instret : UInt64) (visits : UInt32) : Prop where
  instret_eq : add64 r.instret 1 = some instret
  visits_eq : add32 (r.visitsOf addr) 1 = some visits
  instret : r'.instret = instret
  visitsOf : ∀ a, r'.visitsOf a = if a = addr then visits else r.visitsOf a
  funcLo : r'.funcLo = r.funcLo
  funcHi : r'.funcHi = r.funcHi

theorem Steps.eq_of_new {addr instret a : UInt64} {visits : UInt32}
    (h : Steps r r' addr instret visits) (hold : r.visitsOf a = 0) (ha : r'.visitsOf a ≠ 0) :
    a = addr := by
  by_contra hne
  rw [h.visitsOf, if_neg hne] at ha
  exact ha hold

theorem steps_codeHook {addr ilen retval : UInt64} {kind : Kind} {nr : UInt32}
    (h : r.codeHook addr kind ilen nr retval = some (r', out)) :
    ∃ instret visits, Steps r r' addr instret visits := by
  obtain ⟨instret, visits, hinstret, hvisits, h⟩ := codeHook_cases h
  have hs := countedVisit r addr instret visits
  have hcount : (r.visited addr instret visits).instret = instret := rfl
  rw [← visited] at hs
  have hkept : r'.counters = (r.visited addr instret visits).counters := by
    rcases h with ⟨-, rfl, -⟩ | ⟨-, h⟩
    · rfl
    · have hcover : ((r.visited addr instret visits).cover addr ilen).counters =
          (r.visited addr instret visits).counters := by
        unfold cover
        split <;> rfl
      rw [← hcover]
      exact keeps_steer (fun _ _ ↦ rfl) (fun _ _ ↦ rfl)
        (fun target direct _ ↦ keeps_noteCallee (fun _ _ ↦ rfl) _ target direct)
        (fun target _ ↦ keeps_passBranch (fun _ _ ↦ rfl) (fun _ _ ↦ rfl) _ addr ilen target) h
  obtain ⟨hinstret', hkept⟩ := Prod.mk.inj hkept
  obtain ⟨hvisits', hkept⟩ := Prod.mk.inj hkept
  obtain ⟨hlo, hhi⟩ := Prod.mk.inj hkept
  refine ⟨instret, visits, hinstret, hvisits, hinstret'.trans hcount, fun a ↦ ?_,
    hlo.trans hs.body.1, hhi.trans hs.body.2⟩
  rw [← hs.visitsOf, visitsOf, visitsOf, hvisits']

/-- An instruction that runs is covered when it is new to the body. -/
theorem covered_codeHook {addr ilen retval : UInt64} {kind : Kind} {nr : UInt32} {i : Ran}
    (h : r.codeHook addr kind ilen nr retval = some (r', out))
    (hb : r.begins (.code addr kind ilen nr retval) = some i) :
    r'.covered = if r.visitsOf addr = 0 ∧ r.funcLo ≤ addr ∧ addr < r.funcHi then
      r.covered.insert addr ilen else r.covered := by
  obtain ⟨-, hsame, hcounts⟩ := tallied_codeHook h
  obtain rfl := eq_of_begins hb
  have hcounted : r.counted (.code addr kind ilen nr retval) =
      if r.visitsOf addr = 0 ∧ r.funcLo ≤ addr ∧ addr < r.funcHi then some (addr, ilen)
      else none := by
    rw [counted, hb, Option.filter_some]
    simp only [decide_eq_true_eq]
  split
  · next hnew =>
      rw [if_pos hnew] at hcounted
      exact (hcounts _ hcounted).2.2.1
  · next hold =>
      rw [if_neg hold] at hcounted
      exact (hsame hcounted).1

/-! ## Spent runs -/

/-- A cap is met that no later instruction passes. -/
def Spent (r : Rec) : Prop :=
  r.cfg.visitCap = 0 ∨ r.cfg.instrCap ≤ r.instret ∨ r.cfg.maxEffects ≤ r.effects.length

theorem toNat_of_add64_one {x y : UInt64} (h : add64 x 1 = some y) : y.toNat = x.toNat + 1 := by
  obtain ⟨hfit, rfl⟩ := add64_eq_some_iff.mp h
  rw [UInt64.toNat_add]
  exact Nat.mod_eq_of_lt hfit

theorem overCaps_iff {r : Rec} {instret : UInt64} {visits : UInt32} :
    r.overCaps instret visits = true ↔ r.cfg.visitCap < visits ∨ r.cfg.instrCap < instret ∨
      r.cfg.maxEffects ≤ r.effects.length := by
  rw [Rec.overCaps, Bool.or_eq_true, Bool.or_eq_true, decide_eq_true_iff, decide_eq_true_iff,
    decide_eq_true_iff, or_assoc]

theorem Spent.overCaps (h : r.Spent) {addr instret : UInt64} {visits : UInt32}
    (hinstret : add64 r.instret 1 = some instret)
    (hvisits : add32 (r.visitsOf addr) 1 = some visits) : r.overCaps instret visits = true := by
  have hnext := toNat_of_add64_one hinstret
  have hne := (add32_one hvisits).1
  apply overCaps_iff.mpr
  rcases h with hcap | hcap | hcap
  · rw [hcap]
    exact Or.inl (UInt32.pos_iff_ne_zero.mpr hne)
  · rw [UInt64.le_iff_toNat_le] at hcap
    exact Or.inr (Or.inl (UInt64.lt_iff_toNat_lt.mpr (by omega)))
  · exact Or.inr (Or.inr hcap)

theorem Spent.begins (h : r.Spent) (c : Callback) : r.begins c = none := by
  cases c with
  | unmapped fetch addr mapOk => rfl
  | read addr => rfl
  | write addr size val => rfl
  | code addr kind ilen nr retval =>
      cases hinstret : add64 r.instret 1 with
      | none =>
          rw [Rec.begins, hinstret]
          rfl
      | some instret =>
          cases hvisits : add32 (r.visitsOf addr) 1 with
          | none =>
              rw [Rec.begins, hinstret, ← visitsOf, hvisits]
              rfl
          | some visits =>
              rw [begins_code hinstret hvisits, if_pos (h.overCaps hinstret hvisits)]

theorem instret_step {c : Callback} (h : r.step c = some (r', out)) :
    r.instret.toNat ≤ r'.instret.toNat := by
  rcases step_cases h with ⟨-, hstate⟩ | ⟨addr, kind, ilen, nr, retval, -, hcode⟩
  · rw [show r'.instret = r.instret from congrArg CodeState.instret hstate]
  · obtain ⟨instret, visits, hs⟩ := steps_codeHook hcode
    have hnext := toNat_of_add64_one hs.instret_eq
    rw [hs.instret]
    omega

theorem Spent.step (hspent : r.Spent) {c : Callback} (h : r.step c = some (r', out)) :
    r'.Spent := by
  have hgrew := grew_step h
  have hinstret := instret_step h
  unfold Spent
  rw [hgrew.cfg]
  rcases hspent with hcap | hcap | hcap
  · exact Or.inl hcap
  · rw [UInt64.le_iff_toNat_le] at hcap
    exact Or.inr (Or.inl (UInt64.le_iff_toNat_le.mpr (hcap.trans hinstret)))
  · exact Or.inr (Or.inr (hcap.trans hgrew.effects))

/-- An instruction stopped on its first visit spends the run. -/
theorem spent_of_first {addr ilen retval : UInt64} {kind : Kind} {nr : UInt32}
    (h : r.codeHook addr kind ilen nr retval = some (r', out)) (hfirst : r.visitsOf addr = 0)
    (hstop : r.begins (.code addr kind ilen nr retval) = none) : r'.Spent := by
  obtain ⟨instret, visits, hs⟩ := steps_codeHook h
  have hgrew := grew_codeHook h
  have hone := (add32_one hs.visits_eq).2.mpr hfirst
  rw [begins_code hs.instret_eq hs.visits_eq, ite_eq_left_iff] at hstop
  have hcaps : r.overCaps instret visits = true := by
    by_contra hcaps
    exact Option.some_ne_none _ (hstop hcaps)
  unfold Spent
  rw [hgrew.cfg, hs.instret]
  rcases overCaps_iff.mp hcaps with hcap | hcap | hcap
  · rw [hone] at hcap
    exact Or.inl (UInt32.lt_one_iff.mp hcap)
  · exact Or.inr (Or.inl (UInt64.le_of_lt hcap))
  · exact Or.inr (Or.inr (hcap.trans hgrew.effects))

/-! ## Single instructions -/

variable {addr ilen retval : UInt64} {kind : Kind} {nr : UInt32}

/-- A branch, or an instruction that is not steered, aborts only by a counter. -/
theorem exists_step (r : Rec) (addr ilen : UInt64) (nr : UInt32) (retval : UInt64)
    (hkind : kind = .plain ∨ ∃ target, kind = .branch target)
    (hinstret : r.instret.toNat + 1 < 2 ^ 64) (hvisits : (r.visitsOf addr).toNat + 1 < 2 ^ 32) :
    ∃ r' out, r.step (.code addr kind ilen nr retval) = some (r', out) := by
  have hsettle := r.settleBranch_counts addr
  have hadd : add64 r.instret 1 = some (r.instret + 1) := add64_eq_some_iff.mpr ⟨hinstret, rfl⟩
  have hadd' : add32 ((r.visits.lookup addr).getD 0) 1 = some (r.visitsOf addr + 1) :=
    if_pos hvisits
  rw [step, codeHook]
  dsimp only
  rw [hsettle.1, hsettle.2, hadd, hadd', Option.bind_eq_bind, Option.bind_some,
    Option.bind_eq_bind, Option.bind_some]
  split
  · exact ⟨_, _, rfl⟩
  · rcases hkind with rfl | ⟨target, rfl⟩
    · exact ⟨_, _, rfl⟩
    · exact ⟨_, _, rfl⟩

theorem effects_plain (h : r.codeHook addr .plain ilen nr retval = some (r', out)) :
    r'.effects = r.effects := by
  obtain ⟨instret, visits, -, -, h⟩ := codeHook_cases h
  have hvisited := quiet_visited r addr instret visits
  rcases h with ⟨-, rfl, -⟩ | ⟨-, h⟩
  · exact (hvisited.trans (quiet_cap _ true)).effects
  · rw [← (Prod.mk.inj (Option.some.inj h)).1]
    exact (hvisited.trans (quiet_cover _ addr ilen)).effects

theorem covered_of_stopped (h : r.codeHook addr kind ilen nr retval = some (r', out))
    (hb : r.begins (.code addr kind ilen nr retval) = none) : r'.covered = r.covered :=
  ((tallied_codeHook h).same (by rw [counted, hb]; rfl)).1

theorem covered_of_visited (hold : r.visitsOf addr ≠ 0)
    (h : r.codeHook addr kind ilen nr retval = some (r', out)) : r'.covered = r.covered := by
  cases hb : r.begins (.code addr kind ilen nr retval) with
  | none => exact covered_of_stopped h hb
  | some i =>
      rw [covered_codeHook h hb]
      exact if_neg fun hnew ↦ hold hnew.1

theorem begins_of_not_spent (hnew : r.visitsOf addr = 0) (h : ¬r.Spent) :
    r.begins (.code addr kind ilen nr retval) = some (addr, ilen) := by
  obtain ⟨hvisit, hinstr, heffect⟩ : r.cfg.visitCap ≠ 0 ∧ ¬r.cfg.instrCap ≤ r.instret ∧
      ¬r.cfg.maxEffects ≤ r.effects.length := by
    rwa [Spent, not_or, not_or] at h
  have hroom := UInt64.lt_iff_toNat_lt.mp (UInt64.not_le.mp hinstr)
  have hlt := r.cfg.instrCap.toNat_lt
  have hinstret : add64 r.instret 1 = some (r.instret + 1) := by
    have hone : (1 : UInt64).toNat = 1 := rfl
    exact add64_eq_some_iff.mpr ⟨by omega, rfl⟩
  have hvisits : add32 (r.visitsOf addr) 1 = some 1 := by rw [hnew]; rfl
  have hnext := toNat_of_add64_one hinstret
  rw [begins_code hinstret hvisits, if_neg]
  rw [overCaps_iff, not_or, not_or]
  refine ⟨fun hlow ↦ hvisit (UInt32.lt_one_iff.mp hlow), fun hover ↦ ?_, heffect⟩
  rw [UInt64.lt_iff_toNat_lt] at hover
  omega

end Hooks

end Rec

/-! ## Runs -/

section Runs

variable {r r' : Rec} {c : Callback} {callbacks : List Callback} {out : List Command}

theorem executed_cons (h : r.step c = some (r', out)) (callbacks : List Callback) :
    executed r (c :: callbacks) = (r.begins c).toList ++ executed r' callbacks := by
  rw [executed, h]

/-- What every step keeps, of the state and of what ran so far, holds after a run. -/
theorem executed_invariant {P : Rec → List Ran → Prop}
    (hstep : ∀ r ran c r' out, P r ran → r.step c = some (r', out) →
      P r' (ran ++ (r.begins c).toList))
    {ran : List Ran} (hP : P r ran) (h : Machine.run Rec.step r callbacks = some (r', out)) :
    P r' (ran ++ executed r callbacks) := by
  induction callbacks generalizing r ran out with
  | nil =>
      obtain ⟨rfl, -⟩ := Prod.mk.inj (Option.some.inj h)
      rwa [executed, List.append_nil]
  | cons c callbacks ih =>
      obtain ⟨s, front, back, hc, hrest, -⟩ := Machine.run_cons_eq_some_iff.mp h
      rw [executed_cons hc, ← List.append_assoc]
      exact ih (hstep r ran c s front hP hc) hrest

theorem Rec.Spent.executed (h : r.Spent) (callbacks : List Callback) :
    executed r callbacks = [] := by
  induction callbacks generalizing r with
  | nil => rfl
  | cons c callbacks ih =>
      cases hc : r.step c with
      | none => rw [Fnprint.executed, hc]
      | some p =>
          obtain ⟨s, front⟩ := p
          rw [executed_cons hc, h.begins, ih (h.step hc)]
          rfl

/-- The first instruction to run is the first one to come. -/
theorem executed_head (hfresh : ∀ a, r.visitsOf a = 0) {start : UInt64}
    (hfirst : ∀ a, landing callbacks = some a → a = start) :
    ∀ i ∈ (executed r callbacks).head?, i.1 = start := by
  induction callbacks generalizing r with
  | nil => exact fun i hi ↦ absurd hi (Option.not_mem_none i)
  | cons c callbacks ih =>
      rw [landing_cons] at hfirst
      cases hc : r.step c with
      | none =>
          rw [executed, hc]
          exact fun i hi ↦ absurd hi (Option.not_mem_none i)
      | some p =>
          obtain ⟨s, front⟩ := p
          rw [executed_cons hc]
          rcases Rec.step_cases hc with
            ⟨haddr, hstate⟩ | ⟨addr, kind, ilen, nr, retval, rfl, hcode⟩
          · have hvisits : s.visits = r.visits := congrArg CodeState.visits hstate
            rw [Rec.begins_of_codeAddr haddr]
            refine ih (fun a ↦ ?_) fun a ha ↦ hfirst a ?_
            · rw [Rec.visitsOf, hvisits]
              exact hfresh a
            · rw [haddr]
              exact ha
          · have hstart : addr = start := hfirst addr rfl
            cases hb : r.begins (.code addr kind ilen nr retval) with
            | none =>
                -- stopped at its first instruction, the run is spent
                have hspent := Rec.spent_of_first hcode (hfresh addr) hb
                rw [hspent.executed]
                exact fun i hi ↦ absurd hi (Option.not_mem_none i)
            | some i =>
                intro j hj
                obtain rfl : i = j := Option.some.inj hj
                rw [Rec.eq_of_begins hb, hstart]

/-- What ran was counted, and stayed below the cap. -/
structure Counted (cfg : Config) (r : Rec) (ran : List Ran) : Prop where
  cfg_eq : r.cfg = cfg
  counted : ran.length ≤ r.instret.toNat
  capped : ran.length ≤ cfg.instrCap.toNat

theorem Counted.step {cfg : Config} {ran : List Ran} (h : Counted cfg r ran)
    (hstep : r.step c = some (r', out)) : Counted cfg r' (ran ++ (r.begins c).toList) := by
  have hcfg := (Rec.grew_step hstep).cfg.trans h.cfg_eq
  cases hb : r.begins c with
  | none =>
      rw [Option.toList_none, List.append_nil]
      exact ⟨hcfg, h.counted.trans (Rec.instret_step hstep), h.capped⟩
  | some i =>
      rw [Option.toList_some]
      rcases Rec.step_cases hstep with ⟨hc, -⟩ | ⟨addr, kind, ilen, nr, retval, rfl, hcode⟩
      · rw [Rec.begins_of_codeAddr hc] at hb
        cases hb
      · obtain ⟨instret, visits, hs⟩ := Rec.steps_codeHook hcode
        have hnext := Rec.toNat_of_add64_one hs.instret_eq
        have hcount := h.counted
        rw [Rec.begins_code hs.instret_eq hs.visits_eq, Option.ite_none_left_eq_some] at hb
        have hcap : instret ≤ r.cfg.instrCap := UInt64.not_lt.mp fun hlt ↦
          hb.1 (Rec.overCaps_iff.mpr (Or.inr (Or.inl hlt)))
        rw [UInt64.le_iff_toNat_le, h.cfg_eq] at hcap
        refine ⟨hcfg, ?_, ?_⟩
        · rw [hs.instret, List.length_append, List.length_singleton]
          omega
        · rw [List.length_append, List.length_singleton]
          omega

/-- What a run covered and visited, against what it executed. -/
structure Seen (func : Func) (r : Rec) (ran : List Ran) : Prop where
  body : r.funcLo = func.entry ∧ r.funcHi = satAdd64 func.entry func.size
  executed : ∀ i ∈ ran, func.entry ≤ i.1 → i.1 < satAdd64 func.entry func.size → i.1 ∈ r.covered
  covered : ∀ a ∈ r.covered, a ∈ ran.map Prod.fst
  visited : ∀ a, r.visitsOf a ≠ 0 → func.entry ≤ a → a < satAdd64 func.entry func.size →
    a ∈ r.covered ∨ r.Spent

/-- Nothing ran and nothing was covered, so a new visit must have been stopped. -/
theorem Seen.kept {func : Func} {ran : List Ran} (h : Seen func r ran)
    (hbody : r'.funcLo = r.funcLo ∧ r'.funcHi = r.funcHi) (hcovered : r'.covered = r.covered)
    (hspent : r.Spent → r'.Spent)
    (hvisited : ∀ a, r'.visitsOf a ≠ 0 → r.visitsOf a ≠ 0 ∨ r'.Spent) : Seen func r' ran := by
  refine ⟨⟨hbody.1.trans h.body.1, hbody.2.trans h.body.2⟩, ?_, ?_, fun a ha hge hlt ↦ ?_⟩
  · rw [hcovered]
    exact h.executed
  · rw [hcovered]
    exact h.covered
  · rw [hcovered]
    rcases hvisited a ha with hold | hstopped
    · exact (h.visited a hold hge hlt).imp_right hspent
    · exact Or.inr hstopped

theorem Seen.stopped {func : Func} {ran : List Ran} (h : Seen func r ran)
    {addr ilen retval : UInt64} {kind : Kind} {nr : UInt32}
    (hstep : r.step (.code addr kind ilen nr retval) = some (r', out))
    (hb : r.begins (.code addr kind ilen nr retval) = none) : Seen func r' ran := by
  obtain ⟨instret, visits, hs⟩ := Rec.steps_codeHook hstep
  refine h.kept ⟨hs.funcLo, hs.funcHi⟩ (Rec.covered_of_stopped hstep hb)
    (fun hspent ↦ hspent.step hstep) fun a ha ↦ ?_
  by_cases hold : r.visitsOf a = 0
  · obtain rfl := hs.eq_of_new hold ha
    exact Or.inr (Rec.spent_of_first hstep hold hb)
  · exact Or.inl hold

theorem Seen.began {func : Func} {ran : List Ran} (h : Seen func r ran)
    {addr ilen retval : UInt64} {kind : Kind} {nr : UInt32}
    (hstep : r.step (.code addr kind ilen nr retval) = some (r', out))
    (hb : r.begins (.code addr kind ilen nr retval) = some (addr, ilen)) :
    Seen func r' (ran ++ [(addr, ilen)]) := by
  obtain ⟨instret, visits, hs⟩ := Rec.steps_codeHook hstep
  have hopen : ¬r.Spent := fun hspent ↦ by
    rw [hspent.begins] at hb
    cases hb
  have hcovered := Rec.covered_codeHook hstep hb
  rw [h.body.1, h.body.2] at hcovered
  have hmem : ∀ a ∈ r.covered, a ∈ r'.covered := by
    intro a ha
    rw [hcovered]
    split
    · exact AList.mem_insert _ |>.mpr (Or.inr ha)
    · exact ha
  have hsub : ∀ a ∈ r'.covered, a ∈ r.covered ∨ a = addr := by
    intro a ha
    rw [hcovered] at ha
    split at ha
    · exact ((AList.mem_insert _).mp ha).symm
    · exact Or.inl ha
  have hnew : func.entry ≤ addr → addr < satAdd64 func.entry func.size → addr ∈ r'.covered := by
    intro hge hlt
    by_cases hfirst : r.visitsOf addr = 0
    · rw [hcovered, if_pos ⟨hfirst, hge, hlt⟩]
      exact (AList.mem_insert _).mpr (Or.inl rfl)
    · exact hmem addr ((h.visited addr hfirst hge hlt).resolve_right hopen)
  refine ⟨⟨hs.funcLo.trans h.body.1, hs.funcHi.trans h.body.2⟩, fun i hi hge hlt ↦ ?_,
    fun a ha ↦ ?_, fun a ha hge hlt ↦ ?_⟩
  · rcases List.mem_append.mp hi with hi | hi
    · exact hmem i.1 (h.executed i hi hge hlt)
    · rw [List.mem_singleton.mp hi] at hge hlt ⊢
      exact hnew hge hlt
  · rw [List.map_append, List.mem_append]
    rcases hsub a ha with ha | rfl
    · exact Or.inl (h.covered a ha)
    · exact Or.inr (List.mem_singleton_self _)
  · by_cases hold : r.visitsOf a = 0
    · obtain rfl := hs.eq_of_new hold ha
      exact Or.inl (hnew hge hlt)
    · exact (h.visited a hold hge hlt).imp (hmem a) fun hspent ↦ hspent.step hstep

theorem Seen.step {func : Func} {ran : List Ran} (h : Seen func r ran)
    (hstep : r.step c = some (r', out)) : Seen func r' (ran ++ (r.begins c).toList) := by
  rcases Rec.step_cases hstep with ⟨hc, hstate⟩ | ⟨addr, kind, ilen, nr, retval, rfl, hcode⟩
  · rw [Rec.begins_of_codeAddr hc, Option.toList_none, List.append_nil]
    have hvisits : r'.visits = r.visits := congrArg CodeState.visits hstate
    refine h.kept ⟨congrArg CodeState.funcLo hstate, congrArg CodeState.funcHi hstate⟩
      (congrArg CodeState.covered hstate) (fun hspent ↦ hspent.step hstep) fun a ha ↦ Or.inl ?_
    rwa [Rec.visitsOf, hvisits] at ha
  · cases hb : r.begins (.code addr kind ilen nr retval) with
    | none =>
        rw [Option.toList_none, List.append_nil]
        exact h.stopped hstep hb
    | some i =>
        obtain rfl := Rec.eq_of_begins hb
        exact h.began hstep hb

/-- A run that passes a branch has executed it. -/
theorem branches_eq_nil (h : executed r callbacks = []) : branches r callbacks = [] := by
  induction callbacks generalizing r with
  | nil => rfl
  | cons c callbacks ih =>
      cases hc : r.step c with
      | none => exact branches_of_abort hc callbacks
      | some p =>
          obtain ⟨s, front⟩ := p
          rw [executed_cons hc, List.append_eq_nil_iff, Option.toList_eq_nil_iff] at h
          have hb : r.branchAt c = none := by
            cases hb : r.branchAt c with
            | none => rfl
            | some b =>
                obtain ⟨nr, retval, rfl⟩ := Rec.eq_of_branchAt hb
                rw [Rec.branchAt, h.1] at hb
                cases hb
          rw [branches_cons hc, hb, ih h.2]
          rfl

end Runs

/-! ## What a run reports -/

/-- Runs whose first instruction, if there is one, is where they were started. -/
def EntersAtStart (emulate : Emulate) : Prop :=
  ∀ cfg force start run, emulate cfg force start = some run →
    ∀ a, landing run.callbacks = some a → a = start

/-- What a run from an address reports of its body. -/
structure Reported (func : Func) (cfg : Config) (start : UInt64) (run : RunOut) : Prop where
  executed : ∀ i ∈ run.ran, func.entry ≤ i.1 → i.1 < satAdd64 func.entry func.size →
    i.1 ∈ run.covered
  covered : ∀ a ∈ run.covered, a ∈ run.ran.map Prod.fst
  head : ∀ i ∈ run.ran.head?, i.1 = start
  length : run.ran.length ≤ cfg.instrCap.toNat

section Reports

variable {emulate : Emulate} {image : Image} {func : Func} {symbols : Map UInt64 String}
  {cfg : Config} {force : List Bool} {start : UInt64} {run : RunOut}

theorem reported_runFrom (henter : EntersAtStart emulate)
    (h : runFrom emulate image func symbols cfg force start = some run) :
    Reported func cfg start run := by
  unfold runFrom at h
  split at h
  · rw [← Option.some.inj h]
    exact ⟨fun i hi ↦ absurd hi List.not_mem_nil, fun a ha ↦ absurd ha (AList.notMem_empty a),
      fun i hi ↦ absurd hi (Option.not_mem_none i), Nat.zero_le _⟩
  · next e he =>
      obtain ⟨⟨r, out⟩, hrecord, h⟩ := Option.bind_eq_some_iff.mp h
      have hseen : Seen func (Rec.start cfg image func symbols force) [] :=
        ⟨⟨rfl, rfl⟩, fun i hi ↦ absurd hi List.not_mem_nil,
          fun a ha ↦ absurd ha (AList.notMem_empty a), fun a ha ↦ absurd rfl ha⟩
      have hcounts : Counted cfg (Rec.start cfg image func symbols force) [] :=
        ⟨rfl, Nat.zero_le _, Nat.zero_le _⟩
      have hran := executed_invariant (fun _ _ _ _ _ hs hstep ↦ hs.step hstep) hseen hrecord
      have hcount := executed_invariant (fun _ _ _ _ _ hs hstep ↦ hs.step hstep) hcounts hrecord
      rw [List.nil_append] at hran hcount
      rw [← Option.some.inj h]
      exact ⟨hran.executed, hran.covered,
        executed_head (fun a ↦ rfl) (henter cfg force start e he), hcount.capped⟩

theorem ran_of_dirs (h : runFrom emulate image func symbols cfg [] start = some run)
    (hdirs : run.dirs ≠ []) : run.ran ≠ [] := by
  unfold runFrom at h
  split at h
  · rw [← Option.some.inj h] at hdirs
    exact absurd rfl hdirs
  · next e he =>
      obtain ⟨⟨r, out⟩, hrecord, h⟩ := Option.bind_eq_some_iff.mp h
      rw [← Option.some.inj h] at hdirs ⊢
      intro hran
      apply hdirs
      have hnatural := naturalDirs_run rfl hrecord
      rw [branches_eq_nil hran] at hnatural
      exact hnatural

end Reports

end Fnprint
