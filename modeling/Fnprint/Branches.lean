import Fnprint.Lib.Fallible
import Fnprint.Decode
import Fnprint.Explore
import Fnprint.Frame

/-!
# Forced branches

A run settles a branch one instruction late, by where it lands, while a plan is
consumed by a count of the branches passed.  The two stay in step as long as no
branch without a decoded target comes before one that is settled: such a branch
is counted, but leaves no direction behind and cannot be forced.
-/

namespace Fnprint

open KeyMap Checked

/-! ## The branches of a run -/

/-- A branch that a run passed: its target, where the run went on, and what the
hook asked of the engine there. -/
structure Passed where
  addr : UInt64
  ilen : UInt64
  target : Option UInt64
  landed : Option UInt64
  asked : List Command
  deriving DecidableEq

namespace Passed

/-- Whether the branch was taken; one without a decoded target was when the run
did not go on behind it. -/
def outcome (b : Passed) : Option Bool :=
  b.landed.map fun next ↦
    match b.target with
    | some t => next == t
    | none => next != b.addr + b.ilen

/-- What the recorder can tell of the outcome. -/
def settled (b : Passed) : Option Bool :=
  b.target.bind fun t ↦ b.landed.map fun next ↦ next == t

/-- The engine was told to go on where a direction leads. -/
def Sent (b : Passed) (dir : Bool) : Prop :=
  ∃ t, b.target = some t ∧ b.asked = [.setPc (if dir then t else b.addr + b.ilen)]

theorem outcome_of_settled {b : Passed} {d : Bool} (h : b.settled = some d) :
    b.outcome = some d := by
  obtain ⟨t, ht, h⟩ := Option.bind_eq_some_iff.mp h
  rw [outcome, ht]
  exact h

theorem isSome_settled {b : Passed} :
    b.settled.isSome = true ↔ b.target.isSome = true ∧ b.landed.isSome = true := by
  unfold settled
  cases b.target <;> simp

end Passed

/-- Where a run goes on: at the next instruction. -/
def landing (callbacks : List Callback) : Option UInt64 := callbacks.findSome? Callback.codeAddr

/-- The branch a callback passes, by address, length and target, unless a cap
stops it. -/
def Rec.branchAt (r : Rec) : Callback → Option (UInt64 × UInt64 × Option UInt64)
  | .code addr (.branch target) ilen nr retval =>
      (r.begins (.code addr (.branch target) ilen nr retval)).map fun i ↦ (i.1, i.2, target)
  | _ => none

/-- The branches a run of callbacks passes, in order. -/
def branches : Rec → List Callback → List Passed
  | _, [] => []
  | r, c :: callbacks =>
      match r.step c with
      | none => []
      | some (r', asked) =>
          ((r.branchAt c).map fun b ↦
            { addr := b.1, ilen := b.2.1, target := b.2.2, landed := landing callbacks,
              asked := asked }).toList ++ branches r' callbacks

/-! ## One step -/

namespace Rec

/-- What one callback does to the directions. -/
structure Turned (r r' : Rec) (c : Callback) (out : List Command) : Prop where
  force : r'.force = r.force
  dirs : r'.naturalDirs = r.naturalDirs ++
    (c.codeAddr.bind fun addr ↦ r.pendingBranch.map fun t ↦ addr == t).toList
  idle : r.branchAt c = none → r'.branchSeen = r.branchSeen ∧
    r'.pendingBranch = if c.codeAddr = none then r.pendingBranch else none
  seen : ∀ b, r.branchAt c = some b → r'.branchSeen = r.branchSeen + 1
  forced : ∀ addr ilen t dir, r.branchAt c = some (addr, ilen, some t) →
    r.force[r.branchSeen]? = some dir → out = [.setPc (if dir then t else addr + ilen)]
  natural : ∀ addr ilen target, r.branchAt c = some (addr, ilen, target) →
    r.force[r.branchSeen]? = none → r'.pendingBranch = target

theorem branchAt_of_codeAddr {r : Rec} {c : Callback} (hc : c.codeAddr = none) :
    r.branchAt c = none := by
  cases c with
  | code addr kind ilen nr retval => cases hc
  | unmapped fetch addr mapOk => rfl
  | read addr => rfl
  | write addr size val => rfl

theorem turned_of_codeAddr {r r' : Rec} {c : Callback} {out : List Command}
    (hc : c.codeAddr = none) (h : r.step c = some (r', out)) : Turned r r' c out := by
  have hstate := codeState_step hc h
  have hnone := @branchAt_of_codeAddr r c hc
  constructor
  · exact congrArg CodeState.force hstate
  · rw [hc, Option.bind_none, Option.toList_none, List.append_nil]
    exact congrArg CodeState.naturalDirs hstate
  · intro _
    rw [if_pos hc]
    exact ⟨congrArg CodeState.branchSeen hstate, congrArg CodeState.pendingBranch hstate⟩
  · intro b hb
    rw [hnone] at hb
    cases hb
  · intro addr ilen t dir hb
    rw [hnone] at hb
    cases hb
  · intro addr ilen target hb
    rw [hnone] at hb
    cases hb

/-- What is forced, how many branches were seen, the directions, the target
to be settled. -/
def turns (r : Rec) : List Bool × ℕ × List Bool × Option UInt64 :=
  (r.force, r.branchSeen, r.naturalDirs, r.pendingBranch)

/-- The pending branch is settled before anything else. -/
theorem turns_visited (r : Rec) (addr instret : UInt64) (visits : UInt32) :
    (r.visited addr instret visits).turns = (r.force, r.branchSeen,
      r.naturalDirs ++ (r.pendingBranch.map fun t ↦ addr == t).toList, none) := by
  unfold visited settleBranch
  cases hp : r.pendingBranch with
  | none => simp [turns, countVisit, hp]
  | some t => simp [turns, countVisit]

theorem turns_cover (r : Rec) (addr ilen : UInt64) : (r.cover addr ilen).turns = r.turns := by
  unfold cover
  split <;> rfl

theorem turns_steer {r r' : Rec} {addr ilen retval : UInt64} {kind : Kind} {nr : UInt32}
    {out : List Command} (hkind : ∀ target, kind ≠ .branch target)
    (h : r.steer addr kind ilen nr retval = some (r', out)) : r'.turns = r.turns :=
  keeps_steer (fun _ _ ↦ rfl) (fun _ _ ↦ rfl)
    (fun target direct _ ↦ keeps_noteCallee (fun _ _ ↦ rfl) r target direct)
    (fun target heq ↦ absurd heq (hkind target)) h

theorem turned_of_turns {r r' : Rec} {addr ilen retval : UInt64} {kind : Kind} {nr : UInt32}
    {out : List Command} (hb : r.branchAt (.code addr kind ilen nr retval) = none)
    (h : r'.turns = (r.force, r.branchSeen,
      r.naturalDirs ++ (r.pendingBranch.map fun t ↦ addr == t).toList, none)) :
    Turned r r' (.code addr kind ilen nr retval) out := by
  obtain ⟨hforce, h⟩ := Prod.mk.inj h
  obtain ⟨hseen, h⟩ := Prod.mk.inj h
  obtain ⟨hdirs, hpending⟩ := Prod.mk.inj h
  refine ⟨hforce, hdirs, fun _ ↦ ⟨hseen, hpending⟩, fun b hb' ↦ ?_, fun _ _ _ _ hb' ↦ ?_,
    fun _ _ _ hb' ↦ ?_⟩ <;>
  · rw [hb] at hb'
    cases hb'

theorem passBranch_counts (r : Rec) (addr ilen : UInt64) (target : Option UInt64) :
    (r.passBranch addr ilen target).1.force = r.force ∧
      (r.passBranch addr ilen target).1.naturalDirs = r.naturalDirs ∧
      (r.passBranch addr ilen target).1.branchSeen = r.branchSeen + 1 := by
  unfold passBranch
  split <;> exact ⟨rfl, rfl, rfl⟩

theorem passBranch_forced {r : Rec} {addr ilen t : UInt64} {dir : Bool}
    (h : r.force[r.branchSeen]? = some dir) :
    (r.passBranch addr ilen (some t)).2 = [.setPc (if dir then t else addr + ilen)] := by
  unfold passBranch
  rw [h]

theorem passBranch_natural {r : Rec} {addr ilen : UInt64} {target : Option UInt64}
    (h : r.force[r.branchSeen]? = none) :
    (r.passBranch addr ilen target).1.pendingBranch = target := by
  unfold passBranch
  rw [h]

theorem turned_branch {r s r' : Rec} {addr ilen retval : UInt64} {target : Option UInt64}
    {nr : UInt32} {out : List Command}
    (hb : r.branchAt (.code addr (.branch target) ilen nr retval) = some (addr, ilen, target))
    (hs : s.turns = (r.force, r.branchSeen,
      r.naturalDirs ++ (r.pendingBranch.map fun t ↦ addr == t).toList, none))
    (h : (s.push .branch).passBranch addr ilen target = (r', out)) :
    Turned r r' (.code addr (.branch target) ilen nr retval) out := by
  obtain ⟨hforce, hs⟩ := Prod.mk.inj hs
  obtain ⟨hseen, hs⟩ := Prod.mk.inj hs
  obtain ⟨hforce', hdirs', hseen'⟩ := passBranch_counts (s.push .branch) addr ilen target
  rw [h] at hforce' hdirs' hseen'
  have hnext : (s.push .branch).force[(s.push .branch).branchSeen]? = r.force[r.branchSeen]? := by
    rw [← hforce, ← hseen]
    rfl
  refine ⟨hforce'.trans hforce, hdirs'.trans (Prod.mk.inj hs).1, fun hnone ↦ ?_, fun b _ ↦ ?_,
    fun addr' ilen' t dir hb' hdir ↦ ?_, fun addr' ilen' target' hb' hdir ↦ ?_⟩
  · rw [hb] at hnone
    cases hnone
  · exact hseen'.trans (congrArg Nat.succ hseen)
  · rw [hb] at hb'
    cases hb'
    rw [← passBranch_forced (hnext.trans hdir), h]
  · rw [hb] at hb'
    cases hb'
    have hpending : r'.pendingBranch =
        ((s.push .branch).passBranch addr ilen target).1.pendingBranch := by rw [h]
    rw [hpending, passBranch_natural (hnext.trans hdir)]

theorem begins_of_overCaps {r : Rec} {addr ilen instret : UInt64} {visits : UInt32}
    (hinstret : add64 r.instret 1 = some instret)
    (hvisits : add32 ((r.visits.lookup addr).getD 0) 1 = some visits) (kind : Kind) (nr : UInt32)
    (retval : UInt64) : r.begins (.code addr kind ilen nr retval) =
      if r.overCaps instret visits then none else some (addr, ilen) := by
  rw [begins, hinstret, hvisits]
  rfl

theorem eq_of_begins {r : Rec} {addr ilen retval : UInt64} {kind : Kind} {nr : UInt32} {i : Ran}
    (h : r.begins (.code addr kind ilen nr retval) = some i) : i = (addr, ilen) := by
  obtain ⟨instret, -, h⟩ := Option.bind_eq_some_iff.mp h
  obtain ⟨visits, -, h⟩ := Option.bind_eq_some_iff.mp h
  split at h
  · cases h
  · exact (Option.some.inj h).symm

theorem eq_of_branchAt {r : Rec} {c : Callback} {b : UInt64 × UInt64 × Option UInt64}
    (h : r.branchAt c = some b) : ∃ nr retval, c = .code b.1 (.branch b.2.2) b.2.1 nr retval := by
  cases c with
  | code addr kind ilen nr retval =>
      cases kind with
      | branch target =>
          obtain ⟨i, hi, rfl⟩ := Option.map_eq_some_iff.mp h
          obtain rfl := eq_of_begins hi
          exact ⟨nr, retval, rfl⟩
      | call target direct => cases h
      | ret => cases h
      | syscall => cases h
      | plain => cases h
  | unmapped fetch addr mapOk => cases h
  | read addr => cases h
  | write addr size val => cases h

theorem turned_codeHook {r r' : Rec} {addr ilen retval : UInt64} {kind : Kind} {nr : UInt32}
    {out : List Command} (h : r.codeHook addr kind ilen nr retval = some (r', out)) :
    Turned r r' (.code addr kind ilen nr retval) out := by
  obtain ⟨instret, visits, hinstret, hvisits, h⟩ := codeHook_cases h
  have hbegins := @begins_of_overCaps r addr ilen instret visits hinstret hvisits
  have hturns := r.turns_visited addr instret visits
  rcases h with ⟨hcap, rfl, -⟩ | ⟨hcap, h⟩
  · refine turned_of_turns ?_ hturns
    cases kind with
    | branch target =>
        rw [branchAt, hbegins, if_pos hcap]
        rfl
    | call target direct => rfl
    | syscall => rfl
    | ret => rfl
    | plain => rfl
  · have hcover := (turns_cover (r.visited addr instret visits) addr ilen).trans hturns
    cases kind with
    | branch target =>
        refine turned_branch ?_ hcover (Option.some.inj h)
        rw [branchAt, hbegins, if_neg (Bool.eq_false_iff.mp hcap)]
        rfl
    | call target direct =>
        exact turned_of_turns rfl ((turns_steer (fun _ ↦ Kind.noConfusion) h).trans hcover)
    | syscall =>
        exact turned_of_turns rfl ((turns_steer (fun _ ↦ Kind.noConfusion) h).trans hcover)
    | ret => exact turned_of_turns rfl ((turns_steer (fun _ ↦ Kind.noConfusion) h).trans hcover)
    | plain => exact turned_of_turns rfl ((turns_steer (fun _ ↦ Kind.noConfusion) h).trans hcover)

theorem turned_step {r r' : Rec} {c : Callback} {out : List Command}
    (h : r.step c = some (r', out)) : Turned r r' c out := by
  rcases step_cases h with ⟨hc, -⟩ | ⟨addr, kind, ilen, nr, retval, rfl, hcode⟩
  · exact turned_of_codeAddr hc h
  · exact turned_codeHook hcode

end Rec

/-! ## Whole runs -/

section Runs

variable {r r' : Rec}

theorem branches_cons {c : Callback} {asked : List Command} (h : r.step c = some (r', asked))
    (callbacks : List Callback) : branches r (c :: callbacks) =
      ((r.branchAt c).map fun b ↦
        ({ addr := b.1, ilen := b.2.1, target := b.2.2, landed := landing callbacks,
           asked := asked } : Passed)).toList ++ branches r' callbacks := by
  rw [branches, h]

theorem branches_of_abort {c : Callback} (h : r.step c = none) (callbacks : List Callback) :
    branches r (c :: callbacks) = [] := by
  rw [branches, h]

theorem landing_cons (c : Callback) (callbacks : List Callback) :
    landing (c :: callbacks) = c.codeAddr.or (landing callbacks) := by
  rw [landing, List.findSome?_cons]
  cases c.codeAddr <;> rfl

/-- The directions of a natural run are what could be settled of the pending
branch and of the branches passed, in order. -/
theorem naturalDirs_run {callbacks : List Callback} {out : List Command} (hforce : r.force = [])
    (h : Machine.run Rec.step r callbacks = some (r', out)) :
    r'.naturalDirs = r.naturalDirs ++
      (r.pendingBranch.bind fun t ↦ (landing callbacks).map fun next ↦ next == t).toList ++
        (branches r callbacks).filterMap Passed.settled := by
  induction callbacks generalizing r out with
  | nil =>
      obtain ⟨rfl, -⟩ := Prod.mk.inj (Option.some.inj h)
      cases r.pendingBranch <;> simp [landing, branches]
  | cons c callbacks ih =>
      obtain ⟨s, asked, back, hstep, hrest, -⟩ := Machine.run_cons_eq_some_iff.mp h
      have hturned := Rec.turned_step hstep
      rw [ih (hturned.force.trans hforce) hrest, hturned.dirs, branches_cons hstep, landing_cons]
      have hnatural : r.force[r.branchSeen]? = none := by rw [hforce, List.getElem?_nil]
      cases hb : r.branchAt c with
      | none =>
          rw [(hturned.idle hb).2]
          cases hc : c.codeAddr with
          | none => simp
          | some addr => cases r.pendingBranch <;> simp
      | some b =>
          obtain ⟨addr, ilen, target⟩ := b
          have hc : c.codeAddr ≠ none := fun hc ↦ by
            rw [Rec.branchAt_of_codeAddr hc] at hb
            cases hb
          obtain ⟨a, ha⟩ := Option.ne_none_iff_exists'.mp hc
          rw [hturned.natural addr ilen target hb hnatural, ha]
          have hlast : (target.bind fun t ↦ (landing callbacks).map fun next ↦ next == t) =
              (Passed.mk addr ilen target (landing callbacks) asked).settled := rfl
          rw [hlast, Option.map_some, Option.toList_some, List.singleton_append,
            List.filterMap_cons]
          cases r.pendingBranch <;>
            cases (Passed.mk addr ilen target (landing callbacks) asked).settled <;> simp

theorem isSome_landing_of_mem {callbacks : List Callback} {b : Passed}
    (hb : b ∈ branches r callbacks) : (landing callbacks).isSome = true := by
  induction callbacks generalizing r with
  | nil => cases hb
  | cons c callbacks ih =>
      rw [landing_cons]
      cases hc : c.codeAddr with
      | some addr => rfl
      | none =>
          cases hstep : r.step c with
          | none =>
              rw [branches_of_abort hstep] at hb
              cases hb
          | some p =>
              rw [branches_cons hstep, Rec.branchAt_of_codeAddr hc] at hb
              exact ih hb

theorem landed_of_later (r : Rec) (callbacks : List Callback) :
    (branches r callbacks).Pairwise fun b _ ↦ b.landed.isSome = true := by
  induction callbacks generalizing r with
  | nil => exact List.Pairwise.nil
  | cons c callbacks ih =>
      cases hstep : r.step c with
      | none =>
          rw [branches_of_abort hstep]
          exact List.Pairwise.nil
      | some p =>
          rw [branches_cons hstep]
          cases r.branchAt c with
          | none => exact ih p.1
          | some b =>
              refine List.pairwise_cons.mpr ⟨fun b' hb' ↦ ?_, ih p.1⟩
              exact isSome_landing_of_mem hb'

/-- A branch passed under a plan is sent where the plan says, by its number. -/
theorem sent_branches {callbacks : List Callback} {k : ℕ} {b : Passed}
    (hb : (branches r callbacks)[k]? = some b) (ht : b.target.isSome = true) {dir : Bool}
    (hdir : r.force[r.branchSeen + k]? = some dir) : b.Sent dir := by
  induction callbacks generalizing r k with
  | nil => cases hb
  | cons c callbacks ih =>
      cases hstep : r.step c with
      | none =>
          rw [branches_of_abort hstep] at hb
          cases hb
      | some p =>
          obtain ⟨s, asked⟩ := p
          have hturned := Rec.turned_step hstep
          rw [branches_cons hstep] at hb
          cases hat : r.branchAt c with
          | none =>
              rw [hat] at hb
              refine ih hb ?_
              rwa [hturned.force, (hturned.idle hat).1]
          | some q =>
              obtain ⟨addr, ilen, target⟩ := q
              rw [hat] at hb
              cases k with
              | zero =>
                  obtain rfl := Option.some.inj hb
                  obtain ⟨t, rfl⟩ := Option.isSome_iff_exists.mp ht
                  exact ⟨t, rfl, hturned.forced addr ilen t dir hat hdir⟩
              | succ k =>
                  refine ih hb ?_
                  rwa [hturned.force, hturned.seen _ hat, Nat.add_right_comm, Nat.add_assoc]

end Runs

/-! ## Plans -/

/-- No branch without a decoded target comes before one that is settled. -/
def InStep (l : List Passed) : Prop :=
  l.Pairwise fun b b' ↦ b'.settled.isSome = true → b.target.isSome = true

instance (l : List Passed) : Decidable (InStep l) := inferInstanceAs (Decidable (l.Pairwise _))

theorem InStep.of_targets {l : List Passed} (h : ∀ b ∈ l, b.target.isSome = true) : InStep l :=
  List.pairwise_of_forall_mem_list fun b hb _ _ _ ↦ h b hb

theorem mem_callbacks_of_mem_branches {r : Rec} {callbacks : List Callback} {b : Passed}
    (hb : b ∈ branches r callbacks) :
    ∃ nr retval, Callback.code b.addr (.branch b.target) b.ilen nr retval ∈ callbacks := by
  induction callbacks generalizing r with
  | nil => cases hb
  | cons c callbacks ih =>
      cases hstep : r.step c with
      | none =>
          rw [branches_of_abort hstep] at hb
          cases hb
      | some p =>
          rw [branches_cons hstep] at hb
          rcases List.mem_append.mp hb with hb | hb
          · obtain ⟨q, hq, rfl⟩ := Option.map_eq_some_iff.mp (Option.mem_toList.mp hb)
            obtain ⟨nr, retval, rfl⟩ := Rec.eq_of_branchAt hq
            exact ⟨nr, retval, List.mem_cons_self⟩
          · obtain ⟨nr, retval, hmem⟩ := ih hb
            exact ⟨nr, retval, List.mem_cons_of_mem c hmem⟩

theorem inStep_a64 {r : Rec} {callbacks : List Callback}
    (h : ∀ addr kind ilen nr retval, Callback.code addr kind ilen nr retval ∈ callbacks →
      ∃ buf, kind = (decodeA64 addr buf).1) : InStep (branches r callbacks) := by
  refine InStep.of_targets fun b hb ↦ ?_
  obtain ⟨nr, retval, hmem⟩ := mem_callbacks_of_mem_branches hb
  obtain ⟨buf, hbuf⟩ := h _ _ _ _ _ hmem
  exact target_of_decodeA64 hbuf.symm

/-- Direction `i` is the outcome of branch `i`. -/
def Outcomes (dirs : List Bool) (natural : List Passed) : Prop :=
  ∀ (i : ℕ) (d : Bool), dirs[i]? = some d → ∃ b, natural[i]? = some b ∧ b.outcome = some d

/-- Each branch up to `i` that has a target is sent the way the branch of its
number went, but `i` itself the other way. -/
def Flips (i : ℕ) (natural forced : List Passed) : Prop :=
  ∀ k ≤ i, ∀ b', forced[k]? = some b' → b'.target.isSome = true →
    ∃ b d, natural[k]? = some b ∧ b.outcome = some d ∧ b'.Sent (if k = i then !d else d)

theorem getElem?_forcePlan {dirs : List Bool} {i k : ℕ} {d : Bool} (hi : i < dirs.length)
    (hk : k ≤ i) (hd : dirs[k]? = some d) :
    (forcePlan dirs i)[k]? = some (if k = i then !d else d) := by
  have hlen : (dirs.take i).length = i := by rw [List.length_take, min_eq_left hi.le]
  rw [forcePlan]
  rcases Nat.lt_or_eq_of_le hk with hlt | rfl
  · rw [if_neg hlt.ne, List.getElem?_append_left (by rwa [hlen]), List.getElem?_take_of_lt hlt, hd]
  · rw [if_pos rfl, List.getElem?_append_right hlen.le, hlen, Nat.sub_self,
      List.getD_eq_getElem?_getD, hd]
    rfl

section Plans

variable (cfg : Config) (image : Image) (func : Func) (symbols : Map UInt64 String)

/-- The branches of a run under a plan. -/
def branchesOf (plan : List Bool) (callbacks : List Callback) : List Passed :=
  branches (Rec.start cfg image func symbols plan) callbacks

variable {cfg image func symbols}

theorem exists_branch_of_naturalDirs {callbacks : List Callback} {r : Rec} {out : List Command}
    (h : record cfg image func symbols [] callbacks = some (r, out))
    (hstep : InStep (branchesOf cfg image func symbols [] callbacks)) {i : ℕ} {d : Bool}
    (hd : r.naturalDirs[i]? = some d) :
    ∃ b, (branchesOf cfg image func symbols [] callbacks)[i]? = some b ∧ b.outcome = some d := by
  have hdirs : r.naturalDirs =
      (branchesOf cfg image func symbols [] callbacks).filterMap Passed.settled :=
    naturalDirs_run rfl h
  have hfront : (branchesOf cfg image func symbols [] callbacks).Pairwise fun b b' ↦
      b'.settled.isSome = true → b.settled.isSome = true := by
    refine (hstep.and (landed_of_later _ _)).imp fun {b b'} hboth hlater ↦ ?_
    exact Passed.isSome_settled.mpr ⟨hboth.1 hlater, hboth.2⟩
  rw [hdirs] at hd
  obtain ⟨b, hb, hsettled⟩ := Fallible.getElem?_filterMap_of_front hfront hd
  exact ⟨b, hb, Passed.outcome_of_settled hsettled⟩

end Plans

/-- Where no undecoded branch comes before a settled one, the directions of a
natural run are the outcomes of its branches by number, and a plan that inverts
branch `i` flips that one and no earlier one. -/
theorem plan_flips {cfg : Config} {image : Image} {func : Func} {symbols : Map UInt64 String}
    {callbacks : List Callback} {r : Rec} {out : List Command}
    (h : record cfg image func symbols [] callbacks = some (r, out))
    (hstep : InStep (branchesOf cfg image func symbols [] callbacks)) :
    Outcomes r.naturalDirs (branchesOf cfg image func symbols [] callbacks) ∧
      ∀ i < r.naturalDirs.length, ∀ callbacks',
        Flips i (branchesOf cfg image func symbols [] callbacks)
          (branchesOf cfg image func symbols (forcePlan r.naturalDirs i) callbacks') := by
  refine ⟨fun i d hd ↦ exists_branch_of_naturalDirs h hstep hd, ?_⟩
  intro i hi callbacks' k hk b' hb' ht
  obtain ⟨d, hd⟩ : ∃ d, r.naturalDirs[k]? = some d :=
    ⟨_, List.getElem?_eq_getElem (hk.trans_lt hi)⟩
  obtain ⟨b, hb, hout⟩ := exists_branch_of_naturalDirs h hstep hd
  refine ⟨b, d, hb, hout, sent_branches hb' ht ?_⟩
  exact (congrArg _ (Nat.zero_add k)).trans (getElem?_forcePlan hi hk hd)

/-! ## Jumps -/

/-- Four instructions, told apart by their first bytes. -/
def jumpDisasm : Disasm := fun bytes addr ↦
  match bytes.head? with
  | some 0x31 => some [⟨addr, bytes.take 2, some "xor"⟩]
  | some 0x74 => some [⟨addr, bytes.take 2, some "je"⟩]
  | some 0x75 => some [⟨addr, bytes.take 2, some "jne"⟩]
  | some 0xe3 => some [⟨addr, bytes.take 2, some "jrcxz"⟩]
  | some 0xc3 => some [⟨addr, bytes.take 1, some "ret"⟩]
  | _ => none

/-- `xor ecx, ecx`, a jump over two bytes, a `jne` and a `ret`. -/
def jumpCode (jump : UInt8) : List UInt8 :=
  [0x31, 0xc9, jump, 0x02, 0x90, 0x90, 0x75, 0x02, 0xc3]

def jumpImage (jump : UInt8) : Image :=
  { segments := [⟨0x401000, jumpCode jump, true, false⟩]
    entry := 0x401000, isPie := false, arch := .x86_64 }

def jumpFunc : Func := ⟨none, 0x401000, 9, .symtab⟩

/-- The callback of the instruction at an offset of the code. -/
def codeAt (jump : UInt8) (off : ℕ) : Callback :=
  let addr := 0x401000 + UInt64.ofNat off
  let decoded := decode (some jumpDisasm) addr
    (Vector.ofFn fun i ↦ ((jumpCode jump).drop off).getD i 0)
  .code addr decoded.1 decoded.2 0 0

/-- The register is zero, and so is the result: the first jump is taken and the
`jne` is not.  The `ret` reads the return address. -/
def jumpRun (jump : UInt8) : List Callback := [0, 2, 6, 8].map (codeAt jump) ++ [.read rsp0]

theorem plan_flips_twoJumps : ∃ r out,
    record Config.default (jumpImage 0x74) jumpFunc ∅ [] (jumpRun 0x74) = some (r, out) ∧
    r.naturalDirs = [true, false] ∧
    Outcomes r.naturalDirs
      (branchesOf Config.default (jumpImage 0x74) jumpFunc ∅ [] (jumpRun 0x74)) ∧
    ∀ i < r.naturalDirs.length, ∀ callbacks',
      Flips i (branchesOf Config.default (jumpImage 0x74) jumpFunc ∅ [] (jumpRun 0x74))
        (branchesOf Config.default (jumpImage 0x74) jumpFunc ∅
          (forcePlan r.naturalDirs i) callbacks') := by
  have hdirs : (record Config.default (jumpImage 0x74) jumpFunc ∅ [] (jumpRun 0x74)).map
      (fun p ↦ p.1.naturalDirs) = some [true, false] := by decide
  obtain ⟨⟨r, out⟩, h, hr⟩ := Option.map_eq_some_iff.mp hdirs
  exact ⟨r, out, h, hr, plan_flips h (by decide)⟩

/-- With a `jrcxz`, which has no decoded target, the direction of the second
branch stands in the place of the first, and the plan made of it is spent on
the first: no branch is sent anywhere. -/
theorem plan_misses : ∃ r out,
    record Config.default (jumpImage 0xe3) jumpFunc ∅ [] (jumpRun 0xe3) = some (r, out) ∧
      ¬Outcomes r.naturalDirs
        (branchesOf Config.default (jumpImage 0xe3) jumpFunc ∅ [] (jumpRun 0xe3)) ∧
      (branchesOf Config.default (jumpImage 0xe3) jumpFunc ∅ (forcePlan r.naturalDirs 0)
        (jumpRun 0xe3)).map Passed.asked = [[], []] := by
  have hdirs : (record Config.default (jumpImage 0xe3) jumpFunc ∅ [] (jumpRun 0xe3)).map
      (fun p ↦ p.1.naturalDirs) = some [false] := by decide
  obtain ⟨⟨r, out⟩, h, hr⟩ := Option.map_eq_some_iff.mp hdirs
  have hr : r.naturalDirs = [false] := hr
  have hfirst : (branchesOf Config.default (jumpImage 0xe3) jumpFunc ∅ []
      (jumpRun 0xe3)).head?.bind Passed.outcome = some true := by decide
  refine ⟨r, out, h, fun hall ↦ ?_, by rw [hr]; decide⟩
  obtain ⟨b, hb, hout⟩ := hall 0 false (by rw [hr]; rfl)
  rw [List.head?_eq_getElem?, hb, Option.bind_some, hout] at hfirst
  cases hfirst

end Fnprint
