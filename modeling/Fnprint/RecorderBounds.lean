import Fnprint.Recorder

/-!
# The bounds of a run

Four hooks grow the effects under different guards.  Whatever the guest does,
what the caps guard stays below them, and what no cap guards is recorded once
for each key: a field, an argument, the globals, a fresh page up to a count.
-/

namespace Fnprint

open Checked

/-- What bounds an effect. -/
inductive Slot where
  | guarded
  | read
  | arg
  | global
  | heapish
  deriving DecidableEq

def Effect.slot : Effect → Slot
  | .read _ _ => .read
  | .newRegion (.arg _) => .arg
  | .newRegion .global => .global
  | .newRegion .heapish => .heapish
  | _ => .guarded

namespace Effect

@[simp] theorem slot_read (region : Region) (off : Int32) : (read region off).slot = .read := rfl

@[simp] theorem slot_arg (k : UInt16) : (newRegion (.arg k)).slot = .arg := rfl

@[simp] theorem slot_global : (newRegion .global).slot = .global := rfl

@[simp] theorem slot_heapish : (newRegion .heapish).slot = .heapish := rfl

@[simp] theorem slot_stack : (newRegion .stack).slot = .guarded := rfl

end Effect

def slotCount (s : Slot) (l : List Effect) : ℕ := l.countP fun e ↦ e.slot = s

@[simp] theorem slotCount_nil (s : Slot) : slotCount s [] = 0 := rfl

@[simp] theorem slotCount_append_singleton (s : Slot) (l : List Effect) (e : Effect) :
    slotCount s (l ++ [e]) = slotCount s l + if e.slot = s then 1 else 0 := by
  simp [slotCount, List.countP_append, List.countP_cons]

theorem length_eq_slotCounts (l : List Effect) : l.length =
    slotCount .guarded l + slotCount .read l + slotCount .arg l + slotCount .global l +
      slotCount .heapish l := by
  induction l using List.reverseRecOn with
  | nil => rfl
  | append_singleton l e ih =>
      rw [List.length_append, List.length_singleton, ih]
      simp only [slotCount_append_singleton]
      cases e.slot <;> simp <;> omega

/-- Recorded once for each key. -/
def Effect.once (e : Effect) : Bool := e.slot = .read || e.slot = .arg || e.slot = .global

def Command.isMap : Command → Bool
  | .map _ => true
  | _ => false

namespace Rec

/-- The key of a recorded effect is taken. -/
def Marked (r : Rec) (e : Effect) : Prop :=
  match e with
  | .read region off => (Effect.read region off).token ∈ r.seenReads
  | .newRegion (.arg k) => k.toNat < nargs ∧ argKey k ∈ r.seenHeapish
  | .newRegion .global => globalKey ∈ r.seenHeapish
  | _ => True

theorem Marked.mono {r r' : Rec} {e : Effect} (hreads : r.seenReads ⊆ r'.seenReads)
    (hseen : r.seenHeapish ⊆ r'.seenHeapish) (h : r.Marked e) : r'.Marked e := by
  cases e with
  | read region off => exact hreads h
  | newRegion region =>
      cases region with
      | arg k => exact ⟨h.1, hseen h.2⟩
      | «global» => exact hseen h
      | stack => exact h
      | heapish => exact h
  | write region off val => exact h
  | call target => exact h
  | syscall nr => exact h
  | branch => exact h
  | ret val => exact h
  | capped => exact h

/-- What every run of callbacks preserves. -/
structure Inv (cfg : Config) (r : Rec) : Prop where
  cfg_eq : r.cfg = cfg
  guarded : slotCount .guarded r.effects ≤ cfg.maxEffects
  nodup : (r.effects.filter Effect.once).Nodup
  marked : ∀ e ∈ r.effects, r.Marked e
  reads : slotCount .read r.effects ≤ 64
  reads_card : slotCount .read r.effects ≤ r.seenReads.card
  heapish : slotCount .heapish r.effects = r.heapishCount
  heapish_le : r.heapishCount ≤ cfg.maxHeapish
  maps : r.mapCount ≤ maxRuntimeMaps

/-- Two states that differ in their bookkeeping only. -/
structure Quiet (r r' : Rec) : Prop where
  cfg : r'.cfg = r.cfg
  effects : r'.effects = r.effects
  seenHeapish : r'.seenHeapish = r.seenHeapish
  seenReads : r'.seenReads = r.seenReads
  heapishCount : r'.heapishCount = r.heapishCount
  mapCount : r'.mapCount = r.mapCount

theorem Quiet.trans {r r' r'' : Rec} (h : Quiet r r') (h' : Quiet r' r'') : Quiet r r'' :=
  ⟨h'.cfg.trans h.cfg, h'.effects.trans h.effects, h'.seenHeapish.trans h.seenHeapish,
    h'.seenReads.trans h.seenReads, h'.heapishCount.trans h.heapishCount,
    h'.mapCount.trans h.mapCount⟩

theorem quiet_countMemOp (r : Rec) (n : UInt64) : Quiet r (r.countMemOp n) :=
  ⟨rfl, rfl, rfl, rfl, rfl, rfl⟩

theorem quiet_countVisit (r : Rec) (addr instret : UInt64) (visits : UInt32) :
    Quiet r (r.countVisit addr instret visits) := ⟨rfl, rfl, rfl, rfl, rfl, rfl⟩

theorem quiet_countRet (r : Rec) (ctr : UInt64) : Quiet r (r.countRet ctr) :=
  ⟨rfl, rfl, rfl, rfl, rfl, rfl⟩

theorem quiet_cap (r : Rec) (hit : Bool) : Quiet r (r.cap hit) := ⟨rfl, rfl, rfl, rfl, rfl, rfl⟩

theorem quiet_settleBranch (r : Rec) (addr : UInt64) : Quiet r (r.settleBranch addr) := by
  unfold settleBranch
  split <;> exact ⟨rfl, rfl, rfl, rfl, rfl, rfl⟩

theorem quiet_cover (r : Rec) (addr ilen : UInt64) : Quiet r (r.cover addr ilen) := by
  unfold cover
  split <;> exact ⟨rfl, rfl, rfl, rfl, rfl, rfl⟩

theorem quiet_noteCallee (r : Rec) (target : Option UInt64) (direct : Bool) :
    Quiet r (r.noteCallee target direct) := by
  unfold noteCallee
  split
  · split <;> exact ⟨rfl, rfl, rfl, rfl, rfl, rfl⟩
  · exact ⟨rfl, rfl, rfl, rfl, rfl, rfl⟩

theorem quiet_passBranch (r : Rec) (addr ilen : UInt64) (target : Option UInt64) :
    Quiet r (r.passBranch addr ilen target).1 := by
  unfold passBranch
  split <;> exact ⟨rfl, rfl, rfl, rfl, rfl, rfl⟩

section Steps

variable {cfg : Config} {r r' : Rec}

/-- A state that grew its key sets and recorded nothing. -/
theorem Inv.grow (h : Inv cfg r) (hcfg : r'.cfg = r.cfg) (heffects : r'.effects = r.effects)
    (hseen : r.seenHeapish ⊆ r'.seenHeapish) (hreads : r.seenReads ⊆ r'.seenReads)
    (hheapish : r'.heapishCount = r.heapishCount) (hmaps : r'.mapCount ≤ maxRuntimeMaps) :
    Inv cfg r' where
  cfg_eq := hcfg.trans h.cfg_eq
  guarded := heffects ▸ h.guarded
  nodup := heffects ▸ h.nodup
  marked e he := (h.marked e (heffects ▸ he)).mono hreads hseen
  reads := heffects ▸ h.reads
  reads_card := heffects ▸ h.reads_card.trans (Finset.card_le_card hreads)
  heapish := by rw [heffects, hheapish, h.heapish]
  heapish_le := hheapish ▸ h.heapish_le
  maps := hmaps

theorem Inv.quiet (h : Inv cfg r) (hq : Quiet r r') : Inv cfg r' :=
  h.grow hq.cfg hq.effects hq.seenHeapish.ge hq.seenReads.ge hq.heapishCount
    (hq.mapCount ▸ h.maps)

/-- An effect may be recorded when its key is fresh and its slot has room. -/
theorem Inv.push {e : Effect} (h : Inv cfg r) (hcfg : r'.cfg = r.cfg)
    (hmaps : r'.mapCount = r.mapCount) (hseen : r.seenHeapish ⊆ r'.seenHeapish)
    (hreads : r.seenReads ⊆ r'.seenReads) (hfresh : e.once = true → e ∉ r.effects)
    (hmark : (r'.push e).Marked e)
    (hguarded : e.slot = .guarded → slotCount .guarded r.effects < cfg.maxEffects)
    (hread : e.slot = .read → r'.seenReads.card = r.seenReads.card + 1 ∧ r'.seenReads.card ≤ 64)
    (hheapish : r'.heapishCount = r.heapishCount + if e.slot = .heapish then 1 else 0)
    (hheapish_le : r'.heapishCount ≤ cfg.maxHeapish) (heffects : r'.effects = r.effects) :
    Inv cfg (r'.push e) where
  cfg_eq := hcfg.trans h.cfg_eq
  guarded := by
    simp only [Rec.push, heffects, slotCount_append_singleton]
    have hle := h.guarded
    split
    · next hs => exact hguarded hs
    · exact hle
  nodup := by
    simp only [Rec.push, heffects, List.filter_append]
    cases hone : e.once with
    | false => simpa [hone] using h.nodup
    | true =>
        rw [List.filter_cons_of_pos hone, List.filter_nil]
        refine h.nodup.append (List.nodup_singleton e) ?_
        rw [List.disjoint_singleton]
        exact fun hmem ↦ hfresh hone (List.mem_filter.mp hmem).1
  marked e' he' := by
    simp only [Rec.push, heffects, List.mem_append, List.mem_singleton] at he'
    rcases he' with he' | rfl
    · exact (h.marked e' he').mono hreads hseen
    · exact hmark
  reads := by
    simp only [Rec.push, heffects, slotCount_append_singleton]
    have hle := h.reads
    have hcard := h.reads_card
    split
    · next hs =>
        have := hread hs
        omega
    · exact hle
  reads_card := by
    simp only [Rec.push, heffects, slotCount_append_singleton]
    have hcard := h.reads_card
    have hmono := Finset.card_le_card hreads
    split
    · next hs =>
        have := hread hs
        omega
    · omega
  heapish := by
    simp only [Rec.push, heffects, slotCount_append_singleton, h.heapish]
    exact hheapish.symm
  heapish_le := hheapish_le
  maps := (hmaps ▸ h.maps : r'.mapCount ≤ maxRuntimeMaps)

/-- What a cap guards is recorded below it. -/
theorem Inv.push_guarded {e : Effect} (h : Inv cfg r) (he : e.slot = .guarded)
    (hlt : slotCount .guarded r.effects < cfg.maxEffects) (hmark : r.Marked e) :
    Inv cfg (r.push e) := by
  refine h.push rfl rfl subset_rfl subset_rfl ?_ hmark (fun _ ↦ hlt) ?_ ?_ h.heapish_le rfl
  · simp [Effect.once, he]
  · simp [he]
  · simp [he]

/-! ## What the hooks record -/

theorem lt_nargs_of_classifyAddr {addr : UInt64} {k : UInt16}
    (h : (r.classifyAddr addr).1 = .arg k) : k.toNat < nargs := by
  unfold classifyAddr at h
  split at h
  · next i hi =>
      have hlt : i < 6 := List.mem_range.mp (List.mem_of_find?_eq_some hi)
      rw [← Region.arg.inj h, UInt16.toNat_ofNat', Nat.mod_eq_of_lt (by omega)]
      exact hlt
  · split at h
    · cases h
    · split at h <;> cases h

/-- A touched region changes nothing else, and no guarded effect. -/
theorem noteNewRegion_frame (r : Rec) (addr : UInt64) :
    (r.noteNewRegion addr).mapCount = r.mapCount ∧
      slotCount .guarded (r.noteNewRegion addr).effects = slotCount .guarded r.effects := by
  unfold noteNewRegion
  split
  · split
    · exact ⟨rfl, rfl⟩
    · simp [Rec.push]
  · split
    · exact ⟨rfl, rfl⟩
    · simp [Rec.push]
  · split
    · exact ⟨rfl, rfl⟩
    · dsimp only
      split
      · simp [Rec.push]
      · exact ⟨rfl, rfl⟩
  · exact ⟨rfl, rfl⟩

theorem Inv.noteNewRegion (h : Inv cfg r) (addr : UInt64) : Inv cfg (r.noteNewRegion addr) := by
  unfold Rec.noteNewRegion
  split
  · next k hk =>
      split
      · exact h
      · next hnew =>
          have hlt := lt_nargs_of_classifyAddr hk
          refine h.push rfl rfl (Finset.subset_insert _ _) subset_rfl ?_ ?_ ?_ ?_ ?_ h.heapish_le
            rfl
          · exact fun _ hmem ↦ hnew (h.marked _ hmem).2
          · exact ⟨hlt, Finset.mem_insert_self _ _⟩
          · simp
          · simp
          · simp
  · split
    · exact h
    · next hnew =>
        refine h.push rfl rfl (Finset.subset_insert _ _) subset_rfl ?_ ?_ ?_ ?_ ?_ h.heapish_le rfl
        · exact fun _ hmem ↦ hnew (h.marked _ hmem)
        · exact Finset.mem_insert_self _ _
        · simp
        · simp
        · simp
  · split
    · exact h
    · dsimp only
      split
      · next hroom =>
          rw [h.cfg_eq] at hroom
          refine h.push rfl rfl (Finset.subset_insert _ _) subset_rfl ?_ ?_ ?_ ?_ ?_ hroom rfl
          · simp [Effect.once]
          · exact trivial
          · simp
          · simp
          · simp
      · exact h.grow rfl rfl (Finset.subset_insert _ _) subset_rfl rfl h.maps
  · exact h

theorem Inv.noteRead (h : Inv cfg r) (region : Region) (off : Int32) :
    Inv cfg (r.noteRead (.read region off)) := by
  unfold Rec.noteRead
  split
  · exact h
  · next hnew =>
      have hcard := Finset.card_insert_of_notMem hnew
      dsimp only
      split
      · next hroom =>
          refine h.push rfl rfl subset_rfl (Finset.subset_insert _ _) ?_ ?_ ?_ ?_ ?_ h.heapish_le
            rfl
          · exact fun _ hmem ↦ hnew (h.marked _ hmem)
          · exact Finset.mem_insert_self _ _
          · simp
          · exact fun _ ↦ ⟨hcard, hroom⟩
          · simp
      · exact h.grow rfl rfl subset_rfl (Finset.subset_insert _ _) rfl h.maps

theorem Inv.recordRead (h : Inv cfg r) (addr : UInt64) : Inv cfg (r.recordRead addr) := by
  unfold Rec.recordRead
  dsimp only
  split
  · exact h
  · exact h.noteRead _ _

theorem recordRead_mapCount (r : Rec) (addr : UInt64) :
    (r.recordRead addr).mapCount = r.mapCount := by
  simp only [recordRead, Rec.noteRead]
  split
  · rfl
  · split
    · rfl
    · split <;> rfl

theorem Inv.recordWrite (h : Inv cfg r) (addr : UInt64) (size : ℕ) (val : Int64)
    (hroom : slotCount .guarded r.effects < cfg.maxEffects) :
    Inv cfg (r.recordWrite addr size val) := by
  unfold Rec.recordWrite
  dsimp only
  split
  · exact h
  · exact h.push_guarded rfl hroom trivial

theorem recordWrite_mapCount (r : Rec) (addr : UInt64) (size : ℕ) (val : Int64) :
    (r.recordWrite addr size val).mapCount = r.mapCount := by
  simp only [recordWrite]
  split <;> rfl

theorem guarded_lt_of_length_lt {n : ℕ} {l : List Effect} (h : l.length < n) :
    slotCount .guarded l < n := (List.countP_le_length).trans_lt h

/-! ## The hooks -/

/-- The state is bounded, and every page mapped was counted. -/
def Bounded (cfg : Config) (r : Rec) (commands : List Command) : Prop :=
  Inv cfg r ∧ commands.countP Command.isMap ≤ r.mapCount

theorem bounded_unmappedHook (h : Inv cfg r) (fetch : Bool) (addr : UInt64) (mapOk : Bool) :
    Inv cfg (r.unmappedHook fetch addr mapOk).1 ∧
      r.mapCount + (r.unmappedHook fetch addr mapOk).2.countP Command.isMap ≤
        (r.unmappedHook fetch addr mapOk).1.mapCount := by
  unfold unmappedHook
  split
  · exact ⟨h, le_rfl⟩
  · split
    · exact ⟨h.quiet (quiet_cap r true), le_rfl⟩
    · next hroom =>
        have hcount : Inv cfg r.countMap :=
          h.grow rfl rfl subset_rfl subset_rfl rfl (Nat.succ_le_of_lt (not_le.mp hroom))
        split
        · refine ⟨hcount.noteNewRegion addr, ?_⟩
          rw [(noteNewRegion_frame r.countMap addr).1]
          exact le_rfl
        · exact ⟨hcount, Nat.le_succ _⟩

theorem bounded_readHook (h : Inv cfg r) {addr : UInt64} {out : List Command}
    (hstep : r.readHook addr = some (r', out)) :
    Inv cfg r' ∧ r.mapCount + out.countP Command.isMap ≤ r'.mapCount := by
  rw [readHook, Option.bind_eq_bind, Option.bind_eq_some_iff] at hstep
  obtain ⟨n, -, hstep⟩ := hstep
  have hquiet : Quiet r ((r.countMemOp n).cap (r.cfg.memOpCap ≤ n)) :=
    (quiet_countMemOp r n).trans (quiet_cap _ _)
  dsimp only at hstep
  generalize (r.countMemOp n).cap (r.cfg.memOpCap ≤ n) = s at hquiet hstep
  split at hstep
  · obtain ⟨rfl, rfl⟩ := Prod.mk.inj (Option.some.inj hstep)
    exact ⟨h.quiet hquiet, hquiet.mapCount.ge⟩
  · obtain ⟨rfl, rfl⟩ := Prod.mk.inj (Option.some.inj hstep)
    refine ⟨((h.quiet hquiet).noteNewRegion addr).recordRead addr, ?_⟩
    rw [recordRead_mapCount, (noteNewRegion_frame s addr).1]
    exact hquiet.mapCount.ge

theorem bounded_writeHook (h : Inv cfg r) {addr : UInt64} {size : ℕ} {val : Int64}
    {out : List Command} (hstep : r.writeHook addr size val = some (r', out)) :
    Inv cfg r' ∧ r.mapCount + out.countP Command.isMap ≤ r'.mapCount := by
  rw [writeHook, Option.bind_eq_bind, Option.bind_eq_some_iff] at hstep
  obtain ⟨n, -, hstep⟩ := hstep
  set hit := decide (r.cfg.maxEffects ≤ r.effects.length) || decide (r.cfg.memOpCap ≤ n) with hhit
  have hquiet : Quiet r ((r.countMemOp n).cap hit) :=
    (quiet_countMemOp r n).trans (quiet_cap _ _)
  dsimp only at hstep
  split at hstep
  · obtain ⟨rfl, rfl⟩ := Prod.mk.inj (Option.some.inj hstep)
    exact ⟨h.quiet hquiet, hquiet.mapCount.ge⟩
  · next hopen =>
      obtain ⟨rfl, rfl⟩ := Prod.mk.inj (Option.some.inj hstep)
      -- an open run is below the cap on the effects
      have hlt : r.effects.length < cfg.maxEffects := by
        rw [← h.cfg_eq]
        by_contra hle
        apply hopen
        simp [Rec.cap, hhit, not_lt.mp hle]
      have hframe := noteNewRegion_frame ((r.countMemOp n).cap hit) addr
      refine ⟨((h.quiet hquiet).noteNewRegion addr).recordWrite addr size val ?_, ?_⟩
      · rw [hframe.2]
        exact guarded_lt_of_length_lt hlt
      · rw [recordWrite_mapCount, hframe.1]
        exact hquiet.mapCount.ge

theorem bounded_steer (h : Inv cfg r) (hroom : slotCount .guarded r.effects < cfg.maxEffects)
    {addr : UInt64} {kind : Kind} {ilen : UInt64} {nr : UInt32} {retval : UInt64}
    {out : List Command} (hstep : r.steer addr kind ilen nr retval = some (r', out)) :
    Inv cfg r' ∧ r.mapCount + out.countP Command.isMap ≤ r'.mapCount := by
  have hpush {s : Rec} (hquiet : Quiet r s) {e : Effect} (he : e.slot = .guarded)
      (hmark : s.Marked e) : Inv cfg (s.push e) :=
    (h.quiet hquiet).push_guarded he (hquiet.effects ▸ hroom) hmark
  cases kind with
  | call target direct =>
      obtain ⟨ctr, -, hstep⟩ := Option.bind_eq_some_iff.mp hstep
      obtain ⟨rfl, rfl⟩ := Prod.mk.inj (Option.some.inj hstep)
      have hquiet := (quiet_noteCallee r target direct).trans (quiet_countRet _ ctr)
      exact ⟨hpush hquiet rfl trivial, hquiet.mapCount.ge⟩
  | syscall =>
      obtain ⟨ctr, -, hstep⟩ := Option.bind_eq_some_iff.mp hstep
      obtain ⟨rfl, rfl⟩ := Prod.mk.inj (Option.some.inj hstep)
      exact ⟨hpush (quiet_countRet r ctr) rfl trivial, le_rfl⟩
  | ret =>
      obtain ⟨rfl, rfl⟩ := Prod.mk.inj (Option.some.inj hstep)
      exact ⟨h.push_guarded rfl hroom trivial, le_rfl⟩
  | branch target =>
      have hpassed := quiet_passBranch (r.push .branch) addr ilen target
      have hout : ((r.push .branch).passBranch addr ilen target).2.countP Command.isMap = 0 := by
        unfold passBranch
        split <;> rfl
      have hpair : (r.push .branch).passBranch addr ilen target = (r', out) :=
        Option.some.inj hstep
      rw [hpair] at hpassed hout
      rw [hout, hpassed.mapCount]
      have hpushed : Inv cfg (r.push .branch) := h.push_guarded rfl hroom trivial
      exact ⟨hpushed.quiet hpassed, le_rfl⟩
  | plain =>
      obtain ⟨rfl, rfl⟩ := Prod.mk.inj (Option.some.inj hstep)
      exact ⟨h, le_rfl⟩

theorem bounded_codeHook (h : Inv cfg r) {addr : UInt64} {kind : Kind} {ilen : UInt64}
    {nr : UInt32} {retval : UInt64} {out : List Command}
    (hstep : r.codeHook addr kind ilen nr retval = some (r', out)) :
    Inv cfg r' ∧ r.mapCount + out.countP Command.isMap ≤ r'.mapCount := by
  obtain ⟨instret, -, hstep⟩ := Option.bind_eq_some_iff.mp hstep
  obtain ⟨visits, -, hstep⟩ := Option.bind_eq_some_iff.mp hstep
  have hquiet := (quiet_settleBranch r addr).trans (quiet_countVisit _ addr instret visits)
  dsimp only at hstep
  generalize (r.settleBranch addr).countVisit addr instret visits = s at hquiet hstep
  split at hstep
  · obtain ⟨rfl, rfl⟩ := Prod.mk.inj (Option.some.inj hstep)
    exact ⟨h.quiet (hquiet.trans (quiet_cap s true)), hquiet.mapCount.ge⟩
  · next hopen =>
      have hlt : s.effects.length < cfg.maxEffects := by
        rw [← (h.quiet hquiet).cfg_eq]
        by_contra hle
        apply hopen
        simp [overCaps, not_lt.mp hle]
      have hcover := quiet_cover s addr ilen
      have hroom : slotCount .guarded (s.cover addr ilen).effects < cfg.maxEffects := by
        rw [hcover.effects]
        exact guarded_lt_of_length_lt hlt
      have hsteer := bounded_steer (h.quiet (hquiet.trans hcover)) hroom hstep
      rwa [(hquiet.trans hcover).mapCount] at hsteer

theorem bounded_step {commands out : List Command} {callback : Callback}
    (h : Bounded cfg r commands) (hstep : r.step callback = some (r', out)) :
    Bounded cfg r' (commands ++ out) := by
  have hhook : Inv cfg r' ∧ r.mapCount + out.countP Command.isMap ≤ r'.mapCount := by
    cases callback with
    | unmapped fetch addr mapOk =>
        have heq := Option.some.inj hstep
        have hhook := bounded_unmappedHook h.1 fetch addr mapOk
        rwa [heq] at hhook
    | read addr => exact bounded_readHook h.1 hstep
    | write addr size val => exact bounded_writeHook h.1 hstep
    | code addr kind ilen nr retval => exact bounded_codeHook h.1 hstep
  refine ⟨hhook.1, ?_⟩
  rw [List.countP_append]
  have := h.2
  have := hhook.2
  omega

end Steps

theorem inv_start (cfg : Config) (image : Image) (func : Func)
    (symbols : KeyMap.Map UInt64 String) (force : List Bool) :
    Inv cfg (Rec.start cfg image func symbols force) where
  cfg_eq := rfl
  guarded := Nat.zero_le _
  nodup := List.nodup_nil
  marked _ he := absurd he List.not_mem_nil
  reads := Nat.zero_le _
  reads_card := Nat.zero_le _
  heapish := rfl
  heapish_le := Nat.zero_le _
  maps := Nat.zero_le _

end Rec

/-! ## The bounds -/

/-- The resources of a run. -/
structure RunBounds (cfg : Config) (r : Rec) (commands : List Command) : Prop where
  effects : r.effects.length ≤ cfg.maxEffects + cfg.maxHeapish + 72
  reads : (r.effects.filter fun e ↦ e.slot = .read).length ≤ 64
  reads_nodup : (r.effects.filter fun e ↦ e.slot = .read).Nodup
  arg : ∀ k, r.effects.count (.newRegion (.arg k)) ≤ 1
  global : r.effects.count (.newRegion .global) ≤ 1
  heapish : r.effects.count (.newRegion .heapish) ≤ cfg.maxHeapish
  maps : commands.countP Command.isMap ≤ maxRuntimeMaps

section Counts

variable {cfg : Config} {r : Rec}

theorem Rec.Inv.slot_nodup (h : r.Inv cfg) {s : Slot} (hs : s = .read ∨ s = .arg ∨ s = .global) :
    (r.effects.filter fun e ↦ e.slot = s).Nodup := by
  have hfilter : (r.effects.filter fun e ↦ e.slot = s) =
      (r.effects.filter Effect.once).filter fun e ↦ e.slot = s := by
    rw [List.filter_filter]
    apply List.filter_congr
    intro e _
    by_cases he : e.slot = s
    · rcases hs with rfl | rfl | rfl <;> simp [Effect.once, he]
    · simp [he]
  rw [hfilter]
  exact h.nodup.filter _

theorem slot_eq_arg_iff {e : Effect} : e.slot = .arg ↔ ∃ k, e = .newRegion (.arg k) := by
  cases e with
  | newRegion region => cases region <;> simp
  | read region off => simp
  | _ => exact iff_of_false (fun h ↦ nomatch h) fun ⟨_, h⟩ ↦ nomatch h

theorem slot_eq_global_iff {e : Effect} : e.slot = .global ↔ e = .newRegion .global := by
  cases e with
  | newRegion region => cases region <;> simp
  | read region off => simp
  | _ => exact iff_of_false (fun h ↦ nomatch h) fun h ↦ nomatch h

theorem Rec.Inv.args_le (h : r.Inv cfg) : slotCount .arg r.effects ≤ nargs := by
  have hsub : (r.effects.filter fun e ↦ e.slot = .arg) ⊆
      (List.range nargs).map fun i ↦ .newRegion (.arg (UInt16.ofNat i)) := by
    intro e he
    obtain ⟨he, hslot⟩ := List.mem_filter.mp he
    obtain ⟨k, rfl⟩ := slot_eq_arg_iff.mp (of_decide_eq_true hslot)
    have hlt := (h.marked _ he).1
    exact List.mem_map.mpr ⟨k.toNat, List.mem_range.mpr hlt, by simp⟩
  have hlen := ((h.slot_nodup (Or.inr (Or.inl rfl))).subperm hsub).length_le
  rwa [List.length_map, List.length_range, ← List.countP_eq_length_filter] at hlen

theorem Rec.Inv.globals_le (h : r.Inv cfg) : slotCount .global r.effects ≤ 1 := by
  have hsub : (r.effects.filter fun e ↦ e.slot = .global) ⊆ [.newRegion .global] := by
    intro e he
    rw [slot_eq_global_iff.mp (of_decide_eq_true (List.mem_filter.mp he).2)]
    exact List.mem_cons_self
  have hlen := ((h.slot_nodup (Or.inr (Or.inr rfl))).subperm hsub).length_le
  rwa [List.length_singleton, ← List.countP_eq_length_filter] at hlen

/-- A key recorded once is recorded once. -/
theorem Rec.Inv.count_le_one (h : r.Inv cfg) {e : Effect} (he : e.once = true) :
    r.effects.count e ≤ 1 := by
  rw [← List.count_filter he]
  exact List.nodup_iff_count_le_one.mp h.nodup e

end Counts

/-- Whatever the callbacks and their order, a run stays inside its bounds. -/
theorem record_bounded (cfg : Config) (image : Image) (func : Func)
    (symbols : KeyMap.Map UInt64 String) (force : List Bool) (callbacks : List Callback)
    {r : Rec} {commands : List Command}
    (h : record cfg image func symbols force callbacks = some (r, commands)) :
    RunBounds cfg r commands := by
  have hstart : Rec.Bounded cfg (Rec.start cfg image func symbols force) [] :=
    ⟨Rec.inv_start cfg image func symbols force, Nat.zero_le _⟩
  have hbounded : Rec.Bounded cfg r ([] ++ commands) :=
    Machine.run_invariant (fun _ _ _ _ _ hs hstep ↦ Rec.bounded_step hs hstep) hstart h
  rw [List.nil_append] at hbounded
  obtain ⟨hinv, hmaps⟩ := hbounded
  exact
    { effects := by
        have hargs := hinv.args_le
        have hglobals := hinv.globals_le
        have hguarded := hinv.guarded
        have hreads := hinv.reads
        have hheapish := hinv.heapish_le
        rw [length_eq_slotCounts, hinv.heapish]
        rw [nargs] at hargs
        omega
      reads := by
        rw [← List.countP_eq_length_filter]
        exact hinv.reads
      reads_nodup := hinv.slot_nodup (Or.inl rfl)
      arg := fun k ↦ hinv.count_le_one rfl
      global := hinv.count_le_one rfl
      heapish := by
        refine le_trans ?_ (hinv.heapish.trans_le hinv.heapish_le)
        apply List.countP_mono_left
        intro e _ he
        rw [eq_of_beq he]
        rfl
      maps := hmaps.trans hinv.maps }

/-- A touched page, a field read twice, a store and a return. -/
def touches : List Callback :=
  [.unmapped false 0x5010 true, .read 0x5010, .read 0x5010, .write 0x5018 8 7,
    .code 0x1000 .ret 1 0 0]

def touchesImage : Image := ⟨[], 0x1000, false, .x86_64⟩

def touchesFunc : Func := ⟨none, 0x1000, 16, .symtab⟩

theorem record_bounded_touches : ∃ r commands,
    record Config.default touchesImage touchesFunc ∅ [] touches = some (r, commands) ∧
      RunBounds Config.default r commands := by
  have hrun : (record Config.default touchesImage touchesFunc ∅ [] touches).isSome = true := by
    decide
  obtain ⟨⟨r, commands⟩, h⟩ := Option.isSome_iff_exists.mp hrun
  exact ⟨r, commands, h, record_bounded _ _ _ _ _ _ h⟩

end Fnprint
