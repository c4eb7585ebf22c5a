import Fnprint.Restarts

/-!
# Restarts behind a detour

What a forced run executes is covered by nobody, so a restart can go there
again.  No engine gets that far when branches are not forced, when a run ends
with its first instruction, or when a body has no start beside its entry; in
every other case some engine does.
-/

namespace Fnprint

open KeyMap Checked Binary32

theorem not_enough_one {n : ℕ} (hn : 2 ≤ n) (hfin : n ≤ 2 ^ 64) :
    ¬blanketEnough ≤ natCast 1 / natCast n := by
  have hone : 1 ≤ 2 ^ 64 := by norm_num
  have hhalf : bits (natCast 1 / natCast 2) < bits blanketEnough := by decide
  have hle : bits (natCast 1 / natCast n) ≤ bits (natCast 1 / natCast 2) :=
    natCast_div_anti (by decide) hfin hone hn
  rw [le_iff_bits (by rw [inf_eq]; decide) (natCast_div_le_inf (by omega) hfin hone)]
  exact not_le.mpr (hle.trans_lt hhalf)

/-- Caps under which a first instruction runs. -/
structure Config.Runs (cfg : Config) : Prop where
  visits : cfg.visitCap ≠ 0
  instrs : cfg.instrCap ≠ 0
  effects : cfg.maxEffects ≠ 0

/-! ## A detour -/

/-- An engine that takes a branch back to where it started, unless it is
forced: then it goes on to another address. -/
def detour (b : UInt64) : Emulate := fun _ force start ↦
  some ⟨if force = [] then [.code start (.branch (some start)) 1 0 0, .code start .plain 1 0 0]
    else [.code start .plain 1 0 0, .code b .plain 1 0 0], true⟩

theorem entersAtStart_detour (b : UInt64) : EntersAtStart (detour b) := by
  intro cfg force start run h a ha
  rw [← Option.some.inj h] at ha
  dsimp only at ha
  split at ha
  · exact (Option.some.inj ha).symm
  · exact (Option.some.inj ha).symm

section Detour

variable {cfg : Config} {image : Image} {func : Func} {symbols : Map UInt64 String} {b : UInt64}

theorem not_spent_start (hcaps : cfg.Runs) (force : List Bool) :
    ¬(Rec.start cfg image func symbols force).Spent := by
  rintro (h | h | h)
  · exact hcaps.visits h
  · exact hcaps.instrs (UInt64.le_zero_iff.mp h)
  · exact hcaps.effects (Nat.le_zero.mp h)

theorem first_codeHook (force : List Bool) (addr : UInt64) {kind : Kind}
    (hkind : kind = .plain ∨ ∃ target, kind = .branch target) :
    ∃ r out, (Rec.start cfg image func symbols force).step (.code addr kind 1 0 0) =
      some (r, out) ∧ r.instret.toNat = 1 ∧ ∀ a, r.visitsOf a = if a = addr then 1 else 0 := by
  have hinstret : (Rec.start cfg image func symbols force).instret.toNat + 1 < 2 ^ 64 :=
    show 0 + 1 < 2 ^ 64 by norm_num
  have hvisits : ((Rec.start cfg image func symbols force).visitsOf addr).toNat + 1 < 2 ^ 32 :=
    show 0 + 1 < 2 ^ 32 by norm_num
  obtain ⟨r, out, h⟩ := Rec.exists_step _ addr 1 0 0 hkind hinstret hvisits
  obtain ⟨instret, visits, hs⟩ := Rec.steps_codeHook h
  refine ⟨r, out, h, ?_, fun a ↦ ?_⟩
  · rw [hs.instret, Rec.toNat_of_add64_one hs.instret_eq]
    rfl
  · rw [hs.visitsOf, (Rec.add32_one hs.visits_eq).2.mpr rfl]
    rfl

theorem runFrom_pair {emulate : Emulate} {force : List Bool} {start : UInt64} {c c' : Callback}
    {clean : Bool} (he : emulate cfg force start = some ⟨[c, c'], clean⟩) {r r' : Rec}
    {out out' : List Command}
    (hc : (Rec.start cfg image func symbols force).step c = some (r, out))
    (hc' : r.step c' = some (r', out')) :
    runFrom emulate image func symbols cfg force start = some (r'.finish func.size clean
      (((Rec.start cfg image func symbols force).begins c).toList ++ (r.begins c').toList)) := by
  have hrun : record cfg image func symbols force [c, c'] = some (r', out ++ out') := by
    refine Machine.run_cons_eq_some_iff.mpr ⟨r, out, out', hc, ?_, rfl⟩
    exact Machine.run_cons_eq_some_iff.mpr ⟨r', out', [], hc', rfl, (List.append_nil _).symm⟩
  rw [runFrom, he]
  dsimp only
  rw [hrun, executed_cons hc, executed_cons hc', executed, List.append_nil]
  rfl

/-- The natural run covers the entry only, and took the branch. -/
theorem natural_detour (hcaps : cfg.Runs) (hbody : func.entry < satAdd64 func.entry func.size) :
    ∃ base, runFrom (detour b) image func symbols cfg [] func.entry = some base ∧
      base.dirs = [true] ∧ base.covered = AList.insert func.entry 1 ∅ := by
  obtain ⟨r, out, h, hinstret, hvisits⟩ := @first_codeHook cfg image func symbols [] func.entry
    (.branch (some func.entry)) (Or.inr ⟨_, rfl⟩)
  have hbegins : (Rec.start cfg image func symbols []).begins
      (.code func.entry (.branch (some func.entry)) 1 0 0) = some (func.entry, 1) :=
    Rec.begins_of_not_spent rfl (not_spent_start hcaps [])
  have hvisited : r.visitsOf func.entry = 1 := by rw [hvisits, if_pos rfl]
  obtain ⟨r', out', h'⟩ := Rec.exists_step r func.entry 1 0 0 (Or.inl rfl)
    (by rw [hinstret]; decide) (by rw [hvisited]; decide)
  refine ⟨_, runFrom_pair rfl h h', ?_, ?_⟩
  · have hturned := Rec.turned_step h
    have hpending : r.pendingBranch = some func.entry :=
      hturned.natural func.entry 1 (some func.entry) (by rw [Rec.branchAt, hbegins]; rfl) rfl
    have hnone : r.naturalDirs = [] := hturned.dirs
    have hdirs : r'.naturalDirs = [func.entry == func.entry] := by
      rw [(Rec.turned_codeHook h').dirs, hnone, hpending]
      rfl
    rwa [beq_self_eq_true] at hdirs
  · have hcovered : r.covered = AList.insert func.entry 1 ∅ := by
      rw [Rec.covered_codeHook h hbegins]
      exact if_pos ⟨rfl, UInt64.le_refl _, hbody⟩
    exact (Rec.covered_of_visited (by rw [hvisited]; decide) h').trans hcovered

theorem forced_detour (hcaps : cfg.Runs) (hcap : 1 < cfg.instrCap) (hb : b ≠ func.entry)
    {force : List Bool} (hforce : force ≠ []) :
    ∃ run, runFrom (detour b) image func symbols cfg force func.entry = some run ∧
      run.Executes b := by
  have hengine : detour b cfg force func.entry =
      some ⟨[.code func.entry .plain 1 0 0, .code b .plain 1 0 0], true⟩ := by
    rw [detour, if_neg hforce]
  obtain ⟨r, out, h, hinstret, hvisits⟩ :=
    @first_codeHook cfg image func symbols force func.entry .plain (Or.inl rfl)
  have hnew : r.visitsOf b = 0 := by rw [hvisits, if_neg hb]
  have hopen : ¬r.Spent := by
    have heffects : r.effects = [] := Rec.effects_plain h
    have hcfg : r.cfg = cfg := (Rec.grew_step h).cfg
    have hlt := UInt64.lt_iff_toNat_lt.mp hcap
    unfold Rec.Spent
    rw [heffects, hcfg, not_or, not_or]
    refine ⟨hcaps.visits, fun hle ↦ ?_, fun hle ↦ hcaps.effects (Nat.le_zero.mp hle)⟩
    rw [UInt64.le_iff_toNat_le, hinstret] at hle
    exact absurd hle (not_le.mpr hlt)
  obtain ⟨r', out', h'⟩ := Rec.exists_step r b 1 0 0 (Or.inl rfl)
    (by rw [hinstret]; decide) (by rw [hnew]; decide)
  refine ⟨_, runFrom_pair hengine h h', ?_⟩
  have hbegins : r.begins (.code b .plain 1 0 0) = some (b, 1) :=
    Rec.begins_of_not_spent hnew hopen
  rw [RunOut.Executes, Rec.finish, hbegins]
  simp

theorem restartAt_entry {starts : List UInt64} (hsize : 2 ≤ func.size.toNat)
    (hfind : starts.find? (fun a ↦ a ≠ func.entry) = some b) :
    restartAt func starts (AList.insert func.entry 1 ∅) = some (some b) := by
  have hsum : sumBytes (AList.insert func.entry 1 ∅) = some 1 := rfl
  have hbody : (bodySize func).toNat = func.size.toNat := toNat_bodySize (by
    rw [UInt64.lt_iff_toNat_lt]
    exact Nat.zero_lt_of_lt hsize)
  have hlt := func.size.toNat_lt
  have henough := not_enough_one hsize hlt.le
  rw [restartAt, hsum, Option.bind_eq_bind, Option.bind_some, hbody]
  have hone : (1 : UInt64).toNat = 1 := rfl
  rw [hone, if_neg henough, ← hfind]
  congr 2
  funext a
  by_cases ha : a = func.entry
  · subst ha
    rw [AList.lookup_insert]
    simp
  · rw [AList.lookup_insert_ne ha]
    simp [ha]

/-- With a branch to force and a start to restart at, an engine makes a restart
go where a forced run has been. -/
theorem exists_repeated {starts : List UInt64} {a : UInt64} (hcaps : cfg.Runs)
    (hdepth : cfg.exploreDepth ≠ 0) (hcap : 1 < cfg.instrCap) (hrestarts : cfg.blanketRestarts ≠ 0)
    (hwrap : func.entry.toNat + func.size.toNat < 2 ^ 64) (hsize : 2 ≤ func.size.toNat)
    (ha : a ∈ starts) (hne : a ≠ func.entry) (seed : UInt64) :
    ∃ emulate, EntersAtStart emulate ∧ ∃ s,
      seedRuns emulate image func symbols cfg starts seed = some s ∧ ¬Progress starts s := by
  have hcaps' : Config.Runs { cfg with seed := seed } := ⟨hcaps.visits, hcaps.instrs, hcaps.effects⟩
  have hbody : func.entry < satAdd64 func.entry func.size := by
    rw [UInt64.lt_iff_toNat_lt, toNat_satAdd64 hwrap]
    omega
  obtain ⟨b, hfind⟩ : ∃ b, starts.find? (fun a ↦ a ≠ func.entry) = some b := by
    rw [← Option.isSome_iff_exists, List.find?_isSome]
    exact ⟨a, ha, by simpa using hne⟩
  have hb : b ≠ func.entry := by simpa using List.find?_some hfind
  obtain ⟨base, hbase, hdirs, hcovered⟩ :=
    @natural_detour { cfg with seed := seed } image func symbols b hcaps' hbody
  obtain ⟨run, hrun, hexec⟩ := @forced_detour { cfg with seed := seed } image func symbols b hcaps'
    hcap hb (forcePlan base.dirs 0) (by simp [forcePlan])
  obtain ⟨x, rest, hx, hstart⟩ : ∃ x rest, restarts (detour b) image func symbols
      { cfg with seed := seed } starts cfg.blanketRestarts base.covered = x :: rest ∧
        x.start = b := by
    obtain ⟨n, hn⟩ := Nat.exists_eq_succ_of_ne_zero hrestarts
    rw [hn, restarts, hcovered, restartAt_entry hsize hfind]
    dsimp only
    split
    · exact ⟨_, _, rfl, rfl⟩
    · exact ⟨_, _, rfl, rfl⟩
  refine ⟨detour b, entersAtStart_detour b, ⟨base, [run], x :: rest⟩, ?_, fun h ↦ ?_⟩
  · have hmin : min base.dirs.length cfg.exploreDepth = 1 := by
      rw [hdirs]
      exact min_eq_left (Nat.one_le_iff_ne_zero.mpr hdepth)
    rw [seedRuns]
    dsimp only
    rw [hbase, Option.bind_eq_bind, Option.bind_some, hmin, hx, List.range_one, List.mapM_cons,
      hrun, List.mapM_nil]
    rfl
  · refine h.unforced x (List.mem_cons_self ..) run (List.mem_cons_self ..) ?_
    rwa [hstart]

end Detour

/-! ## Every engine -/

theorem StartsIn.inside_body {func : Func} {starts : List UInt64}
    (h : StartsIn func.entry func.size.toNat starts)
    (hwrap : func.entry.toNat + func.size.toNat < 2 ^ 64) : Inside func starts := by
  intro a ha
  rw [UInt64.le_iff_toNat_le, UInt64.lt_iff_toNat_lt, toNat_satAdd64 hwrap]
  exact h.inside a ha

section Starts

variable {image : Image} {func : Func} {capstone : Option Disasm} {cfg : Config}

theorem exists_restartStarts (hwrap : func.entry.toNat + func.size.toNat < 2 ^ 64)
    (hcs : ∀ cs ∈ capstone, cs.Ok) :
    ∃ starts, restartStarts image func capstone cfg = some starts := by
  unfold restartStarts
  split
  · have hlen : func.sweepLen ≤ func.size.toNat := Nat.min_le_left _ _
    exact Option.isSome_iff_exists.mp (isSome_insnStarts hcs fun _ _ ↦ by omega)
  · exact ⟨[], rfl⟩

theorem startsIn_restartStarts (hwrap : func.entry.toNat + func.size.toNat < 2 ^ 64)
    (hcs : ∀ cs ∈ capstone, cs.Ok ∧ cs.Placed) {starts : List UInt64}
    (h : restartStarts image func capstone cfg = some starts) :
    StartsIn func.entry func.size.toNat starts := by
  unfold restartStarts at h
  split at h
  · exact startsIn_insnStarts hcs hwrap h
  · rw [← Option.some.inj h]
    exact startsIn_nil _ _

theorem restarts_on {starts : List UInt64} {a : UInt64}
    (h : restartStarts image func capstone cfg = some starts) (ha : a ∈ starts) :
    cfg.blanketRestarts ≠ 0 := by
  intro hoff
  rw [restartStarts, hoff, if_neg (lt_irrefl 0)] at h
  rw [← Option.some.inj h] at ha
  exact List.not_mem_nil ha

end Starts

/-- The restarts of a seed advance whatever the engine does, and none repeats a
run of that seed as long as the forced runs execute no start that the natural
run does not.  Every engine keeps to that exactly when no branch is forced, a
run ends with its first instruction, or there is no start beside the entry. -/
theorem restarts_progress_iff (image : Image) (func : Func) (symbols : Map UInt64 String)
    (capstone : Option Disasm) (cfg : Config) (seed : UInt64)
    (hwrap : func.entry.toNat + func.size.toNat < 2 ^ 64) (hcaps : cfg.Runs)
    (hcs : ∀ cs ∈ capstone, cs.Ok ∧ cs.Placed) :
    ∃ starts, restartStarts image func capstone cfg = some starts ∧
      (∀ emulate, EntersAtStart emulate → ∀ s,
        seedRuns emulate image func symbols cfg starts seed = some s →
          Advances starts s.base s.restarts ∧ (ForcedWithin starts s → Progress starts s)) ∧
      ((∀ emulate, EntersAtStart emulate → ∀ s,
        seedRuns emulate image func symbols cfg starts seed = some s → Progress starts s) ↔
          cfg.exploreDepth = 0 ∨ cfg.instrCap ≤ 1 ∨ ∀ a ∈ starts, a = func.entry) := by
  obtain ⟨starts, hstarts⟩ := @exists_restartStarts image func capstone cfg hwrap
    fun cs hmem ↦ (hcs cs hmem).1
  have hin := startsIn_restartStarts hwrap hcs hstarts
  have hadvances : ∀ emulate, EntersAtStart emulate → ∀ s,
      seedRuns emulate image func symbols cfg starts seed = some s →
        Advances starts s.base s.restarts := fun emulate henter s h ↦
    advances_seedRuns henter hin.increasing (hin.inside_body hwrap) h
  refine ⟨starts, hstarts, fun emulate henter s h ↦ ?_, fun hall ↦ ?_, fun hcfg ↦ ?_⟩
  · have h' := hadvances emulate henter s h
    exact ⟨h', h'.progress⟩
  · by_contra hcfg
    obtain ⟨hdepth, hcap, hother⟩ : cfg.exploreDepth ≠ 0 ∧ ¬cfg.instrCap ≤ 1 ∧
        ¬∀ a ∈ starts, a = func.entry := by
      rwa [not_or, not_or] at hcfg
    obtain ⟨a, ha, hne⟩ : ∃ a ∈ starts, a ≠ func.entry := by
      by_contra hnone
      exact hother fun a ha ↦ by_contra fun hne ↦ hnone ⟨a, ha, hne⟩
    have hsize : 2 ≤ func.size.toNat := by
      have hbounds := hin.inside a ha
      have hne' : a.toNat ≠ func.entry.toNat := fun heq ↦ hne (UInt64.toNat_inj.mp heq)
      omega
    obtain ⟨emulate, henter, s, hs, hrepeated⟩ := @exists_repeated cfg image func symbols starts a
      hcaps hdepth (UInt64.not_le.mp hcap) (restarts_on hstarts ha) hwrap hsize ha hne seed
    exact hrepeated (hall emulate henter s hs)
  · intro emulate henter s h
    exact (hadvances emulate henter s h).progress (forcedWithin_of_config henter h hcfg)

/-! ## Code behind a guard -/

/-- A test that fails on the seeded input, an early return, and the guarded call. -/
def guardCode : List Insn :=
  [⟨0x401000, [0x48, 0x85, 0xff], some "test"⟩, ⟨0x401003, [0x74, 0x01], some "je"⟩,
    ⟨0x401005, [0xc3], some "ret"⟩, ⟨0x401006, [0xe8, 0xf5, 0, 0, 0], some "call"⟩,
    ⟨0x40100b, [0xc3], some "ret"⟩]

def guardImage : Image :=
  { segments := [⟨0x401000, guardCode.flatMap Insn.bytes, true, false⟩]
    entry := 0x401000, isPie := false, arch := .x86_64 }

def guardFunc : Func := ⟨none, 0x401000, 12, .symtab⟩

def guardSymbols : Map UInt64 String := AList.singleton 0x401100 "hidden_call"

/-- What the disassembler says of the body. -/
def guardDisasm : Disasm := fun bytes addr ↦
  if addr = 0x401000 ∧ bytes = guardCode.flatMap Insn.bytes then some guardCode else none

theorem guardDisasm_ok : guardDisasm.Ok ∧ guardDisasm.Placed := by
  refine ⟨fun bytes addr insns h ↦ ?_, fun bytes addr insns h ↦ ?_⟩
  · obtain ⟨⟨rfl, rfl⟩, h⟩ := Option.ite_none_right_eq_some.mp h
    rw [← Option.some.inj h]
    exact ⟨by decide, List.prefix_refl _⟩
  · obtain ⟨⟨rfl, rfl⟩, h⟩ := Option.ite_none_right_eq_some.mp h
    rw [← Option.some.inj h]
    exact ⟨rfl, rfl, rfl, rfl, rfl, trivial⟩

/-- The early return, the guarded call with the jump forced, and a restart at the call. -/
def guardRun : Emulate := fun _ force start ↦
  let call : List Callback :=
    [.code 0x401006 (.call (some 0x401100) true) 5 0 0,
      .code 0x40100b .ret 1 0 (0x5555000000000000 ^^^ 0x9e3779b97f4a7c15), .read rsp0]
  let jump : List Callback :=
    [.code 0x401000 .plain 3 0 0, .code 0x401003 (.branch (some 0x401006)) 2 0 0]
  if start = 0x401000 then
    some ⟨if force = [true] then jump ++ call
      else jump ++ [.code 0x401005 .ret 1 0 0, .read rsp0], true⟩
  else if start = 0x401006 then some ⟨call, true⟩
  else some ⟨[], false⟩

theorem entersAtStart_guardRun : EntersAtStart guardRun := by
  intro cfg force start run h a ha
  unfold guardRun at h
  dsimp only at h
  split at h
  · next heq =>
      rw [← Option.some.inj h] at ha
      rw [heq]
      dsimp only at ha
      split at ha
      · exact (Option.some.inj ha).symm
      · exact (Option.some.inj ha).symm
  · split at h
    · next heq =>
        rw [← Option.some.inj h] at ha
        rw [heq]
        exact (Option.some.inj ha).symm
    · rw [← Option.some.inj h] at ha
      cases ha

def guardConfig (depth : ℕ) : Config :=
  { Config.default with exploreDepth := depth, blanketRestarts := 4 }

theorem runs_default : Config.default.Runs := ⟨by decide, by decide, by decide⟩

theorem runs_guardConfig (depth : ℕ) : (guardConfig depth).Runs :=
  ⟨runs_default.visits, runs_default.instrs, runs_default.effects⟩

theorem restarts_progress_iff_guard :
    ∃ starts, restartStarts guardImage guardFunc (some guardDisasm) (guardConfig 0) =
      some starts ∧ ∀ emulate, EntersAtStart emulate → ∀ s,
        seedRuns emulate guardImage guardFunc guardSymbols (guardConfig 0) starts 0 = some s →
          Progress starts s := by
  obtain ⟨starts, hstarts, -, hiff⟩ := restarts_progress_iff guardImage guardFunc guardSymbols
    (some guardDisasm) (guardConfig 0) 0 (by decide) (runs_guardConfig 0)
    fun cs hmem ↦ Option.some.inj hmem ▸ guardDisasm_ok
  exact ⟨starts, hstarts, hiff.mpr (Or.inl rfl)⟩

theorem restartStarts_guard (depth : ℕ) :
    restartStarts guardImage guardFunc (some guardDisasm) (guardConfig depth) =
      some (guardCode.map Insn.address) := by
  have hstep : decodeStep (fun out insn ↦ some (out ++ [insn.address])) guardDisasm 0x401000
      (guardCode.flatMap Insn.bytes) 0 [] = some (some (guardCode.map Insn.address, 12)) := rfl
  calc restartStarts guardImage guardFunc (some guardDisasm) (guardConfig depth)
      = decodeSweep (fun out insn ↦ some (out ++ [insn.address])) guardDisasm 0x401000
          (guardCode.flatMap Insn.bytes) [] := rfl
    _ = Resync.scan 12 _ 12 (guardCode.map Insn.address) :=
        Resync.scan_of_advance (by decide) hstep (by decide)
    _ = some (guardCode.map Insn.address) := Resync.scan_of_le le_rfl _

/-- With one branch forced the call is executed, and the restart goes there again. -/
theorem restart_repeats_forced :
    EntersAtStart guardRun ∧ guardDisasm.Ok ∧ guardDisasm.Placed ∧ (guardConfig 1).Runs ∧
    guardFunc.entry.toNat + guardFunc.size.toNat < 2 ^ 64 ∧
    ∃ starts s, restartStarts guardImage guardFunc (some guardDisasm) (guardConfig 1) =
        some starts ∧
      seedRuns guardRun guardImage guardFunc guardSymbols (guardConfig 1) starts 0 = some s ∧
        ¬Progress starts s := by
  have hruns : (seedRuns guardRun guardImage guardFunc guardSymbols (guardConfig 1)
      (guardCode.map Insn.address) 0).map (fun s ↦ (s.forced.map fun run ↦ run.ran.map Prod.fst,
        s.restarts.map Restart.start)) =
      some ([[0x401000, 0x401003, 0x401006, 0x40100b]], [0x401006]) := by decide
  obtain ⟨s, hs, hfacts⟩ := Option.map_eq_some_iff.mp hruns
  obtain ⟨hforced, hrestarts⟩ := Prod.mk.inj hfacts
  obtain ⟨run, hrun, hran⟩ := List.map_eq_singleton_iff.mp hforced
  obtain ⟨x, hx, hstart⟩ := List.map_eq_singleton_iff.mp hrestarts
  refine ⟨entersAtStart_guardRun, guardDisasm_ok.1, guardDisasm_ok.2, runs_guardConfig 1,
    by decide, _, s, restartStarts_guard 1, hs, fun h ↦ ?_⟩
  have hfresh : ¬run.Executes x.start := h.unforced x (by simp [hx]) run (by simp [hrun])
  rw [RunOut.Executes, hran, hstart] at hfresh
  exact hfresh (by decide)

end Fnprint
