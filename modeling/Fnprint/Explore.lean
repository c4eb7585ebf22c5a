import Fnprint.Lib.Binary32
import Fnprint.Recorder
import Fnprint.Sweep

/-!
# Runs and explored paths

What one run reports, and the runs of a function for every seed: the natural
one, those with a branch forced, and restarts at instructions nothing reached.
The engine is a parameter.  Beside each trace stand the instructions that ran,
which the code does not keep.
-/

namespace Fnprint

open KeyMap Checked Binary32

/-! ## One run -/

/-- How an emulation went: the callbacks it fired, and whether it stopped at
the return sentinel without an error. -/
structure Emulation where
  callbacks : List Callback
  clean : Bool

/-- What the engine does with a body, by configuration, plan of forced branches
and start address; nothing when the setup fails. -/
abbrev Emulate := Config → List Bool → UInt64 → Option Emulation

/-- An instruction, by address and decoded length. -/
abbrev Ran := UInt64 × UInt64

structure RunOut where
  trace : EffectTrace
  dirs : List Bool
  covered : Map UInt64 UInt64
  ran : List Ran

namespace Rec

/-- The instruction a callback lets run: one that no cap stops. -/
def begins (r : Rec) : Callback → Option Ran
  | .code addr _ ilen _ _ => do
      let instret ← add64 r.instret 1
      let visits ← add32 ((r.visits.lookup addr).getD 0) 1
      if r.overCaps instret visits then none else some (addr, ilen)
  | _ => none

end Rec

/-- The instructions a run of callbacks executes. -/
def executed : Rec → List Callback → List Ran
  | _, [] => []
  | r, c :: callbacks =>
      match r.step c with
      | none => []
      | some (r', _) => (r.begins c).toList ++ executed r' callbacks

/-- The share of its own code bytes a function has executed. -/
def coverageOf (coveredBytes size : UInt64) : Float32 :=
  if size = 0 then 1.0
  else clamp (natCast coveredBytes.toNat / natCast size.toNat) 0.0 1.0

/-- What a run reports; one that did not end cleanly is capped. -/
def Rec.finish (r : Rec) (size : UInt64) (clean : Bool) (ran : List Ran) : RunOut :=
  let r := r.cap (r.cfg.instrCap ≤ r.instret)
  let r := r.cap (!clean)
  { trace :=
      { effects := if r.capped then r.effects ++ [.capped] else r.effects
        instret := r.instret
        capped := r.capped
        coverage := coverageOf r.coveredBytes size
        callees := r.callees.sort }
    dirs := r.naturalDirs
    covered := r.covered
    ran := ran }

/-- A run that blew up is still a short, capped signature. -/
def RunOut.failed : RunOut :=
  { trace := { effects := [.capped], instret := 0, capped := true, coverage := 0.0, callees := [] }
    dirs := []
    covered := ∅
    ran := [] }

section Explore

variable (emulate : Emulate) (image : Image) (func : Func) (symbols : Map UInt64 String)

def runFrom (cfg : Config) (force : List Bool) (start : UInt64) : Option RunOut :=
  match emulate cfg force start with
  | none => some RunOut.failed
  | some run => do
      let (r, _) ← record cfg image func symbols force run.callbacks
      return r.finish func.size run.clean
        (executed (Rec.start cfg image func symbols force) run.callbacks)

/-! ## Blanket restarts -/

def blanketEnough : Float32 := 0.9

def bodySize : UInt64 := max func.size 1

/-- The lengths of a map of instructions, added without overflow. -/
def sumBytes (covered : Map UInt64 UInt64) : Option UInt64 :=
  covered.entries.foldlM (fun n e ↦ add64 n e.2) 0

/-- The first instruction nobody executed yet, unless enough is covered. -/
def restartAt (starts : List UInt64) (covered : Map UInt64 UInt64) : Option (Option UInt64) := do
  let coveredBytes ← sumBytes covered
  if blanketEnough ≤ natCast coveredBytes.toNat / natCast (bodySize func).toNat then return none
  else return starts.find? fun a ↦ (covered.lookup a).isNone

/-- The union of what was covered; a restart that ran nothing new is marked. -/
def absorb (covered : Map UInt64 UInt64) (start : UInt64) (more : Map UInt64 UInt64) :
    Map UInt64 UInt64 :=
  let merged := more ∪ covered
  if merged.keys.length = covered.keys.length then merged.insert start 0 else merged

/-- The calls and syscalls survive a restart, the rest is noise. -/
def survives : Effect → Bool
  | .call (.sym _) | .syscall _ | .capped => true
  | _ => false

/-- A trace, and the instructions of the runs it reports on. -/
structure Explored where
  trace : EffectTrace
  ran : List Ran

def RunOut.explored (run : RunOut) : Explored := { trace := run.trace, ran := run.ran }

/-- A restart reports the coverage of all runs of its seed so far. -/
def blanket (cfg : Config) (starts : List UInt64) :
    ℕ → Map UInt64 UInt64 → List Ran → List Explored → Option (List Explored)
  | 0, _, _, out => some out
  | n + 1, covered, ran, out => do
      match ← restartAt func starts covered with
      | none => return out
      | some start =>
          let run ← runFrom emulate image func symbols cfg [] start
          let covered := absorb covered start run.covered
          let ran := ran ++ run.ran
          let coveredBytes ← sumBytes covered
          let trace := { run.trace with
            coverage := clamp (natCast coveredBytes.toNat / natCast (bodySize func).toNat) 0.0 1.0
            effects := run.trace.effects.filter survives }
          blanket cfg starts n covered ran (out ++ [{ trace := trace, ran := ran }])

/-! ## Exploration -/

/-- The natural path up to a branch, then the other way. -/
def forcePlan (dirs : List Bool) (i : ℕ) : List Bool := dirs.take i ++ [!dirs.getD i false]

/-- The runs of one seed. -/
def exploreSeed (cfg : Config) (starts : List UInt64) (out : List Explored) (seed : UInt64) :
    Option (List Explored) := do
  let cfg := { cfg with seed := seed }
  let base ← runFrom emulate image func symbols cfg [] func.entry
  let depth := min base.dirs.length cfg.exploreDepth
  let forced ← (List.range depth).mapM fun i ↦
    runFrom emulate image func symbols cfg (forcePlan base.dirs i) func.entry
  blanket emulate image func symbols cfg starts cfg.blanketRestarts base.covered
    (base.ran ++ forced.flatMap RunOut.ran) (out ++ (base :: forced).map RunOut.explored)

/-- The instruction starts of the body, swept only if restarts are on. -/
def restartStarts (capstone : Option Disasm) (cfg : Config) : Option (List UInt64) :=
  if 0 < cfg.blanketRestarts then insnStarts capstone image func else some []

def explore (capstone : Option Disasm) (cfg : Config) (seeds : List UInt64) :
    Option (List Explored) := do
  let starts ← restartStarts image func capstone cfg
  seeds.foldlM (exploreSeed emulate image func symbols cfg starts) []

def runExplore (capstone : Option Disasm) (cfg : Config) (seeds : List UInt64) :
    Option (List EffectTrace) :=
  (explore emulate image func symbols capstone cfg seeds).map (List.map Explored.trace)

end Explore

end Fnprint
