import Fnprint.Index
import Fnprint.Similarity

/-!
# Triage

The best named function of a corpus for one print, and the review queue that
ranks a target's functions against a known-vulnerable and a known-patched
corpus.
-/

namespace Fnprint

open Binary64 StableSort

/-- A similarity with the name and the binary it was found under. -/
abbrev Best := Float × String × String

/-- The total tie-break: on equal similarity the smaller (name, binary) wins. -/
def better (best : Option Best) (sim : Float) (name binary : String) : Bool :=
  match best with
  | none => true
  | some (s, bn, bb) =>
      s < sim || (sim == s && (compare name bn).then (compare binary bb) == .lt)

def scanStep (fp : Fingerprint) (best : Option Best) (c : FuncRec) : Option Best :=
  if c.fp.complexity < minComplexity then best
  else
    match c.name with
    | none => best
    | some name =>
        let sim := fp.similarity c.fp
        if better best sim name c.binary then some (sim, name, c.binary) else best

/-- The best row of a pool. -/
def scan (fp : Fingerprint) (pool : List FuncRec) : Option Best := pool.foldl (scanStep fp) none

/-- Narrow by the bands first; fall back to the preloaded pool if no band hit. -/
def bestInCorpus (fp : Fingerprint) (db : Corpus) (all : List FuncRec) :
    Except String (Option Best) := do
  let cands ← db.candidates fp
  return scan fp (if cands.isEmpty then all else cands)

inductive Verdict where
  | vulnerable
  | patched
  | inconclusive
  deriving DecidableEq, Repr

structure TriageHit where
  entry : UInt64
  verdict : Verdict
  vulnSim : Float
  vulnName : String
  patchedSim : Float
  patchedName : String
  coverage : Float32
  deriving DecidableEq

/-- Vulnerable leads on top of the review queue, patched ones at the bottom. -/
def verdictOrder : Verdict → ℕ
  | .vulnerable => 0
  | .inconclusive => 1
  | .patched => 2

def verdictOf (minSim margin vulnSim patchedSim : Float) : Verdict :=
  if maxNum vulnSim patchedSim < minSim then .inconclusive
  else if margin ≤ vulnSim - patchedSim then .vulnerable
  else if margin ≤ patchedSim - vulnSim then .patched
  else .inconclusive

/-- The best of one side for every target function with signal. -/
def triageSide (target : List IndexedFunc) (db : Corpus) :
    Except String (List (Option (Float × String))) := do
  let all ← db.all
  let recs := all.filter fun r ↦ r.name.isSome
  target.mapM fun f ↦
    if lowSignal f.fp then .ok none
    else do
      let best ← bestInCorpus f.fp db recs
      return best.map fun b ↦ (b.1, b.2.1)

def hitOf (minSim margin : Float) (f : IndexedFunc) (v pt : Option (Float × String)) : TriageHit :=
  let (vulnSim, vulnName) := v.getD (0.0, "")
  let (patchedSim, patchedName) := pt.getD (0.0, "")
  { entry := f.entry
    verdict := verdictOf minSim margin vulnSim patchedSim
    vulnSim := vulnSim
    vulnName := vulnName
    patchedSim := patchedSim
    patchedName := patchedName
    coverage := f.coverage }

/-- The order of the review queue. -/
def hitCmp : TriageHit → TriageHit → Ordering :=
  compareLex (byKey (fun h ↦ verdictOrder h.verdict) compare)
    (compareLex (byKey TriageHit.vulnSim (descending totalCmp)) (byKey TriageHit.entry compare))

def triage (target : List IndexedFunc) (vuln patched : Corpus) (minSim margin : Float) :
    Except String (List TriageHit) := do
  let v ← triageSide target vuln
  let pt ← triageSide target patched
  let out := (target.zip (v.zip pt)).filterMap fun (f, v, pt) ↦
    if lowSignal f.fp then none else some (hitOf minSim margin f v pt)
  return sortBy hitCmp out

end Fnprint
