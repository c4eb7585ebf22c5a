import Fnprint.Lib.Search
import Fnprint.Index
import Fnprint.Similarity

/-!
# Alignment

A function set is aligned one-to-one with another: candidate pairs from the
band index, a greedy assignment best pair first, and rounds in which the call
graph of the last assignment is added to the scores.
-/

namespace Fnprint

open Binary64 StableSort KeyMap Search

/-- One side of an alignment; callee entries mean something inside `group` only. -/
structure Node where
  fp : Fingerprint
  entry : UInt64
  callees : List UInt64
  name : Option String
  group : String
  deriving DecidableEq, Inhabited

namespace Node

def fromIndexed (f : IndexedFunc) : Node :=
  { fp := f.fp, entry := f.entry, callees := f.callees, name := f.name, group := "" }

def fromRec (r : FuncRec) : Node :=
  { fp := r.fp, entry := r.entry, callees := r.callees, name := r.name, group := r.binary }

end Node

structure Opts where
  threshold : Float
  graphWeight : Float
  rounds : ℕ

/-- The default weight of a consistent neighbourhood. -/
def defaultGraphWeight : Float := 1.0

def Opts.default : Opts := { threshold := 0.7, graphWeight := defaultGraphWeight, rounds := 2 }

/-- Pairs less similar than this are never candidates. -/
def floor : Float := 0.2

structure Pair where
  a : ℕ
  b : ℕ
  sim : Float
  graph : Float
  score : Float

/-- The derived equality compares the floats as floats. -/
instance : BEq Pair where
  beq p q := p.a == q.a && p.b == q.b && p.sim == q.sim && p.graph == q.graph && p.score == q.score

structure Cand where
  a : ℕ
  b : ℕ
  sim : Float
  graph : Float

def usable (fp : Fingerprint) : Bool := minComplexity ≤ fp.complexity && 0 < fp.shingles

/-! ## Candidates -/

def nodeAt (nodes : List Node) (i : ℕ) : Node := nodes.getD i default

def usableNodes (nodes : List Node) : List (Node × ℕ) :=
  nodes.zipIdx.filter fun p ↦ usable p.1.fp

/-- The usable positions. -/
def usableIdx (nodes : List Node) : List ℕ := (usableNodes nodes).map Prod.snd

/-- The positions of `b` that fall into a bucket of a print, in order. -/
def seen (b : List Node) (fp : Fingerprint) : List ℕ :=
  sortDedup compare (bandHits (bandIndex ((usableNodes b).map fun p ↦ (p.1.fp, p.2))) fp)

/-- The positions a target is compared with: all of them when no band hits. -/
def pool (b : List Node) (n : Node) : List ℕ :=
  if (seen b n.fp).isEmpty then usableIdx b else seen b n.fp

def candidatesFrom (pool : Node → List ℕ) (a b : List Node) : List Cand :=
  (usableNodes a).flatMap fun p ↦
    (pool p.1).filterMap fun j ↦
      let sim := p.1.fp.similarity (nodeAt b j).fp
      if floor ≤ sim then some { a := p.2, b := j, sim := sim, graph := 0.0 } else none

/-! ## Neighbours -/

def aIdx (a : List Node) : Map UInt64 ℕ := indexBy Node.entry a

def bIdx (b : List Node) : Map (String × UInt64) ℕ := indexBy (fun n ↦ (n.group, n.entry)) b

def aCallees (a : List Node) : List (List ℕ) :=
  a.map fun n ↦ n.callees.filterMap (aIdx a).lookup

def bCallees (b : List Node) : List (List ℕ) :=
  b.map fun n ↦ n.callees.filterMap fun e ↦ (bIdx b).lookup (n.group, e)

def reverse (callees : List (List ℕ)) (n : ℕ) : List (List ℕ) :=
  let callers := callees.zipIdx.foldl
    (fun callers p ↦ p.1.foldl (fun callers c ↦ callers.modify c (· ++ [p.2])) callers)
    (List.replicate n [])
  callers.map (sortDedup compare)

/-- The neighbour lists of both sides. -/
structure Graph where
  aCallees : List (List ℕ)
  aCallers : List (List ℕ)
  bCallees : List (List ℕ)
  bCallers : List (List ℕ)

def graphOf (a b : List Node) : Graph :=
  { aCallees := aCallees a
    aCallers := reverse (aCallees a) a.length
    bCallees := bCallees b
    bCallers := reverse (bCallees b) b.length }

/-! ## The graph score -/

/-- The partner of every position of `a` under an assignment. -/
def partners (n : ℕ) (assign : List Pair) : List (Option ℕ) :=
  fill n none (assign.map fun p ↦ (p.a, some p.b))

/-- Which positions of `b` have a partner. -/
def pairedB (n : ℕ) (assign : List Pair) : List Bool :=
  fill n false (assign.map fun p ↦ (p.b, true))

/-- How many neighbours have a partner that the search finds on the other side. -/
def hits (partner : List (Option ℕ)) (ours theirs : List ℕ) : ℕ :=
  ours.countP fun x ↦
    match partner.getD x none with
    | some y => (binarySearch theirs y).isSome
    | none => false

def graphScore (m n : ℕ) (partner : List (Option ℕ)) (bPaired : List Bool) (g : Graph) : Float :=
  let aCs := g.aCallees.getD m []
  let aRs := g.aCallers.getD m []
  let bCs := g.bCallees.getD n []
  let bRs := g.bCallers.getD n []
  let na := aCs.countP (fun x ↦ (partner.getD x none).isSome) +
    aRs.countP fun x ↦ (partner.getD x none).isSome
  let nb := bCs.countP (fun y ↦ bPaired.getD y false) + bRs.countP fun y ↦ bPaired.getD y false
  if na + nb = 0 then 0.0
  else natCast (2 * (hits partner aCs bCs + hits partner aRs bRs)) / natCast (na + nb)

/-! ## The assignment -/

def rankOf (w : Float) (c : Cand) : Float := c.sim + w * c.graph

/-- Best first; ties by similarity, then the entry of `a`, then the group and
the entry of `b`. -/
def candCmp (a b : List Node) (w : Float) : Cand → Cand → Ordering :=
  compareLex (byKey (rankOf w) (descending totalCmp))
    (compareLex (byKey Cand.sim (descending totalCmp))
      (compareLex (byKey (fun c ↦ (nodeAt a c.a).entry) compare)
        (compareLex (byKey (fun c ↦ (nodeAt b c.b).group) compare)
          (byKey (fun c ↦ (nodeAt b c.b).entry) compare))))

def toPair (w : Float) (c : Cand) : Pair :=
  { a := c.a, b := c.b, sim := c.sim, graph := c.graph, score := minNum (rankOf w c) 1.0 }

/-- What is claimed so far, and the pairs made. -/
structure Claims where
  aTaken : List Bool
  bTaken : List Bool
  out : List Pair

/-- One candidate: each side is claimed once. -/
def claim (w : Float) (s : Claims) (c : Cand) : Claims :=
  if s.aTaken.getD c.a false || s.bTaken.getD c.b false then s
  else
    { aTaken := s.aTaken.set c.a true
      bTaken := s.bTaken.set c.b true
      out := s.out ++ [toPair w c] }

/-- The candidates in their new order, and the assignment read off them. -/
def assignGreedy (cands : List Cand) (a b : List Node) (w : Float) : List Cand × List Pair :=
  let cands := sortBy (candCmp a b w) cands
  let s := cands.foldl (claim w)
    { aTaken := List.replicate a.length false, bTaken := List.replicate b.length false, out := [] }
  (cands, sortBy (byKey Pair.a compare) s.out)

/-- The candidates with the graph scores of an assignment. -/
def regraph (a b : List Node) (assign : List Pair) (cands : List Cand) : List Cand :=
  let partner := partners a.length assign
  let bPaired := pairedB b.length assign
  let g := graphOf a b
  cands.map fun c ↦ { c with graph := graphScore c.a c.b partner bPaired g }

/-- Re-score and re-assign until nothing moves or the rounds are used up. -/
def propagate (a b : List Node) (w : Float) : ℕ → List Cand → List Pair → List Pair
  | 0, _, assign => assign
  | rounds + 1, cands, assign =>
      let (cands, next) := assignGreedy (regraph a b assign cands) a b w
      if next == assign then next else propagate a b w rounds cands next

/-- The accepted pairs, by descending score. -/
def acceptCmp (a : List Node) : Pair → Pair → Ordering :=
  compareLex (byKey Pair.score (descending totalCmp))
    (compareLex (byKey Pair.sim (descending totalCmp))
      (byKey (fun p ↦ (nodeAt a p.a).entry) compare))

def weight (opts : Opts) : Float := maxNum opts.graphWeight 0.0

/-- The alignment over a given candidate pool. -/
def alignFrom (cands : List Cand) (a b : List Node) (opts : Opts) : List Pair :=
  let w := weight opts
  let rounds := if 0.0 < w then opts.rounds else 0
  let (cands, assign) := assignGreedy cands a b w
  let assign := propagate a b w rounds cands assign
  sortBy (acceptCmp a) (assign.filter fun p ↦ opts.threshold ≤ p.score)

def align (a b : List Node) (opts : Opts) : List Pair :=
  alignFrom (candidatesFrom (pool b) a b) a b opts

end Fnprint
