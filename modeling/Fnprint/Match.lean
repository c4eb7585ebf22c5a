import Fnprint.Align

/-!
# Diffing two indexes

The diff by symbol name, the diff by alignment for builds without names, and
the choice between them.
-/

namespace Fnprint

open Binary64 StableSort KeyMap

/-- At or above this similarity a pair is unchanged. -/
def sameThresh : Float := 0.88

structure Changed where
  name : String
  similarity : Float
  entryA : Option UInt64
  entryB : Option UInt64

structure MatchReport where
  same : ℕ
  changed : List Changed
  onlyA : List String
  onlyB : List String
  compared : ℕ
  /-- in both builds, but with too little signal to judge -/
  lowSignal : ℕ

def MatchReport.default : MatchReport := ⟨0, [], [], [], 0, 0⟩

def changedCmp : Changed → Changed → Ordering :=
  compareLex (byKey Changed.similarity totalCmp) (byKey Changed.name compare)

/-- The lists of a report in their reading order. -/
def MatchReport.sorted (rep : MatchReport) : MatchReport :=
  { rep with
    changed := sortBy changedCmp rep.changed
    onlyA := sortBy compare rep.onlyA
    onlyB := sortBy compare rep.onlyB }

def funcAt (l : List IndexedFunc) (i : ℕ) : IndexedFunc := l.getD i default

/-! ## By name -/

/-- The functions by name; the last function with a name holds it. -/
def nameMap (l : List IndexedFunc) : Map String ℕ := indexByOpt IndexedFunc.name l

/-- What the first loop does with an entry of the name map of `a`. -/
inductive Visit where
  | compared (name : String) (i j : ℕ)
  | onlyA (name : String) (i : ℕ)

def visit (bmap : Map String ℕ) (entry : Sigma fun _ : String ↦ ℕ) : Visit :=
  match bmap.lookup entry.1 with
  | some j => .compared entry.1 entry.2 j
  | none => .onlyA entry.1 entry.2

def visits (a b : List IndexedFunc) : List Visit := (nameMap a).entries.map (visit (nameMap b))

/-- The names of `b` that `a` does not have, with their functions. -/
def unmatchedB (a b : List IndexedFunc) : List (Sigma fun _ : String ↦ ℕ) :=
  (nameMap b).entries.filter fun entry ↦ ((nameMap a).lookup entry.1).isNone

def tally (a b : List IndexedFunc) (rep : MatchReport) : Visit → MatchReport
  | .compared name i j =>
      let fa := funcAt a i
      let fb := funcAt b j
      let rep := { rep with compared := rep.compared + 1 }
      if fa.fp.complexity < minComplexity || fb.fp.complexity < minComplexity then
        { rep with lowSignal := rep.lowSignal + 1 }
      else
        let sim := fa.fp.similarity fb.fp
        if sameThresh ≤ sim then { rep with same := rep.same + 1 }
        else
          { rep with changed := rep.changed ++ [⟨name, sim, some fa.entry, some fb.entry⟩] }
  | .onlyA name _ => { rep with onlyA := rep.onlyA ++ [name] }

def matchByName (a b : List IndexedFunc) : MatchReport :=
  let rep := (visits a b).foldl (tally a b) MatchReport.default
  MatchReport.sorted { rep with onlyB := (unmatchedB a b).map fun entry ↦ entry.1 }

/-- Both sides carry symbol names. -/
def bothNamed (a b : List IndexedFunc) : Bool :=
  0 < a.countP (fun f ↦ f.name.isSome) && 0 < b.countP fun f ↦ f.name.isSome

/-! ## By alignment -/

/-- How a changed pair is called. -/
def pairLabel (f g : IndexedFunc) : String :=
  match f.name, g.name with
  | some x, some y => if x = y then x else x ++ " -> " ++ y
  | some x, none => x
  | none, some y => y
  | none, none => hex f.entry ++ " -> " ++ hex g.entry

def label (f : IndexedFunc) : String := f.name.getD (hex f.entry)

def readPair (a b : List IndexedFunc) (rep : MatchReport) (p : Pair) : MatchReport :=
  let rep := { rep with compared := rep.compared + 1 }
  if sameThresh ≤ p.sim then { rep with same := rep.same + 1 }
  else
    let f := funcAt a p.a
    let g := funcAt b p.b
    { rep with changed := rep.changed ++ [⟨pairLabel f g, p.sim, some f.entry, some g.entry⟩] }

/-- The usable functions that found no partner. -/
def unpaired (l : List IndexedFunc) (paired : List Bool) : List IndexedFunc :=
  (l.zipIdx.filter fun p ↦ !paired.getD p.2 false && usable p.1.fp).map Prod.fst

def matchAligned (a b : List IndexedFunc) (graphWeight : Float) : MatchReport :=
  let pairs := align (a.map Node.fromIndexed) (b.map Node.fromIndexed)
    { threshold := 0.45, graphWeight := graphWeight, rounds := 2 }
  let aPaired := fill a.length false (pairs.map fun p ↦ (p.a, true))
  let bPaired := fill b.length false (pairs.map fun p ↦ (p.b, true))
  let rep := pairs.foldl (readPair a b) MatchReport.default
  MatchReport.sorted
    { rep with
      onlyA := (unpaired a aPaired).map label
      onlyB := (unpaired b bPaired).map label
      lowSignal := a.countP fun f ↦ lowSignal f.fp }

/-- The report of a diff: by name when both sides have symbols, unless forced. -/
def matchReport (forceAlign : Bool) (a b : List IndexedFunc) (graphWeight : Float) : MatchReport :=
  if forceAlign || !bothNamed a b then matchAligned a b graphWeight else matchByName a b

end Fnprint
