import Fnprint.Match

/-!
# Evaluation

Every function of one index that carries signal and has a twin of the same name
is ranked against the other index, the symbol names being the ground truth.  The
aligned view scores the partner an alignment gives it.
-/

namespace Fnprint

open Binary64 StableSort KeyMap

structure EvalResult where
  /-- functions with signal and a twin of the same name -/
  scored : ℕ
  /-- the top match is the twin -/
  rank1 : ℕ
  /-- the sum of the reciprocal ranks of the twins -/
  rrSum : Float
  tp : ℕ
  fp : ℕ
  /-- twins not called the same -/
  fn_ : ℕ
  ranks : List ℕ
  /-- the top similarity was too low to call -/
  abstained : ℕ
  alignCorrect : ℕ
  alignPaired : ℕ
  alignTp : ℕ
  alignFp : ℕ

namespace EvalResult

def zero : EvalResult := ⟨0, 0, 0.0, 0, 0, 0, [], 0, 0, 0, 0, 0⟩

/-- The place of the twin among the ranked names, counted from one. -/
def countRank (res : EvalResult) (aname : String) (ranked : List (Float × String)) : EvalResult :=
  match ranked.findIdx? fun s ↦ s.2 == aname with
  | some pos =>
      { res with
        rrSum := res.rrSum + 1.0 / (natCast pos + 1.0)
        ranks := res.ranks ++ [pos + 1] }
  | none => res

/-- Precision and recall of the call on the top match. -/
def countCall (res : EvalResult) (predictedSame correct : Bool) : EvalResult :=
  let res := if predictedSame then res else { res with abstained := res.abstained + 1 }
  match predictedSame, correct with
  | true, true => { res with tp := res.tp + 1 }
  | true, false => { res with fp := res.fp + 1 }
  | false, true => { res with fn_ := res.fn_ + 1 }
  | false, false => res

/-- One scored function, by the names ranked for it. -/
def countScored (res : EvalResult) (aname : String) (top : Float × String)
    (ranked : List (Float × String)) : EvalResult :=
  let res := { res with scored := res.scored + 1 }
  let res := if top.2 = aname then { res with rank1 := res.rank1 + 1 } else res
  (res.countRank aname ranked).countCall (sameThresh ≤ top.1) (top.2 == aname)

/-- The partner of a scored function. -/
def countPartner (res : EvalResult) (aname : String) (b : List IndexedFunc) :
    Option Pair → EvalResult
  | none => res
  | some p =>
      let res := { res with alignPaired := res.alignPaired + 1 }
      let right := (funcAt b p.b).name == some aname
      let res := if right then { res with alignCorrect := res.alignCorrect + 1 } else res
      if sameThresh ≤ p.score then
        if right then { res with alignTp := res.alignTp + 1 }
        else { res with alignFp := res.alignFp + 1 }
      else res

end EvalResult

/-- The functions a name can be ranked among. -/
def signalNamed (b : List IndexedFunc) : List IndexedFunc :=
  b.filter fun f ↦ usable f.fp && f.name.isSome

/-- The names of `b` by falling similarity. -/
def rankNames (bsig : List IndexedFunc) (fp : Fingerprint) : List (Float × String) :=
  sortBy (byKey Prod.fst (descending totalCmp))
    (bsig.filterMap fun f ↦ f.name.map fun n ↦ (fp.similarity f.fp, n))

def evalStep (bsig b : List IndexedFunc) (partner : Map ℕ Pair) (res : EvalResult)
    (p : IndexedFunc × ℕ) : EvalResult :=
  if lowSignal p.1.fp then res
  else
    match p.1.name with
    | none => res
    | some aname =>
        if bsig.any fun f ↦ f.name == some aname then
          match rankNames bsig p.1.fp with
          | [] => res
          | top :: rest =>
              (res.countScored aname top (top :: rest)).countPartner aname b (partner.lookup p.2)
        else res

/-- Rank every function of `a` that carries signal against all of `b`. -/
def eval (a b : List IndexedFunc) (graphWeight : Float) : EvalResult :=
  let pairs := align (a.map Node.fromIndexed) (b.map Node.fromIndexed)
    { threshold := 0.2, graphWeight := graphWeight, rounds := 2 }
  let partner := collect (pairs.map fun p ↦ (p.a, p))
  a.zipIdx.foldl (evalStep (signalNamed b) b partner) EvalResult.zero

end Fnprint
