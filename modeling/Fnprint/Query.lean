import Fnprint.Match
import Fnprint.Rounds
import Fnprint.Triage

/-!
# Naming a target from a corpus

The query aligns the target with the named rows of a corpus and reports the
accepted pairs.
-/

namespace Fnprint

open Binary64 StableSort

/-- A function of the target with the name found for it. -/
structure Named where
  entry : UInt64
  guess : String
  fromBinary : String
  similarity : Float
  graph : Float
  score : Float

def namedCmp : Named → Named → Ordering :=
  compareLex (byKey Named.score (descending totalCmp))
    (compareLex (byKey Named.similarity (descending totalCmp)) (byKey Named.entry compare))

instance : Std.TransCmp namedCmp := inferInstanceAs (Std.TransCmp (compareLex _ _))

def recAt (recs : List FuncRec) (i : ℕ) : FuncRec := recs.getD i default

def namedOf (target : List IndexedFunc) (recs : List FuncRec) (p : Pair) : Named :=
  { entry := (funcAt target p.a).entry
    guess := (recAt recs p.b).name.getD ""
    fromBinary := (recAt recs p.b).binary
    similarity := p.sim
    graph := p.graph
    score := p.score }

def queryCorpus (target : List IndexedFunc) (corpus : Corpus) (threshold graphWeight : Float) :
    Except String (List Named) := do
  let all ← corpus.all
  let recs := all.filter fun r ↦ r.name.isSome
  let pairs := align (target.map Node.fromIndexed) (recs.map Node.fromRec)
    { threshold := threshold, graphWeight := graphWeight, rounds := 2 }
  return sortBy namedCmp (pairs.map (namedOf target recs))

theorem queryCorpus_filter_threshold (target : List IndexedFunc) (corpus : Corpus)
    (graphWeight : Float) {t₁ t₂ : Float} (h : t₁ ≤ t₂) :
    queryCorpus target corpus t₂ graphWeight =
      (queryCorpus target corpus t₁ graphWeight).map (List.filter fun n ↦ t₂ ≤ n.score) := by
  unfold queryCorpus
  cases corpus.all with
  | error e => rfl
  | ok all =>
      have hrows (recs : List FuncRec) :
          (align (target.map Node.fromIndexed) (recs.map Node.fromRec)
            ⟨t₂, graphWeight, 2⟩).map (namedOf target recs) =
          ((align (target.map Node.fromIndexed) (recs.map Node.fromRec)
            ⟨t₁, graphWeight, 2⟩).map (namedOf target recs)).filter fun n ↦ t₂ ≤ n.score := by
        rw [align_filter_threshold _ _ _ _ h, List.filter_map]
        rfl
      change Except.ok _ = Except.ok _
      rw [filter_sortBy, ← hrows]

/-- Raising the threshold only removes rows, of an alignment and of a query. -/
theorem raising_threshold (graphWeight : Float) {t₁ t₂ : Float} (h : t₁ ≤ t₂) :
    (∀ a b rounds, align a b ⟨t₂, graphWeight, rounds⟩ =
      (align a b ⟨t₁, graphWeight, rounds⟩).filter fun p ↦ t₂ ≤ p.score) ∧
    ∀ target corpus, queryCorpus target corpus t₂ graphWeight =
      (queryCorpus target corpus t₁ graphWeight).map (List.filter fun n ↦ t₂ ≤ n.score) :=
  ⟨fun a b rounds ↦ align_filter_threshold a b graphWeight rounds h,
    fun target corpus ↦ queryCorpus_filter_threshold target corpus graphWeight h⟩

/-- A function of the target that is a named row of the corpus. -/
def strayFunc : IndexedFunc := ⟨none, 0x40, .ehFrame, constPrint 7, 1.0, []⟩

def strayRow : FuncRec := ⟨1, "lib", some "f", 0x10, "symtab", constPrint 7, []⟩

theorem raising_threshold_named :
    queryCorpus [strayFunc] (MemCorpus.fromRecords [strayRow]).toCorpus 0.7 1.0 =
      (queryCorpus [strayFunc] (MemCorpus.fromRecords [strayRow]).toCorpus 0.45 1.0).map
        (List.filter fun n ↦ 0.7 ≤ n.score) :=
  (raising_threshold 1.0 (by decide)).2 _ _

end Fnprint
