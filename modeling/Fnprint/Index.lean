import Fnprint.Lib.Sharding
import Fnprint.Loader
import Fnprint.Sig

/-!
# Indexing a binary

Every discovered function is executed and fingerprinted; its call-graph edges
are the direct callees and the import names that are defined in the image.
The emulator is a parameter: a function of the image, the body of the function
and the import map.
-/

namespace Fnprint

open StableSort KeyMap Sharding

/-- Below this a match is not trusted: thunks and tiny leaves look alike. -/
def minComplexity : UInt32 := 4

/-- Too little behaviour to judge. -/
def lowSignal (fp : Fingerprint) : Bool := fp.complexity < minComplexity || fp.shingles == 0

/-- The fixed seeds of a function's runs. -/
def seeds : List UInt64 := [0, 0x9e3779b9, 0x12345678, 0xdeadbeef]

structure IndexedFunc where
  name : Option String
  entry : UInt64
  source : FuncSource
  fp : Fingerprint
  coverage : Float32
  callees : List UInt64
  deriving DecidableEq

instance : Inhabited IndexedFunc := ⟨⟨none, 0, .symtab, default, 1.0, []⟩⟩

def sourceStr : FuncSource → String
  | .symtab => "symtab"
  | .dynSym => "dynsym"
  | .ehFrame => "eh_frame"

/-- A configured emulator: the runs of a body over the seeds, and its static
call sweep (direct targets and import names). -/
structure Emulator where
  runExplore : Image → UInt64 → UInt64 → Map UInt64 String → List UInt64 → List EffectTrace
  staticCalls : Image → UInt64 → UInt64 → Map UInt64 String → List UInt64 × List String

/-- The larger of two single-precision numbers; a NaN gives way. -/
def maxNum32 (x y : Float32) : Float32 :=
  if x.isNaN then y else if y.isNaN then x else if x < y then y else x

/-- The entry of a name defined in the image; the last function named so wins. -/
def localByName (funcs : List Func) : Map String UInt64 :=
  collect (funcs.filterMap fun f ↦ f.name.map fun n ↦ (n, f.entry))

/-- The import names a run called. -/
def dynNames (t : EffectTrace) : List String :=
  t.effects.filterMap fun
    | .call (.sym n) => some n
    | _ => none

/-- The call-graph edges of a function: sorted, distinct, never to itself. -/
def calleesOf (locals : Map String UInt64) (entry : UInt64) (direct : List UInt64)
    (names : List String) : List UInt64 :=
  sortDedup compare ((direct ++ names.filterMap locals.lookup).filter (· != entry))

/-- What the emulator reports of a function of a loaded image. -/
def tracesOf (e : Emulator) (l : Loaded) (f : Func) : List EffectTrace :=
  e.runExplore l.image f.entry f.size l.imports seeds

/-- The direct callees, static and executed. -/
def directCallees (e : Emulator) (l : Loaded) (f : Func) : List UInt64 :=
  (e.staticCalls l.image f.entry f.size l.imports).1 ++
    (tracesOf e l f).flatMap EffectTrace.callees

/-- The import names called, statically and in a run. -/
def importNames (e : Emulator) (l : Loaded) (f : Func) : List String :=
  (e.staticCalls l.image f.entry f.size l.imports).2 ++ (tracesOf e l f).flatMap dynNames

/-- A function with code is printed; the others are left out. -/
def indexFunc (e : Emulator) (l : Loaded) (f : Func) : Option IndexedFunc :=
  if 0 < f.size ∧ (l.image.codeAt f.entry 1).isSome then
    some
      { name := f.name
        entry := f.entry
        source := f.source
        fp := Fingerprint.fromTraces (tracesOf e l f)
        coverage := ((tracesOf e l f).map EffectTrace.coverage).foldl maxNum32 0.0
        callees := calleesOf (localByName l.funcs) f.entry (directCallees e l f)
          (importNames e l f) }
  else none

/-- One shard of a function list, by position; the outcome of a function never
depends on the others. -/
def indexShard (outcome : Func → Option IndexedFunc) (funcs : List Func)
    (shardIdx shardCount : ℕ) : List IndexedFunc :=
  let shardCount := max shardCount 1
  let shardIdx := min shardIdx (shardCount - 1)
  (shard shardCount shardIdx funcs).filterMap outcome

theorem pairwise_sortFuncs (funcs : List Func) :
    (sortFuncs funcs).Pairwise fun f g ↦ f.entry < g.entry := by
  have hsorted : (sortBy funcCmp funcs).Pairwise (Le (byKey Func.entry compare)) := by
    refine (pairwise_sortBy funcCmp funcs).imp fun h ↦ ?_
    rcases compareLex_isLE_iff.mp h with h | ⟨h, -⟩
    · simp [Le, h]
    · simp [Le, h]
  exact (pairwise_dedupBy Func.entry compare hsorted).imp fun h ↦
    Std.compare_eq_lt.mp h

theorem pairwise_filterMap_outcome {outcome : Func → Option IndexedFunc}
    (hentry : ∀ f g, outcome f = some g → g.entry = f.entry) {funcs : List Func}
    (hfuncs : funcs.Pairwise fun f g ↦ f.entry < g.entry) :
    (funcs.filterMap outcome).Pairwise fun f g ↦ f.entry < g.entry := by
  rw [List.pairwise_filterMap]
  refine hfuncs.imp fun {f f'} hlt g hg g' hg' ↦ ?_
  rwa [hentry f g hg, hentry f' g' hg']

end Fnprint
