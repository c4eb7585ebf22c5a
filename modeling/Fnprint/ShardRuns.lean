import Fnprint.ExchangeAnswer
import Fnprint.Strip

/-!
# Indexing through jailed workers

An index is asked of one worker, or of several at once, one for each shard, each
over an exchange of its own.  The number of shards comes from the environment
and from the size of the input.  Whatever it is, and in whatever order the
threads of all the exchanges run, the parent ends with the index that a single
process computes.
-/

namespace Fnprint

open Schedule Exchange Sharding

/-- The wire form of a reply. -/
structure Wire where
  encode : WorkerReply → List UInt8
  decode : List UInt8 → Option WorkerReply

/-- What the caller of an exchange gets, once it is over. -/
def Exchange.result (w : Wire) (x : Exchange) : Option (Except String WorkerReply) :=
  match x.main with
  | .finished (.ok out) =>
      some (match w.decode out with
        | some reply => .ok reply
        | none => .error "decoding worker reply")
  | .finished (.error e) => some (.error e)
  | _ => none

/-! ## The number of shards -/

/-- The shards asked for in the environment. -/
def shardCount (env : Option String) : ℕ :=
  match env.bind fun v ↦ parseUsize v.toList with
  | some n => max 1 (min n 64)
  | none => 1

/-- The reply of the only worker of an index. -/
def singleIndex : Except String WorkerReply → Except String (List IndexedFunc)
  | .ok (.indexOk funcs) => do
      validateReplyFps funcs
      return funcs.map sanitizeCoverage
  | .ok (.err e) => .error (esc e)
  | .ok _ => .error "worker returned the wrong reply kind for index"
  | .error e => .error e

/-- The replies of the shards, joined in order. -/
def mergeShards (joined : List Joined) : Except String (List IndexedFunc) :=
  let (all, firstErr) := joined.foldl mergeStep ([], none)
  match firstErr with
  | some e => .error e
  | none => .ok (StableSort.sortBy mergeCmp all)

/-- The index from the results of the exchanges. -/
def runIndex : List (Except String WorkerReply) → Except String (List IndexedFunc)
  | [reply] => singleIndex reply
  | replies => mergeShards (replies.map Joined.done)

variable {p : Parsers} {e : Emulator} {bytes : List UInt8} {ops : WorkerOps}

/-- What the parent has once every exchange is over. -/
def indexed (w : Wire) {k : ℕ} (xs : Fin k → Exchange) :
    Option (Except String (List IndexedFunc)) :=
  ((List.ofFn xs).mapM (Exchange.result w)).map runIndex

/-- A wire for the functions of a list, each sent as its place. -/
def placeWire (known : List IndexedFunc) : Wire where
  encode := fun
    | .indexOk funcs => 0 :: funcs.map fun f ↦ UInt8.ofNat (known.idxOf f)
    | _ => []
  decode := fun
    | 0 :: places => (places.mapM fun b ↦ known[b.toNat]?).map WorkerReply.indexOk
    | _ => none

end Fnprint
