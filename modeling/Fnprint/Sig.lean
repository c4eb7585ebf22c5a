import Fnprint.Lib.Banding
import Fnprint.Lib.Binary64
import Fnprint.Lib.StableSort
import Fnprint.Trace

/-!
# Fingerprints

Effect tokens become shingles, shingles become a minhash signature of fixed
length.  Two prints are compared by the share of equal slots, and the band
keys bucket them so that not everything is compared with everything.
-/

namespace Fnprint

open Binary64 Banding StableSort

def sigLen : ℕ := 128

def shingleN : ℕ := 3

/-- A print; its signature is a vector, so its length is a machine word. -/
structure Fingerprint where
  sig : List UInt64
  shingles : UInt32
  complexity : UInt32
  capped : Bool
  sig_fits : sig.length < 2 ^ 64
  deriving DecidableEq

instance : Inhabited Fingerprint := ⟨⟨[], 0, 0, false, by decide⟩⟩

/-! ## Shingles and minhash -/

/-- FNV-1a over the little-endian bytes of some words. -/
def mix (vals : List UInt64) : UInt64 :=
  (vals.foldl Fnv.u64 Fnv.new).state

/-- The windows of `n` consecutive elements. -/
def windows {α : Type*} (n : ℕ) (l : List α) : List (List α) :=
  (List.range (l.length + 1 - n)).map fun i ↦ (l.drop i).take n

/-- Tagged unigrams and n-grams of the tokens, sorted, without repeats. -/
def shingleSet (toks : List UInt64) : List UInt64 :=
  if toks.isEmpty then []
  else
    let unigrams := toks.map fun t ↦ mix [0x01, t]
    let ngrams :=
      if shingleN ≤ toks.length then (windows shingleN toks).map fun w ↦ mix (0x03 :: w) else []
    sortDedup compare (unigrams ++ ngrams)

def permA : List UInt64 :=
  [0xff51afd7ed558ccd, 0xc4ceb9fe1a85ec53, 0x9e3779b97f4a7c15, 0x2545f4914f6cdd1d,
    0xbf58476d1ce4e5b9, 0x94d049bb133111eb, 0xd6e8feb86659fd93, 0xa0761d6478bd642f]

def permB : List UInt64 :=
  [0xe7037ed1a0b428db, 0x8ebc6af09c88c6e3, 0x589965cc75374cc3, 0x1d8e4e27c47d124f,
    0xeb44accab455d165, 0x165667b19e3779f9, 0x27d4eb2f165667c5, 0x2545f4914f6cdd1d]

/-- The `i`-th permutation of the 64-bit words. -/
def perm (i : ℕ) (x : UInt64) : UInt64 :=
  let a := permA.getD (i % permA.length) 0 * (UInt64.ofNat i ||| 1) + 0x9e3779b97f4a7c15
  let b := permB.getD (i % permB.length) 0 + UInt64.ofNat i * 0x2545f4914f6cdd1d
  let v := x * (a ||| 1) + b
  v ^^^ (v >>> 29)

/-- One slot: the least image of a shingle. -/
def slotMin (i : ℕ) (shingles : List UInt64) : UInt64 :=
  shingles.foldl (fun m x ↦ if perm i x < m then perm i x else m) 0xffffffffffffffff

def minhash (shingles : List UInt64) : List UInt64 :=
  if shingles.isEmpty then List.replicate sigLen 0
  else (List.range sigLen).map fun i ↦ slotMin i shingles

theorem length_minhash (shingles : List UInt64) : (minhash shingles).length = sigLen := by
  unfold minhash
  split <;> simp

theorem minhash_fits (shingles : List UInt64) : (minhash shingles).length < 2 ^ 64 := by
  rw [length_minhash]
  decide

namespace Fingerprint

def fromTrace (t : EffectTrace) : Fingerprint :=
  let shingles := shingleSet t.tokens
  { sig := minhash shingles
    shingles := UInt32.ofNat shingles.length
    complexity := UInt32.ofNat t.complexity
    capped := t.capped
    sig_fits := minhash_fits shingles }

/-- One print from several runs: the union of their shingles. -/
def fromTraces (traces : List EffectTrace) : Fingerprint :=
  let all := sortDedup compare (traces.flatMap fun t ↦ shingleSet t.tokens)
  { sig := minhash all
    shingles := UInt32.ofNat all.length
    complexity := traces.foldl (fun c t ↦ max c (UInt32.ofNat t.complexity)) 0
    capped := traces.foldl (fun c t ↦ c || t.capped) false
    sig_fits := minhash_fits all }

/-- The share of equal slots; zero for signatures of different shape. -/
def similarity (self other : Fingerprint) : Float :=
  if self.sig.length != other.sig.length || self.sig.isEmpty then 0.0
  else natCast (agree self.sig other.sig) / natCast self.sig.length

/-- The band keys: one hash for each band of `r` slots. -/
def bandKeys (fp : Fingerprint) (r : ℕ) : List UInt64 :=
  (chunks (max r 1) fp.sig).map mix

end Fingerprint

end Fnprint
