import Fnprint.Lib.KeyMap
import Fnprint.Sig

/-!
# The corpus

Corpus rows, and the in-memory corpus with its band index, as the query side
reads them.
-/

namespace Fnprint

open StableSort KeyMap

/-- The rows of a band; the bands cover the signature. -/
def bandRows : ℕ := 4

def bands : ℕ := sigLen / bandRows

/-- A decoded corpus row. -/
structure FuncRec where
  id : Int64
  binary : String
  name : Option String
  entry : UInt64
  source : String
  fp : Fingerprint
  callees : List UInt64
  deriving DecidableEq, Inhabited

/-- The buckets a print falls into: its band keys with their positions. -/
def Fingerprint.slots (fp : Fingerprint) : List (ℕ × UInt64) :=
  (fp.bandKeys bandRows).zipIdx.map fun p ↦ (p.2, p.1)

/-- The band index over a list of prints, each with its position. -/
def bandIndex (prints : List (Fingerprint × ℕ)) : Map (ℕ × UInt64) (List ℕ) :=
  buckets (prints.flatMap fun p ↦ p.1.slots.map fun s ↦ (s, p.2))

/-- The positions in the buckets of a print. -/
def bandHits (index : Map (ℕ × UInt64) (List ℕ)) (fp : Fingerprint) : List ℕ :=
  fp.slots.flatMap fun s ↦ (index.lookup s).getD []

/-- What the query side needs of a corpus. -/
structure Corpus where
  all : Except String (List FuncRec)
  candidates : Fingerprint → Except String (List FuncRec)

/-- A corpus decoded into memory, with the band index of its records. -/
structure MemCorpus where
  recs : List FuncRec
  bands : Map (ℕ × UInt64) (List ℕ)

namespace MemCorpus

def fromRecords (recs : List FuncRec) : MemCorpus :=
  { recs := recs
    bands := bandIndex (recs.zipIdx.map fun p ↦ (p.1.fp, p.2)) }

/-- The records sharing a band with a print, in record order. -/
def candidates (c : MemCorpus) (fp : Fingerprint) : List FuncRec :=
  (sortDedup compare (bandHits c.bands fp)).map fun i ↦ c.recs.getD i default

def toCorpus (c : MemCorpus) : Corpus :=
  { all := .ok c.recs
    candidates := fun fp ↦ .ok (c.candidates fp) }

end MemCorpus

end Fnprint
