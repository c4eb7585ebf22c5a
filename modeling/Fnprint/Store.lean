import Fnprint.Lib.Fallible
import Fnprint.Lib.Stride
import Fnprint.Db
import Fnprint.Loader

/-!
# The corpus store

The two tables of a corpus file: what a print is written as, and how the rows
are read back.  Sqlite keeps integers, texts and blobs as they are and scans in
rowid order; the steps below are the calls that it does not refuse.
-/

namespace Fnprint

open StableSort

def sigBytes : ℕ := sigLen * 8

def maxText : ℕ := 2 ^ 20

def maxRows : ℕ := 2000000

/-- The most decoded text and signature bytes of one read. -/
def maxTotalBytes : ℕ := 2 ^ 28

/-- The most callee edges one row may carry. -/
def maxCallees : ℕ := 4096

/-- A row of `funcs`; the callees are NULL where an older version wrote it. -/
structure FuncRow where
  id : Int64
  binary : String
  name : Option String
  entry : Int64
  source : String
  complexity : Int64
  shingles : Int64
  capped : Int64
  sig : List UInt8
  callees : Option (List UInt8)

/-- A row of `bands`. -/
structure BandRow where
  band : Int64
  key : Int64
  funcId : Int64
  deriving DecidableEq

/-- The tables, `funcs` in rowid order; a legacy image has no callees column. -/
structure Db where
  funcs : List FuncRow
  bands : List BandRow
  hasCallees : Bool

/-- One print to write. -/
structure FuncPrint where
  name : Option String
  entry : UInt64
  source : String
  fp : Fingerprint
  callees : List UInt64

/-! ## Blobs -/

def encodeSig (sig : List UInt64) : List UInt8 := sig.flatMap Fnv.leBytes

/-- The word of eight bytes, least significant first. -/
def leWord (bytes : List UInt8) : UInt64 :=
  UInt64.ofNat (Nat.ofDigits 256 (bytes.map UInt8.toNat))

def decodeSig (bytes : List UInt8) : List UInt64 := Stride.decode 8 leWord bytes

theorem length_leBytes (v : UInt64) : (Fnv.leBytes v).length = 8 := by
  rw [Fnv.leBytes, List.length_map, List.length_range]

theorem leWord_leBytes (v : UInt64) : leWord (Fnv.leBytes v) = v := by
  have hbyte : ∀ i < 8, ((v >>> (UInt64.ofNat (i * 8))).toUInt8).toNat =
      v.toNat / 256 ^ i % 256 := by
    intro i hi
    have hshift : (UInt64.ofNat (i * 8)).toNat % 64 = i * 8 := by
      rw [UInt64.toNat_ofNat']
      omega
    rw [UInt64.toNat_toUInt8, UInt64.toNat_shiftRight, hshift, Nat.shiftRight_eq_div_pow,
      Nat.mul_comm, Nat.pow_mul]
  have hdigits : (Fnv.leBytes v).map UInt8.toNat =
      (List.range 8).map fun i ↦ v.toNat / 256 ^ i % 256 := by
    rw [Fnv.leBytes, List.map_map]
    apply List.map_congr_left
    intro i hi
    exact hbyte i (List.mem_range.mp hi)
  have hv := v.toNat_lt
  rw [leWord, hdigits, Stride.ofDigits_map_range, Nat.mod_eq_of_lt (by omega), UInt64.ofNat_toNat]

theorem length_encodeSig (sig : List UInt64) : (encodeSig sig).length = sig.length * 8 :=
  Stride.length_flatMap length_leBytes sig

theorem decodeSig_encodeSig (sig : List UInt64) : decodeSig (encodeSig sig) = sig :=
  Stride.decode_flatMap (by norm_num) length_leBytes leWord_leBytes sig

theorem length_decodeSig (bytes : List UInt8) : (decodeSig bytes).length = bytes.length / 8 := by
  rw [decodeSig, Stride.decode, List.length_map, List.length_range]

/-! ## Writing -/

/-- The row of a print; its callees are cut to the cap. -/
def rowOf (id : Int64) (binary : String) (p : FuncPrint) : FuncRow :=
  { id := id
    binary := binary
    name := p.name
    entry := p.entry.toInt64
    source := p.source
    complexity := p.fp.complexity.toUInt64.toInt64
    shingles := p.fp.shingles.toUInt64.toInt64
    capped := if p.fp.capped then 1 else 0
    sig := encodeSig p.fp.sig
    callees := some (encodeSig (p.callees.take maxCallees)) }

/-- One band row for each bucket of a print. -/
def bandRowsOf (id : Int64) (fp : Fingerprint) : List BandRow :=
  fp.slots.map fun s ↦ ⟨Int64.ofNat s.1, s.2.toInt64, id⟩

namespace Db

/-- An empty store. -/
def fresh : Db := ⟨[], [], true⟩

/-- One more than the largest rowid.  Above the largest integer sqlite picks an
unused rowid at random; a fresh store ends long before. -/
def nextId (db : Db) : Except String Int64 :=
  match db.funcs.getLast? with
  | none => .ok 1
  | some row =>
      if row.id = Int64.maxValue then .error "database or disk is full" else .ok (row.id + 1)

def insert (db : Db) (binary : String) (p : FuncPrint) : Except String (Db × Int64) := do
  let id ← db.nextId
  return ({ db with
    funcs := db.funcs ++ [rowOf id binary p]
    bands := db.bands ++ bandRowsOf id p.fp }, id)

/-- Every print under one transaction, with the number written. -/
def insertAll (db : Db) (binary : String) (prints : List FuncPrint) : Except String (Db × ℕ) := do
  let db ← prints.foldlM (fun db p ↦ do
    let inserted ← db.insert binary p
    return inserted.1) db
  return (db, prints.length)

end Db

/-! ## Reading -/

/-- A stored number out of range degrades to zero. -/
def u32OfI64 (v : Int64) : UInt32 := if 0 ≤ v ∧ v ≤ 0xffffffff then v.toUInt64.toUInt32 else 0

/-- A row with a signature of the one right size, decoded. -/
def rowToRec (hasCallees : Bool) (row : FuncRow) (h : row.sig.length = sigBytes) : FuncRec :=
  let cb := if hasCallees then row.callees.getD [] else []
  { id := row.id
    binary := row.binary
    name := row.name
    entry := row.entry.toUInt64
    source := row.source
    fp :=
      { sig := decodeSig row.sig
        shingles := u32OfI64 row.shingles
        complexity := u32OfI64 row.complexity
        capped := row.capped != 0
        sig_fits := by
          rw [length_decodeSig, h]
          decide }
    callees := decodeSig (cb.take (maxCallees * 8)) }

/-- What the WHERE clause asks of the texts of a row. -/
def FuncRow.textFits (row : FuncRow) : Bool :=
  row.binary.utf8ByteSize ≤ maxText && (row.name.getD "").utf8ByteSize ≤ maxText &&
    row.source.utf8ByteSize ≤ maxText

/-- A selected row; a wrong-sized signature or an absurd text is passed over. -/
def FuncRow.read (hasCallees : Bool) (row : FuncRow) : Option FuncRec :=
  if h : row.sig.length = sigBytes then
    if row.textFits then some (rowToRec hasCallees row h) else none
  else none

def textLen (name : Option String) : ℕ := (name.getD "").utf8ByteSize

/-- The bytes a row is accounted with. -/
def recBytes (r : FuncRec) : ℕ :=
  satAdd (satAdd (satAdd (satAdd sigBytes r.binary.utf8ByteSize) (textLen r.name))
    r.source.utf8ByteSize) (r.callees.length * 8)

theorem sigBytes_le_recBytes (r : FuncRec) : sigBytes ≤ recBytes r := by
  unfold recBytes satAdd sigBytes sigLen
  omega

def overTextCap (r : FuncRec) : Bool :=
  maxText < r.binary.utf8ByteSize || maxText < r.source.utf8ByteSize || maxText < textLen r.name

/-- One row against the two budgets; a read past them fails closed. -/
def allStep (st : List FuncRec × ℕ) (r : FuncRec) : Except String (List FuncRec × ℕ) :=
  if overTextCap r then .ok st
  else if maxRows ≤ st.1.length then .error s!"corpus exceeds {maxRows}-row budget"
  else
    let total := satAdd st.2 (recBytes r)
    if maxTotalBytes < total then .error s!"corpus exceeds {maxTotalBytes}-byte budget"
    else .ok (st.1 ++ [r], total)

namespace Db

/-- The rows a scan selects. -/
def rows (db : Db) : List FuncRec := db.funcs.filterMap (FuncRow.read db.hasCallees)

def all (db : Db) : Except String (List FuncRec) := do
  let st ← db.rows.foldlM allStep ([], 0)
  return st.1

/-- The rows whose ids the band index holds for a print, as it holds them. -/
def bandIds (db : Db) (fp : Fingerprint) : List Int64 :=
  fp.slots.flatMap fun s ↦
    (db.bands.filter fun b ↦ b.band = Int64.ofNat s.1 ∧ b.key = s.2.toInt64).map BandRow.funcId

def find (db : Db) (id : Int64) : Option FuncRec :=
  (db.funcs.find? fun row ↦ row.id = id).bind (FuncRow.read db.hasCallees)

/-- The rows that share a band with a print, in the order their set of ids is
enumerated. -/
def candidates (db : Db) (order : List Int64 → List Int64) (fp : Fingerprint) : List FuncRec :=
  (order (db.bandIds fp).dedup).filterMap db.find

def toCorpus (db : Db) (order : List Int64 → List Int64) : Corpus :=
  { all := db.all
    candidates := fun fp ↦ .ok (db.candidates order fp) }

end Db

end Fnprint
