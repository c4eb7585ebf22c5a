import Fnprint.Neighbours
import Fnprint.Shards
import Fnprint.StoreLog

/-!
# Loading an index from a corpus file

A corpus file is parsed by a jailed worker, which sends the decoded rows back
over a pipe with a cap on either direction; without the sandbox it is parsed in
place.  The wire form is a parameter, of which only the length counts: what it
encodes is decoded unchanged.
-/

namespace Fnprint

/-- The largest input of a worker. -/
def maxInput : ℕ := 2 ^ 29

/-- The largest reply of a worker. -/
def maxReply : ℕ := 2 ^ 27

/-- A corpus file: its tables, and the bytes it takes on disk. -/
structure CorpusFile where
  path : String
  size : ℕ
  db : Db

/-- What the worker answers. -/
def dbload (db : Db) : WorkerReply :=
  match db.all with
  | .ok recs => .dbOk recs
  | .error e => .err e

/-- What an exchange makes of a reply: its length in the wire form, and for one
that is cut off the error of the parent, which is about the cap or about the end
of a worker whose write was refused. -/
structure Link where
  replyLen : WorkerReply → ℕ
  cutOff : WorkerReply → String

/-- One exchange with a worker. -/
def runDbload (link : Link) (db : Db) : Except String WorkerReply :=
  if maxReply < link.replyLen (dbload db) then .error (link.cutOff (dbload db))
  else .ok (dbload db)

def validateCorpusRecords (recs : List FuncRec) : Except String Unit :=
  if recs.all fun r ↦ r.fp.sig.length == sigLen then .ok ()
  else .error "jailed db worker returned a record with an invalid signature length"

def loadCorpusRecords (link : Link) (file : CorpusFile) (noSandbox : Bool) :
    Except String (List FuncRec) :=
  if noSandbox then file.db.all
  else if maxInput < file.size then
    .error s!"{esc file.path} is {file.size} bytes, over the {maxInput} byte cap"
  else do
    let reply ← runDbload link file.db
    match reply with
    | .dbOk recs => do
        validateCorpusRecords recs
        return recs
    | .err e => .error (esc e)
    | _ => .error "worker returned the wrong reply kind for dbload"

/-- The rows of the file as functions. -/
def CorpusFile.loadIndex (link : Link) (file : CorpusFile) (noSandbox : Bool) :
    Except String (List IndexedFunc) :=
  (loadCorpusRecords link file noSandbox).map Fnprint.loadIndex

/-- The prints an index is written as. -/
def printsOf (funcs : List IndexedFunc) : List FuncPrint :=
  funcs.map fun f ↦ ⟨f.name, f.entry, sourceStr f.source, f.fp, f.callees⟩

/-- A corpus file that a reader gets through: no sandbox, or no cap exceeded. -/
def CorpusFile.Readable (link : Link) (file : CorpusFile) (noSandbox : Bool) : Prop :=
  noSandbox = true ∨ file.size ≤ maxInput ∧ link.replyLen (dbload file.db) ≤ maxReply

/-- Full records that are readable are loaded as they are. -/
theorem loadCorpusRecords_eq_ok {link : Link} {file : CorpusFile} {noSandbox : Bool}
    {recs : List FuncRec} (hall : file.db.all = .ok recs)
    (hsig : ∀ r ∈ recs, r.fp.sig.length = sigLen) (h : file.Readable link noSandbox) :
    loadCorpusRecords link file noSandbox = .ok recs := by
  unfold loadCorpusRecords
  rcases h with rfl | ⟨hinput, hreply⟩
  · rw [if_pos rfl, hall]
  · cases noSandbox with
    | true => rw [if_pos rfl, hall]
    | false =>
        have hfull : (recs.all fun r ↦ r.fp.sig.length == sigLen) = true :=
          List.all_eq_true.mpr fun r hr ↦ beq_iff_eq.mpr (hsig r hr)
        rw [if_neg Bool.false_ne_true, if_neg (not_lt.mpr hinput), runDbload,
          if_neg (not_lt.mpr hreply), dbload, hall]
        change (do validateCorpusRecords recs; return recs) = _
        rw [validateCorpusRecords, if_pos hfull]
        rfl

/-- Past a cap nothing is loaded. -/
theorem loadCorpusRecords_eq_error {link : Link} {file : CorpusFile}
    (h : ¬file.Readable link false) :
    ∃ e, loadCorpusRecords link file false = .error e := by
  unfold loadCorpusRecords
  rw [if_neg Bool.false_ne_true]
  by_cases hinput : maxInput < file.size
  · rw [if_pos hinput]
    exact ⟨_, rfl⟩
  · have hreply : maxReply < link.replyLen (dbload file.db) := by
      by_contra hle
      exact h (Or.inr ⟨not_lt.mp hinput, not_lt.mp hle⟩)
    rw [if_neg hinput, runDbload, if_pos hreply]
    exact ⟨_, rfl⟩

/-! ## The length of the wire form -/

/-- Seven bits of a number go into each byte. -/
def varintLen (n : ℕ) : ℕ := Nat.log2 n / 7 + 1

/-- Signed numbers are folded to unsigned ones. -/
def zigzag (v : Int64) : ℕ :=
  if 0 ≤ v.toInt then (2 * v.toInt).toNat else (-2 * v.toInt - 1).toNat

def stringLen (s : String) : ℕ := varintLen s.utf8ByteSize + s.utf8ByteSize

def optionLen : Option String → ℕ
  | none => 1
  | some s => 1 + stringLen s

def wordsLen (l : List UInt64) : ℕ := varintLen l.length + (l.map fun v ↦ varintLen v.toNat).sum

def Fingerprint.wireLen (fp : Fingerprint) : ℕ :=
  wordsLen fp.sig + varintLen fp.shingles.toNat + varintLen fp.complexity.toNat + 1

def FuncRec.wireLen (r : FuncRec) : ℕ :=
  varintLen (zigzag r.id) + stringLen r.binary + optionLen r.name + varintLen r.entry.toNat +
    stringLen r.source + r.fp.wireLen + wordsLen r.callees

def IndexedFunc.wireLen (f : IndexedFunc) : ℕ :=
  optionLen f.name + varintLen f.entry.toNat + 1 + f.fp.wireLen + 4 + wordsLen f.callees

/-- A reply in the wire form: its kind, then its contents. -/
def WorkerReply.wireLen : WorkerReply → ℕ
  | .indexOk funcs => 1 + varintLen funcs.length + (funcs.map IndexedFunc.wireLen).sum
  | .dumpOk lines => 1 + varintLen lines.length + (lines.map stringLen).sum
  | .dbOk recs => 1 + varintLen recs.length + (recs.map FuncRec.wireLen).sum
  | .err e => 1 + stringLen e

/-- Replies in the wire form; a worker whose reply is cut off fails to write it. -/
def wireLink : Link where
  replyLen := WorkerReply.wireLen
  cutOff _ := "jailed worker exited abnormally (exit status: 1) - likely killed by the " ++
    "sandbox or a crash in the emulator; stderr: Error: worker writing reply"

end Fnprint
