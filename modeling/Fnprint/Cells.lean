import Fnprint.StoreLog
import Fnprint.Texts

/-!
# Reading an untrusted table

A column of a corpus image may hold a value of any kind, whatever type it was
declared with.  The WHERE clause compares counts of stored bytes, a selected row
that does not decode fails the read, and one whose texts are too long in UTF-8
is left out of it.
-/

namespace Fnprint

open Fallible

/-- A stored value; a floating-point number by the text it is shown as. -/
inductive Cell where
  | null
  | integer (v : Int64)
  | real (shown : List UInt8)
  | text (bytes : List UInt8)
  | blob (bytes : List UInt8)
  deriving DecidableEq

/-- A row of `funcs` as it is stored. -/
structure CellRow where
  id : Cell
  binary : Cell
  name : Cell
  entry : Cell
  source : Cell
  complexity : Cell
  shingles : Cell
  capped : Cell
  sig : Cell
  callees : Cell

/-- A corpus image; a legacy one has no callees column. -/
structure CellDb where
  encoding : TextEncoding
  funcs : List CellRow
  hasCallees : Bool

namespace Cell

def typeName : Cell → String
  | null => "Null"
  | integer _ => "Integer"
  | real _ => "Real"
  | text _ => "Text"
  | blob _ => "Blob"

/-- The byte count of a value as the image stores it, of a number as text; there
is none for NULL. -/
def octetLength (enc : TextEncoding) : Cell → Option ℕ
  | null => none
  | integer v => some (enc.unit * (toString v.toInt).utf8ByteSize)
  | real shown => some (enc.unit * shown.length)
  | text bytes => some bytes.length
  | blob bytes => some bytes.length

/-- The byte count of a value as a reader is given it. -/
def givenLength (enc : TextEncoding) : Cell → Option ℕ
  | text bytes => some (enc.toUtf8 bytes).length
  | c => c.octetLength .utf8

/-- The columns in the order they are asked for. -/
def columnNames : List String :=
  ["id", "binary", "name", "entry", "source", "complexity", "shingles", "capped", "sig", "callees"]

/-- A column that holds another kind of value than is asked for. -/
def mismatch (c : Cell) (column : ℕ) : String :=
  "Invalid column type " ++ c.typeName ++ " at index: " ++ toString column ++ ", name: " ++
    columnNames.getD column ""

/-- A text that is not valid UTF-8. -/
def badText (given : List UInt8) (column : ℕ) : String :=
  "Conversion error from type Text at index: " ++ toString column ++ ", " ++ utf8Error given

def getInt (c : Cell) (column : ℕ) : Except String Int64 :=
  match c with
  | integer v => .ok v
  | c => .error (c.mismatch column)

/-- A text is handed out in UTF-8, and has to be valid there. -/
def getText (enc : TextEncoding) (c : Cell) (column : ℕ) : Except String String :=
  match c with
  | text bytes =>
      match String.fromUTF8? ⟨(enc.toUtf8 bytes).toArray⟩ with
      | some s => .ok s
      | none => .error (badText (enc.toUtf8 bytes) column)
  | c => .error (c.mismatch column)

def getBlob (c : Cell) (column : ℕ) : Except String (List UInt8) :=
  match c with
  | blob bytes => .ok bytes
  | c => .error (c.mismatch column)

/-- NULL reads as nothing. -/
def getOpt {α : Type} (get : Cell → ℕ → Except String α) (c : Cell) (column : ℕ) :
    Except String (Option α) :=
  match c with
  | null => .ok none
  | c => (get c column).map some

/-- Within the cap by some byte count; a comparison with NULL selects nothing. -/
def fits (length : Cell → Option ℕ) (c : Cell) : Bool :=
  match length c with
  | some n => n ≤ maxText
  | none => false

end Cell

/-! ## One row -/

namespace CellRow

/-- The texts of a row are within the cap by some byte count. -/
def textsFit (length : Cell → Option ℕ) (row : CellRow) : Bool :=
  row.binary.fits length && (row.name = .null || row.name.fits length) && row.source.fits length

def sigFits (enc : TextEncoding) (row : CellRow) : Bool := row.sig.octetLength enc = some sigBytes

/-- The WHERE clause. -/
def selected (enc : TextEncoding) (row : CellRow) : Bool :=
  row.sigFits enc && row.textsFit (Cell.octetLength enc)

/-- A blob is no longer than a word can count. -/
def fingerprint (sig : List UInt8) (shingles complexity capped : Int64) :
    Except String Fingerprint :=
  if h : sig.length < 2 ^ 64 then
    .ok
      { sig := decodeSig sig
        shingles := u32OfI64 shingles
        complexity := u32OfI64 complexity
        capped := capped != 0
        sig_fits := by
          rw [length_decodeSig]
          exact (Nat.div_le_self _ _).trans_lt h }
  else .error "string or blob too big"

/-- A selected row, decoded column by column. -/
def toRec (enc : TextEncoding) (hasCallees : Bool) (row : CellRow) : Except String FuncRec := do
  let sig ← row.sig.getBlob 8
  let shingles ← row.shingles.getInt 6
  let complexity ← row.complexity.getInt 5
  let capped ← row.capped.getInt 7
  let fp ← fingerprint sig shingles complexity capped
  let cb ← Cell.getOpt Cell.getBlob (if hasCallees then row.callees else .blob []) 9
  let id ← row.id.getInt 0
  let binary ← row.binary.getText enc 1
  let name ← Cell.getOpt (Cell.getText enc) row.name 2
  let entry ← row.entry.getInt 3
  let source ← row.source.getText enc 4
  return {
    id := id
    binary := binary
    name := name
    entry := entry.toUInt64
    source := source
    fp := fp
    callees := decodeSig ((cb.getD []).take (maxCallees * 8)) }

end CellRow

/-- One selected row: decoded, then held against the budgets. -/
def readStep (enc : TextEncoding) (hasCallees : Bool) (st : List FuncRec × ℕ) (row : CellRow) :
    Except String (List FuncRec × ℕ) := do
  let r ← row.toRec enc hasCallees
  allStep st r

namespace CellDb

/-- The rows a scan selects, in its order. -/
def rows (db : CellDb) : List CellRow := db.funcs.filter (CellRow.selected db.encoding)

def all (db : CellDb) : Except String (List FuncRec) := do
  let st ← db.rows.foldlM (readStep db.encoding db.hasCallees) ([], 0)
  return st.1

end CellDb

/-! ## A row that decodes -/

section Decoded

variable {enc : TextEncoding} {hasCallees : Bool} {row : CellRow} {r : FuncRec}

theorem givenLength_of_getText {c : Cell} {column : ℕ} {s : String}
    (h : c.getText enc column = .ok s) : c.givenLength enc = some s.utf8ByteSize := by
  unfold Cell.getText at h
  split at h
  · next bytes =>
      split at h
      · next s' hs =>
          obtain rfl := Except.ok.inj h
          obtain ⟨hvalid, heq⟩ := Option.dite_none_right_eq_some.mp hs
          obtain rfl := Option.some.inj heq
          exact congrArg some List.size_toArray.symm
      · cases h
  · cases h

theorem fits_of_getText {c : Cell} {column : ℕ} {s : String} (h : c.getText enc column = .ok s) :
    c.fits (Cell.givenLength enc) = decide (s.utf8ByteSize ≤ maxText) := by
  rw [Cell.fits, givenLength_of_getText h]

theorem fits_of_getOpt {c : Cell} {column : ℕ} {name : Option String}
    (h : c.getOpt (Cell.getText enc) column = .ok name) :
    (decide (c = .null) || c.fits (Cell.givenLength enc)) = decide (textLen name ≤ maxText) := by
  cases c with
  | null =>
      obtain rfl := Except.ok.inj h
      rfl
  | text bytes =>
      obtain ⟨s, hs, rfl⟩ := map_eq_ok_iff.mp h
      rw [fits_of_getText hs, decide_eq_false (by exact nofun), Bool.false_or]
      rfl
  | integer v => cases h
  | real shown => cases h
  | blob bytes => cases h

/-- The second look at the texts counts what was handed out. -/
theorem overTextCap_of_toRec (h : row.toRec enc hasCallees = .ok r) :
    overTextCap r = !row.textsFit (Cell.givenLength enc) := by
  unfold CellRow.toRec at h
  simp only [bind_eq_ok_iff] at h
  obtain ⟨sig, -, shingles, -, complexity, -, capped, -, fp, -, cb, -, id, -, binary, hbinary,
    name, hname, entry, -, source, hsource, h⟩ := h
  obtain rfl := pure_eq_ok_iff.mp h
  rw [CellRow.textsFit, fits_of_getText hbinary, fits_of_getOpt hname, fits_of_getText hsource,
    Bool.eq_iff_iff]
  simp only [overTextCap, Bool.or_eq_true, Bool.not_eq_true', Bool.and_eq_false_iff,
    decide_eq_true_eq, decide_eq_false_iff_not, not_le]
  tauto

end Decoded

/-! ## A whole scan -/

/-- The records that a second look at the texts leaves. -/
def withinCap (recs : List FuncRec) : List FuncRec := recs.filter fun r ↦ !overTextCap r

theorem withinCap_cons (r : FuncRec) (recs : List FuncRec) : withinCap (r :: recs) =
    if overTextCap r then withinCap recs else r :: withinCap recs := by
  rw [withinCap, List.filter_cons]
  cases overTextCap r <;> rfl

section Scan

variable {enc : TextEncoding} {hasCallees : Bool} {rows : List CellRow} {out : List FuncRec}
  {total : ℕ}

theorem length_lt_maxRows (hout : sigBytes * out.length ≤ total) (htotal : total ≤ maxTotalBytes) :
    out.length < maxRows := by
  unfold sigBytes sigLen maxTotalBytes maxRows at *
  omega

theorem allStep_of_over {r : FuncRec} (h : overTextCap r = true) (st : List FuncRec × ℕ) :
    allStep st r = .ok st := by
  rw [allStep, if_pos h]

theorem scan_eq_ok_iff (hout : sigBytes * out.length ≤ total) (htotal : total ≤ maxTotalBytes)
    {st : List FuncRec × ℕ} : rows.foldlM (readStep enc hasCallees) (out, total) = .ok st ↔
      ∃ recs, List.Forall₂ (fun row r ↦ row.toRec enc hasCallees = .ok r) rows recs ∧
        total + ((withinCap recs).map recBytes).sum ≤ maxTotalBytes ∧
        st = (out ++ withinCap recs, total + ((withinCap recs).map recBytes).sum) := by
  induction rows generalizing out total with
  | nil =>
      rw [List.foldlM_nil, pure_eq_ok_iff]
      simp only [List.forall₂_nil_left_iff, exists_eq_left, withinCap, List.filter_nil,
        List.append_nil, List.map_nil, List.sum_nil, Nat.add_zero, htotal, true_and]
      exact eq_comm
  | cons row rows ih =>
      rw [foldlM_cons_eq_ok_iff]
      constructor
      · rintro ⟨st', hstep, hrest⟩
        obtain ⟨r, hr, hstep⟩ := bind_eq_ok_iff.mp hstep
        by_cases hover : overTextCap r = true
        · obtain rfl := Except.ok.inj ((allStep_of_over hover _).symm.trans hstep)
          obtain ⟨recs, hrecs, hsum, rfl⟩ := (ih hout htotal).mp hrest
          refine ⟨r :: recs, .cons hr hrecs, ?_⟩
          rw [withinCap_cons, if_pos hover]
          exact ⟨hsum, rfl⟩
        · obtain ⟨-, hbytes, rfl⟩ := (allStep_eq_ok_iff (by simpa using hover)).mp hstep
          have hle := sigBytes_le_recBytes r
          obtain ⟨recs, hrecs, hsum, rfl⟩ := (ih
            (by rw [List.length_append, List.length_singleton, Nat.mul_add]; omega)
            hbytes).mp hrest
          refine ⟨r :: recs, .cons hr hrecs, ?_⟩
          rw [withinCap_cons, if_neg hover, List.map_cons, List.sum_cons]
          refine ⟨by omega, ?_⟩
          rw [List.append_assoc, List.singleton_append, Nat.add_assoc]
      · rintro ⟨recs, hrecs, hsum, hst⟩
        cases hrecs with
        | @cons _ r _ recs hr hrecs =>
            by_cases hover : overTextCap r = true
            · rw [withinCap_cons, if_pos hover] at hsum hst
              refine ⟨(out, total), bind_eq_ok_iff.mpr ⟨r, hr, allStep_of_over hover _⟩, ?_⟩
              exact (ih hout htotal).mpr ⟨recs, hrecs, hsum, hst⟩
            · rw [withinCap_cons, if_neg hover, List.map_cons, List.sum_cons] at hsum hst
              have hle := sigBytes_le_recBytes r
              refine ⟨(out ++ [r], total + recBytes r), bind_eq_ok_iff.mpr ⟨r, hr, ?_⟩, ?_⟩
              · exact (allStep_eq_ok_iff (by simpa using hover)).mpr
                  ⟨length_lt_maxRows hout htotal, by omega, rfl⟩
              · refine (ih ?_ (by omega)).mpr ⟨recs, hrecs, by omega, ?_⟩
                · rw [List.length_append, List.length_singleton, Nat.mul_add]
                  omega
                · rw [hst, List.append_assoc, List.singleton_append, Nat.add_assoc]

/-- What stops a scan: a row that does not decode, or the byte budget. -/
theorem scan_eq_error (hout : sigBytes * out.length ≤ total) (htotal : total ≤ maxTotalBytes)
    {e : String} (h : rows.foldlM (readStep enc hasCallees) (out, total) = .error e) :
    (∃ row ∈ rows, row.toRec enc hasCallees = .error e) ∨
      e = s!"corpus exceeds {maxTotalBytes}-byte budget" := by
  induction rows generalizing out total with
  | nil => cases h
  | cons row rows ih =>
      rw [List.foldlM_cons] at h
      cases hr : row.toRec enc hasCallees with
      | error e' =>
          rw [readStep, hr] at h
          obtain rfl := Except.error.inj h
          exact Or.inl ⟨row, List.mem_cons_self, hr⟩
      | ok r =>
          have hstep : readStep enc hasCallees (out, total) row = allStep (out, total) r := by
            rw [readStep, hr]
            rfl
          have hrest {out' : List FuncRec} {total' : ℕ} (hout' : sigBytes * out'.length ≤ total')
              (htotal' : total' ≤ maxTotalBytes)
              (h : rows.foldlM (readStep enc hasCallees) (out', total') = .error e) :
              (∃ row' ∈ row :: rows, row'.toRec enc hasCallees = .error e) ∨
                e = s!"corpus exceeds {maxTotalBytes}-byte budget" := by
            rcases ih hout' htotal' h with ⟨row', hmem, hrow'⟩ | rfl
            · exact Or.inl ⟨row', List.mem_cons_of_mem row hmem, hrow'⟩
            · exact Or.inr rfl
          rw [hstep] at h
          by_cases hover : overTextCap r = true
          · rw [allStep_of_over hover] at h
            exact hrest hout htotal h
          · have hle := sigBytes_le_recBytes r
            have hover : overTextCap r = false := by simpa using hover
            by_cases hbytes : total + recBytes r ≤ maxTotalBytes
            · have hok : allStep (out, total) r = .ok (out ++ [r], total + recBytes r) :=
                (allStep_eq_ok_iff hover).mpr ⟨length_lt_maxRows hout htotal, hbytes, rfl⟩
              rw [hok] at h
              refine hrest ?_ hbytes h
              rw [List.length_append, List.length_singleton, Nat.mul_add]
              omega
            · have hfull : allStep (out, total) r =
                  .error s!"corpus exceeds {maxTotalBytes}-byte budget" := by
                have hsat : maxTotalBytes < satAdd total (recBytes r) := by
                  unfold satAdd maxTotalBytes at *
                  omega
                rw [allStep, hover, if_neg Bool.false_ne_true,
                  if_neg (not_le.mpr (length_lt_maxRows hout htotal))]
                exact if_pos hsat
              rw [hfull] at h
              exact Or.inr (Except.error.inj h).symm

end Scan

/-! ## Rows of the declared types -/

/-- A text as it is stored. -/
def textCell (s : String) : Cell := .text s.toByteArray.data.toList

namespace FuncRow

/-- A row whose columns hold what they are declared with. -/
def cells (row : FuncRow) : CellRow :=
  { id := .integer row.id
    binary := textCell row.binary
    name := (row.name.map textCell).getD .null
    entry := .integer row.entry
    source := textCell row.source
    complexity := .integer row.complexity
    shingles := .integer row.shingles
    capped := .integer row.capped
    sig := .blob row.sig
    callees := (row.callees.map Cell.blob).getD .null }

end FuncRow

theorem getText_textCell (s : String) (column : ℕ) :
    (textCell s).getText .utf8 column = .ok s := by
  have hutf8 : String.fromUTF8? ⟨(TextEncoding.utf8.toUtf8 s.toByteArray.data.toList).toArray⟩ =
      some s := by
    change String.fromUTF8? ⟨s.toByteArray.data.toList.toArray⟩ = some s
    rw [Array.toArray_toList]
    exact dif_pos s.isValidUTF8
  rw [textCell, Cell.getText, hutf8]

theorem fits_textCell (s : String) :
    (textCell s).fits (Cell.octetLength .utf8) = decide (s.utf8ByteSize ≤ maxText) := by
  have hlen : s.toByteArray.data.toList.length = s.utf8ByteSize := Array.length_toList
  rw [textCell, Cell.fits, Cell.octetLength, hlen]

theorem selected_name_cells (row : FuncRow) :
    (decide (row.cells.name = .null) || row.cells.name.fits (Cell.octetLength .utf8)) =
      decide ((row.name.getD "").utf8ByteSize ≤ maxText) := by
  cases hn : row.name with
  | none =>
      have hcell : row.cells.name = .null := by
        rw [FuncRow.cells, hn]
        rfl
      rw [hcell]
      rfl
  | some s =>
      have hcell : row.cells.name = textCell s := by
        rw [FuncRow.cells, hn]
        rfl
      rw [hcell, fits_textCell, decide_eq_false (by rw [textCell]; exact nofun), Bool.false_or]
      rfl

theorem selected_cells (row : FuncRow) :
    row.cells.selected .utf8 = (decide (row.sig.length = sigBytes) && row.textFits) := by
  have hsig : row.cells.sigFits .utf8 = decide (row.sig.length = sigBytes) :=
    decide_eq_decide.mpr Option.some_inj
  have hbinary : row.cells.binary.fits (Cell.octetLength .utf8) =
      decide (row.binary.utf8ByteSize ≤ maxText) := fits_textCell row.binary
  have hsource : row.cells.source.fits (Cell.octetLength .utf8) =
      decide (row.source.utf8ByteSize ≤ maxText) := fits_textCell row.source
  rw [CellRow.selected, CellRow.textsFit, hsig, hbinary, hsource, selected_name_cells,
    FuncRow.textFits]

theorem getOpt_cells_name (row : FuncRow) (column : ℕ) :
    row.cells.name.getOpt (Cell.getText .utf8) column = .ok row.name := by
  cases hn : row.name with
  | none =>
      rw [FuncRow.cells, hn]
      rfl
  | some s =>
      have hcell : row.cells.name = textCell s := by
        rw [FuncRow.cells, hn]
        rfl
      have hget := getText_textCell s column
      rw [hcell]
      change ((textCell s).getText .utf8 column).map some = _
      rw [hget]
      rfl

theorem getOpt_cells_callees (hasCallees : Bool) (row : FuncRow) (column : ℕ) :
    Cell.getOpt Cell.getBlob (if hasCallees then row.cells.callees else .blob []) column =
      .ok (if hasCallees then row.callees else some []) := by
  cases hasCallees with
  | false => rfl
  | true =>
      rw [if_pos rfl, if_pos rfl, FuncRow.cells]
      cases row.callees <;> rfl

theorem toRec_cells (hasCallees : Bool) (row : FuncRow) (h : row.sig.length = sigBytes) :
    row.cells.toRec .utf8 hasCallees = .ok (rowToRec hasCallees row h) := by
  have hfp : CellRow.fingerprint row.sig row.shingles row.complexity row.capped =
      .ok (rowToRec hasCallees row h).fp := dif_pos (h.trans_lt (by decide))
  unfold CellRow.toRec
  rw [getOpt_cells_name, getOpt_cells_callees]
  change (CellRow.fingerprint row.sig row.shingles row.complexity row.capped >>= fun fp ↦
    (textCell row.binary).getText .utf8 1 >>= fun binary ↦
      (textCell row.source).getText .utf8 4 >>= fun source ↦ _) = _
  rw [hfp, getText_textCell, getText_textCell]
  cases hasCallees <;> rfl

/-- A store reads its rows as an untrusted reader reads their cells. -/
theorem all_cells (db : Db) :
    (⟨.utf8, db.funcs.map FuncRow.cells, db.hasCallees⟩ : CellDb).all = db.all := by
  have hscan : ∀ (funcs : List FuncRow) (st : List FuncRec × ℕ),
      ((funcs.map FuncRow.cells).filter (CellRow.selected .utf8)).foldlM
        (readStep .utf8 db.hasCallees) st =
        (funcs.filterMap (FuncRow.read db.hasCallees)).foldlM allStep st := by
    intro funcs
    induction funcs with
    | nil => exact fun st ↦ rfl
    | cons row funcs ih =>
        intro st
        rw [List.map_cons, List.filter_cons, selected_cells, List.filterMap_cons, FuncRow.read]
        by_cases hsig : row.sig.length = sigBytes
        · rw [dif_pos hsig, decide_eq_true hsig, Bool.true_and]
          by_cases htext : row.textFits = true
          · rw [if_pos htext, if_pos htext, List.foldlM_cons, List.foldlM_cons, readStep,
              toRec_cells _ _ hsig]
            exact congrArg _ (funext ih)
          · rw [if_neg htext, if_neg htext]
            exact ih st
        · rw [dif_neg hsig, decide_eq_false hsig, Bool.false_and, if_neg Bool.false_ne_true]
          exact ih st
  rw [CellDb.all, CellDb.rows, Db.all, Db.rows, hscan]

end Fnprint
