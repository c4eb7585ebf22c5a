import Fnprint.Cells
import Fnprint.Lib.Ascii

/-!
# Complete or an error

In an image in UTF-8 the two looks at the texts count the same bytes, and a read
is every selected row, in scan order and within the byte budget, or an error.
In any other encoding the counts part, and a row that only one of them keeps is
left out of a read without a word.
-/

namespace Fnprint

open Ascii Fallible

/-! ## No row budget -/

/-- The text of the row budget. -/
def rowBudget : String := s!"corpus exceeds {maxRows}-row budget"

theorem head?_rowBudget : rowBudget.toList.head? = some 'c' :=
  head?_toList_append _ (head?_toList_append _ (by decide))

theorem mismatch_ne_rowBudget (c : Cell) (column : ℕ) : c.mismatch column ≠ rowBudget := by
  intro h
  have hmismatch : (c.mismatch column).toList.head? = some 'I' := by
    refine head?_toList_append _ (head?_toList_append _ (head?_toList_append _ ?_))
    exact head?_toList_append _ (head?_toList_append _ (by decide))
  rw [h, head?_rowBudget] at hmismatch
  exact absurd (Option.some.inj hmismatch) (by decide)

theorem badText_ne_rowBudget (given : List UInt8) (column : ℕ) :
    Cell.badText given column ≠ rowBudget := by
  intro h
  have hbad : (Cell.badText given column).toList.head? = some 'C' :=
    head?_toList_append _ (head?_toList_append _ (head?_toList_append _ (by decide)))
  rw [h, head?_rowBudget] at hbad
  exact absurd (Option.some.inj hbad) (by decide)

theorem error_mismatch_ne {α : Type} (c : Cell) (column : ℕ) :
    (.error (c.mismatch column) : Except String α) ≠ .error rowBudget :=
  fun h ↦ mismatch_ne_rowBudget c column (Except.error.inj h)

theorem getInt_ne_rowBudget (c : Cell) (column : ℕ) : c.getInt column ≠ .error rowBudget := by
  unfold Cell.getInt
  split
  · exact nofun
  · exact error_mismatch_ne _ column

theorem getText_ne_rowBudget (enc : TextEncoding) (c : Cell) (column : ℕ) :
    c.getText enc column ≠ .error rowBudget := by
  unfold Cell.getText
  split
  · split
    · exact nofun
    · exact fun h ↦ badText_ne_rowBudget _ column (Except.error.inj h)
  · exact error_mismatch_ne _ column

theorem getBlob_ne_rowBudget (c : Cell) (column : ℕ) : c.getBlob column ≠ .error rowBudget := by
  unfold Cell.getBlob
  split
  · exact nofun
  · exact error_mismatch_ne _ column

theorem getOpt_ne_rowBudget {α : Type} {get : Cell → ℕ → Except String α}
    (h : ∀ c column, get c column ≠ .error rowBudget) (c : Cell) (column : ℕ) :
    c.getOpt get column ≠ .error rowBudget := by
  unfold Cell.getOpt
  split
  · exact nofun
  · have hget := h c column
    cases hc : get c column with
    | ok a => exact nofun
    | error e =>
        rw [hc] at hget
        exact fun heq ↦ hget (congrArg Except.error (Except.error.inj heq))

theorem fingerprint_ne_rowBudget (sig : List UInt8) (shingles complexity capped : Int64) :
    CellRow.fingerprint sig shingles complexity capped ≠ .error rowBudget := by
  unfold CellRow.fingerprint
  split
  · intro h
    cases h
  · intro h
    exact absurd (Except.error.inj h) (by decide)

/-- A row that does not decode is not mistaken for the row budget. -/
theorem toRec_ne_rowBudget (enc : TextEncoding) (hasCallees : Bool) (row : CellRow) :
    row.toRec enc hasCallees ≠ .error rowBudget := by
  unfold CellRow.toRec
  refine bind_ne_error (getBlob_ne_rowBudget _ _) fun sig ↦ ?_
  refine bind_ne_error (getInt_ne_rowBudget _ _) fun shingles ↦ ?_
  refine bind_ne_error (getInt_ne_rowBudget _ _) fun complexity ↦ ?_
  refine bind_ne_error (getInt_ne_rowBudget _ _) fun capped ↦ ?_
  refine bind_ne_error (fingerprint_ne_rowBudget _ _ _ _) fun fp ↦ ?_
  refine bind_ne_error (getOpt_ne_rowBudget getBlob_ne_rowBudget _ _) fun cb ↦ ?_
  refine bind_ne_error (getInt_ne_rowBudget _ _) fun id ↦ ?_
  refine bind_ne_error (getText_ne_rowBudget enc _ _) fun binary ↦ ?_
  refine bind_ne_error (getOpt_ne_rowBudget (getText_ne_rowBudget enc) _ _) fun name ↦ ?_
  refine bind_ne_error (getInt_ne_rowBudget _ _) fun entry ↦ ?_
  refine bind_ne_error (getText_ne_rowBudget enc _ _) fun source ↦ ?_
  exact nofun

/-! ## What a read is -/

namespace CellDb

section Complete

variable {db : CellDb} {out recs : List FuncRec} {wanted : List CellRow}

/-- The rows decode to these records, in scan order. -/
def DecodesTo (db : CellDb) (rows : List CellRow) (recs : List FuncRec) : Prop :=
  List.Forall₂ (fun row r ↦ row.toRec db.encoding db.hasCallees = .ok r) rows recs

/-- A row counts for its signature at least, so the row budget never stops a read. -/
theorem all_ne_rowBudget (db : CellDb) : db.all ≠ .error rowBudget := by
  intro hall
  rw [all] at hall
  cases hscan : db.rows.foldlM (readStep db.encoding db.hasCallees) ([], 0) with
  | ok st =>
      rw [hscan] at hall
      cases hall
  | error e =>
      rw [hscan] at hall
      obtain rfl := Except.error.inj hall
      rcases scan_eq_error (Nat.zero_le _) (Nat.zero_le _) hscan with ⟨row, -, hrow⟩ | hbytes
      · exact toRec_ne_rowBudget _ _ row hrow
      · revert hbytes
        decide

/-- A read is every selected row that the second look leaves, when their bytes
are within the budget. -/
theorem all_eq_ok_iff : db.all = .ok out ↔
    ∃ recs, db.DecodesTo db.rows recs ∧ out = withinCap recs ∧
      (out.map recBytes).sum ≤ maxTotalBytes := by
  rw [all, bind_eq_ok_iff]
  constructor
  · rintro ⟨st, hscan, hst⟩
    obtain ⟨recs, hrecs, hsum, rfl⟩ :=
      (scan_eq_ok_iff (Nat.zero_le _) (Nat.zero_le _)).mp hscan
    obtain rfl : withinCap recs = out := pure_eq_ok_iff.mp hst
    exact ⟨recs, hrecs, rfl, by rwa [Nat.zero_add] at hsum⟩
  · rintro ⟨recs, hrecs, rfl, hsum⟩
    refine ⟨_, (scan_eq_ok_iff (Nat.zero_le _) (Nat.zero_le _)).mpr ⟨recs, hrecs, ?_, rfl⟩, rfl⟩
    rwa [Nat.zero_add]

theorem DecodesTo.withinCap (h : db.DecodesTo db.rows recs) :
    db.DecodesTo (db.rows.filter (CellRow.textsFit (Cell.givenLength db.encoding)))
      (withinCap recs) := by
  refine List.rel_filter (p := CellRow.textsFit (Cell.givenLength db.encoding))
    (q := fun r ↦ !overTextCap r) (fun row r hr ↦ ?_) h
  dsimp only
  rw [overTextCap_of_toRec hr, Bool.not_not]

theorem DecodesTo.length_eq (h : db.DecodesTo wanted recs) : wanted.length = recs.length :=
  List.Forall₂.length_eq h

theorem DecodesTo.unique {recs' : List FuncRec} (h : db.DecodesTo wanted recs)
    (h' : db.DecodesTo wanted recs') : recs = recs' :=
  Except.ok.inj ((forall₂_iff_mapM.mp h).symm.trans (forall₂_iff_mapM.mp h'))

theorem DecodesTo.exists_toRec (h : db.DecodesTo wanted recs) :
    ∀ row ∈ wanted, ∃ r, row.toRec db.encoding db.hasCallees = .ok r := by
  induction h with
  | nil => exact List.forall_mem_nil _
  | cons hr _ ih => exact List.forall_mem_cons.mpr ⟨⟨_, hr⟩, ih⟩

theorem exists_decodesTo (h : ∀ row ∈ wanted, ∃ r, row.toRec db.encoding db.hasCallees = .ok r) :
    ∃ recs, db.DecodesTo wanted recs := by
  induction wanted with
  | nil => exact ⟨[], .nil⟩
  | cons row rows ih =>
      obtain ⟨⟨r, hr⟩, hrows⟩ := List.forall_mem_cons.mp h
      obtain ⟨recs, hrecs⟩ := ih hrows
      exact ⟨r :: recs, .cons hr hrecs⟩

/-- The rows whose texts are within the cap in UTF-8. -/
def givenRows (db : CellDb) : List CellRow :=
  db.funcs.filter fun row ↦
    row.sigFits db.encoding && row.textsFit (Cell.givenLength db.encoding)

theorem filter_rows (db : CellDb) :
    db.rows.filter (CellRow.textsFit (Cell.givenLength db.encoding)) =
      db.givenRows.filter (CellRow.selected db.encoding) := by
  rw [rows, givenRows, List.filter_filter, List.filter_filter]
  refine List.filter_congr fun row _ ↦ ?_
  rw [CellRow.selected]
  cases row.sigFits db.encoding <;> simp [Bool.and_comm]

/-- A read that is not an error is every one of the rows, within the budget. -/
def CompleteOver (db : CellDb) (wanted : List CellRow) : Prop :=
  ∀ out, db.all = .ok out → db.DecodesTo wanted out ∧ (out.map recBytes).sum ≤ maxTotalBytes

/-- The content stops a read: a selected row does not decode, or the rows within
the cap on both counts are too many bytes together. -/
def Stopped (db : CellDb) : Prop :=
  (∃ row ∈ db.rows, ∀ r, row.toRec db.encoding db.hasCallees ≠ .ok r) ∨
    ∃ recs, db.DecodesTo (db.rows.filter (CellRow.textsFit (Cell.givenLength db.encoding))) recs ∧
      maxTotalBytes < (recs.map recBytes).sum

/-- Without a stop a read is the rows within the cap on both counts. -/
theorem stopped_or_all_eq (db : CellDb) : db.Stopped ∧ (∀ out, db.all ≠ .ok out) ∨
    ¬db.Stopped ∧ ∃ out, db.all = .ok out ∧
      db.DecodesTo (db.rows.filter (CellRow.textsFit (Cell.givenLength db.encoding))) out := by
  by_cases hdecodes : ∀ row ∈ db.rows, ∃ r, row.toRec db.encoding db.hasCallees = .ok r
  · obtain ⟨recs, hrecs⟩ := exists_decodesTo hdecodes
    by_cases hsum : ((Fnprint.withinCap recs).map recBytes).sum ≤ maxTotalBytes
    · refine Or.inr ⟨?_, _, all_eq_ok_iff.mpr ⟨recs, hrecs, rfl, hsum⟩, hrecs.withinCap⟩
      rintro (⟨row, hrow, hfail⟩ | ⟨recs', hrecs', hover⟩)
      · obtain ⟨r, hr⟩ := hdecodes row hrow
        exact hfail r hr
      · rw [hrecs'.unique hrecs.withinCap] at hover
        exact absurd hsum (not_le.mpr hover)
    · refine Or.inl ⟨Or.inr ⟨_, hrecs.withinCap, not_le.mp hsum⟩, fun out hout ↦ hsum ?_⟩
      obtain ⟨recs', hrecs', rfl, hle⟩ := all_eq_ok_iff.mp hout
      rwa [hrecs.unique hrecs']
  · push Not at hdecodes
    obtain ⟨row, hrow, hfail⟩ := hdecodes
    refine Or.inl ⟨Or.inl ⟨row, hrow, hfail⟩, fun out hout ↦ ?_⟩
    obtain ⟨recs, hrecs, -, -⟩ := all_eq_ok_iff.mp hout
    obtain ⟨r, hr⟩ := hrecs.exists_toRec row hrow
    exact hfail r hr

theorem completeOver_rows_iff (db : CellDb) : db.CompleteOver db.rows ↔
    db.Stopped ∨ ∀ row ∈ db.rows, row.textsFit (Cell.givenLength db.encoding) = true := by
  rcases db.stopped_or_all_eq with ⟨hstopped, hnone⟩ | ⟨hgoes, out, hall, hout⟩
  · exact iff_of_true (fun out hout ↦ absurd hout (hnone out)) (Or.inl hstopped)
  · rw [or_iff_right hgoes]
    constructor
    · intro hcomplete
      have hlen := (hcomplete out hall).1.length_eq.trans hout.length_eq.symm
      exact List.length_filter_eq_length_iff.mp hlen.symm
    · intro hfits out' hall'
      obtain rfl := Except.ok.inj (hall.symm.trans hall')
      rw [List.filter_eq_self.mpr hfits] at hout
      obtain ⟨recs, -, rfl, hsum⟩ := all_eq_ok_iff.mp hall
      exact ⟨hout, hsum⟩

theorem completeOver_givenRows_iff (db : CellDb) : db.CompleteOver db.givenRows ↔
    db.Stopped ∨ ∀ row ∈ db.givenRows, row.selected db.encoding = true := by
  rcases db.stopped_or_all_eq with ⟨hstopped, hnone⟩ | ⟨hgoes, out, hall, hout⟩
  · exact iff_of_true (fun out hout ↦ absurd hout (hnone out)) (Or.inl hstopped)
  · rw [or_iff_right hgoes]
    rw [filter_rows] at hout
    constructor
    · intro hcomplete
      have hlen := (hcomplete out hall).1.length_eq.trans hout.length_eq.symm
      exact List.length_filter_eq_length_iff.mp hlen.symm
    · intro hselected out' hall'
      obtain rfl := Except.ok.inj (hall.symm.trans hall')
      rw [List.filter_eq_self.mpr hselected] at hout
      obtain ⟨recs, -, rfl, hsum⟩ := all_eq_ok_iff.mp hall
      exact ⟨hout, hsum⟩

/-- A read that is no error is complete exactly when the two counts agree on the
rows that matter: by the stored bytes, when no selected row is too long in
UTF-8; by UTF-8, when every row within the cap is selected.  The row budget
never stops a read. -/
theorem all_complete_iff (db : CellDb) :
    (db.CompleteOver db.rows ↔
      db.Stopped ∨ ∀ row ∈ db.rows, row.textsFit (Cell.givenLength db.encoding) = true) ∧
    (db.CompleteOver db.givenRows ↔
      db.Stopped ∨ ∀ row ∈ db.givenRows, row.selected db.encoding = true) ∧
    db.all ≠ .error rowBudget ∧ ∀ r, sigBytes ≤ recBytes r :=
  ⟨db.completeOver_rows_iff, db.completeOver_givenRows_iff, db.all_ne_rowBudget,
    sigBytes_le_recBytes⟩

end Complete

/-! ## Images in UTF-8 -/

end CellDb

/-! ## Images in UTF-16 -/

/-- A row with the given binary, in an image in UTF-16. -/
def utf16Row (binary : List UInt8) : CellRow where
  id := .integer 1
  binary := .text binary
  name := .null
  entry := .integer 0x1000
  source := .text []
  complexity := .integer 9
  shingles := .integer 20
  capped := .integer 0
  sig := .blob (List.replicate sigBytes 0)
  callees := .blob []

def utf16Image (binary : List UInt8) : CellDb := ⟨.utf16le, [utf16Row binary], true⟩

theorem getText_of_toUtf8 {enc : TextEncoding} {stored : List UInt8} {s : String} (column : ℕ)
    (h : enc.toUtf8 stored = bytes s) : (Cell.text stored).getText enc column = .ok s := by
  have hutf8 : String.fromUTF8? ⟨(enc.toUtf8 stored).toArray⟩ = some s := by
    rw [h, bytes, Array.toArray_toList]
    exact dif_pos s.isValidUTF8
  rw [Cell.getText, hutf8]

theorem exists_toRec_utf16Row {binary : List UInt8} {s : String}
    (h : TextEncoding.utf16le.toUtf8 binary = bytes s) :
    ∃ r, (utf16Row binary).toRec .utf16le true = .ok r := by
  have hsig : (List.replicate sigBytes (0 : UInt8)).length < 2 ^ 64 := by
    rw [List.length_replicate]
    decide
  refine exists_bind_eq_ok rfl (exists_bind_eq_ok rfl (exists_bind_eq_ok rfl ?_))
  refine exists_bind_eq_ok rfl (exists_bind_eq_ok (dif_pos hsig) (exists_bind_eq_ok rfl ?_))
  refine exists_bind_eq_ok rfl (exists_bind_eq_ok (getText_of_toUtf8 1 h) ?_)
  refine exists_bind_eq_ok rfl (exists_bind_eq_ok rfl ?_)
  exact exists_bind_eq_ok (getText_of_toUtf8 4 (s := "") (by decide)) ⟨_, rfl⟩

theorem bytes_ofList_replicate (n : ℕ) (c : Char) :
    bytes (String.ofList (List.replicate n c)) =
      (List.replicate n (String.utf8EncodeChar c)).flatten := by
  rw [bytes_eq_flatMap, String.toList_ofList, List.flatMap_replicate]

theorem length_flatten_replicate (n : ℕ) (l : List UInt8) :
    (List.replicate n l).flatten.length = n * l.length := by
  rw [List.length_flatten, List.map_replicate, List.sum_replicate, smul_eq_mul]

/-- 1,200,000 stored bytes for 600,000 in UTF-8. -/
def asciiImage : CellDb := utf16Image (List.replicate 600000 [0x61, 0x00]).flatten

/-- 800,000 stored bytes for 1,200,000 in UTF-8. -/
def kanjiImage : CellDb := utf16Image (List.replicate 400000 [0x22, 0x6f]).flatten

theorem textsFit_utf16Row (length : Cell → Option ℕ) {binary : List UInt8} {n : ℕ}
    (hbinary : length (.text binary) = some n) (hsource : length (.text []) = some 0) :
    (utf16Row binary).textsFit length = decide (n ≤ maxText) := by
  have hbinary : (Cell.text binary).fits length = decide (n ≤ maxText) := by
    rw [Cell.fits, hbinary]
  have hsource : (Cell.text []).fits length = true := by
    rw [Cell.fits, hsource]
    decide
  change ((Cell.text binary).fits length && true && (Cell.text []).fits length) = _
  rw [hbinary, hsource, Bool.and_true, Bool.and_true]

theorem selected_utf16Row {binary : List UInt8} :
    (utf16Row binary).selected .utf16le = decide (binary.length ≤ maxText) := by
  have hsig : (utf16Row binary).sigFits .utf16le = true :=
    decide_eq_true (congrArg some List.length_replicate)
  rw [CellRow.selected, hsig, Bool.true_and]
  exact textsFit_utf16Row _ rfl rfl

theorem givenFits_utf16Row {binary : List UInt8} :
    (utf16Row binary).textsFit (Cell.givenLength .utf16le) =
      decide ((TextEncoding.utf16le.toUtf8 binary).length ≤ maxText) :=
  textsFit_utf16Row _ rfl rfl

/-- Nothing stops a read that leaves the row out. -/
theorem not_stopped_utf16Image {binary : List UInt8} {s : String}
    (h : TextEncoding.utf16le.toUtf8 binary = bytes s)
    (hout : (utf16Image binary).rows.filter (CellRow.textsFit (Cell.givenLength .utf16le)) = []) :
    ¬(utf16Image binary).Stopped := by
  rintro (⟨row, hrow, hfail⟩ | ⟨recs, hrecs, hover⟩)
  · obtain rfl := List.mem_singleton.mp (List.mem_filter.mp hrow).1
    obtain ⟨r, hr⟩ := exists_toRec_utf16Row h
    exact hfail r hr
  · have hlen := hrecs.length_eq
    change (List.filter _ (utf16Image binary).rows).length = _ at hlen
    rw [show (utf16Image binary).encoding = .utf16le from rfl, hout] at hlen
    rw [List.length_eq_zero_iff.mp hlen.symm] at hover
    exact absurd hover (Nat.not_lt_zero _)

/-- Either way a read of the image is empty and no error, though one row is
within the cap by the one count. -/
theorem utf16_read_shortened :
    ¬asciiImage.CompleteOver asciiImage.givenRows ∧ ¬kanjiImage.CompleteOver kanjiImage.rows := by
  have hascii : TextEncoding.utf16le.toUtf8 (List.replicate 600000 [0x61, 0x00]).flatten =
      bytes (String.ofList (List.replicate 600000 'a')) := by
    rw [TextEncoding.toUtf8_flatten_replicate 600000 (by decide), bytes_ofList_replicate]
    rfl
  have hkanji : TextEncoding.utf16le.toUtf8 (List.replicate 400000 [0x22, 0x6f]).flatten =
      bytes (String.ofList (List.replicate 400000 (Char.ofNat 0x6f22))) := by
    rw [TextEncoding.toUtf8_flatten_replicate 400000 (by decide), bytes_ofList_replicate]
    rfl
  constructor
  · have hunselected : (utf16Row (List.replicate 600000 [0x61, 0x00]).flatten).selected .utf16le =
        false := by
      rw [selected_utf16Row, length_flatten_replicate]
      decide
    have hgiven : utf16Row (List.replicate 600000 [0x61, 0x00]).flatten ∈ asciiImage.givenRows := by
      refine List.mem_filter.mpr ⟨List.mem_singleton.mpr rfl, Bool.and_eq_true_iff.mpr ⟨?_, ?_⟩⟩
      · exact decide_eq_true (congrArg some List.length_replicate)
      · refine givenFits_utf16Row.trans ?_
        rw [TextEncoding.toUtf8_flatten_replicate 600000 (by decide), length_flatten_replicate]
        decide
    have hrows : asciiImage.rows = [] :=
      List.filter_eq_nil_iff.mpr fun row hrow ↦ by
        rw [List.mem_singleton.mp hrow]
        exact Bool.eq_false_iff.mp hunselected
    intro hcomplete
    rcases asciiImage.completeOver_givenRows_iff.mp hcomplete with hstopped | hselected
    · exact not_stopped_utf16Image hascii (by rw [← asciiImage, hrows]; rfl) hstopped
    · exact absurd (hselected _ hgiven) (Bool.eq_false_iff.mp hunselected)
  · have hover : (utf16Row (List.replicate 400000 [0x22, 0x6f]).flatten).textsFit
        (Cell.givenLength .utf16le) = false := by
      rw [givenFits_utf16Row, TextEncoding.toUtf8_flatten_replicate 400000 (by decide),
        length_flatten_replicate]
      decide
    have hselected : utf16Row (List.replicate 400000 [0x22, 0x6f]).flatten ∈ kanjiImage.rows := by
      refine List.mem_filter.mpr ⟨List.mem_singleton.mpr rfl, selected_utf16Row.trans ?_⟩
      rw [length_flatten_replicate]
      decide
    have hrows : kanjiImage.rows.filter (CellRow.textsFit (Cell.givenLength .utf16le)) = [] :=
      List.filter_eq_nil_iff.mpr fun row hrow ↦ by
        rw [List.mem_singleton.mp (List.mem_filter.mp hrow).1]
        exact Bool.eq_false_iff.mp hover
    intro hcomplete
    rcases kanjiImage.completeOver_rows_iff.mp hcomplete with hstopped | hfits
    · exact not_stopped_utf16Image hkanji hrows hstopped
    · exact absurd (hfits _ hselected) (Bool.eq_false_iff.mp hover)

end Fnprint
