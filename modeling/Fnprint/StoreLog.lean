import Fnprint.Store

/-!
# What a store holds

A store that was only written through its two calls is described by a log: the
prints in the order they were written, with the ids they got.  Both tables are
read off the log, and a scan gives back the records of the prints that fit.
-/

namespace Fnprint

open Fallible

/-- A print as it was written. -/
structure Written where
  id : Int64
  binary : String
  print : FuncPrint

namespace Written

def row (e : Written) : FuncRow := rowOf e.id e.binary e.print

def bandRows (e : Written) : List BandRow := bandRowsOf e.id e.print.fp

/-- The record a reader gets. -/
def record (e : Written) : FuncRec :=
  { id := e.id
    binary := e.binary
    name := e.print.name
    entry := e.print.entry
    source := e.print.source
    fp := e.print.fp
    callees := e.print.callees.take maxCallees }

/-- A full signature and texts within the cap. -/
def Kept (e : Written) : Prop := e.print.fp.sig.length = sigLen ∧ e.row.textFits = true

instance (e : Written) : Decidable e.Kept := inferInstanceAs (Decidable (_ ∧ _))

end Written

/-! ## One row -/

theorem u32OfI64_toInt64 (v : UInt32) : u32OfI64 v.toUInt64.toInt64 = v := by
  have hv := v.toNat_lt
  have hint : v.toUInt64.toInt64.toInt = v.toNat := by
    rw [Int64.toInt, UInt64.toBitVec_toInt64, BitVec.toInt_eq_toNat_bmod, UInt64.toNat_toBitVec,
      UInt32.toNat_toUInt64]
    exact Int.bmod_eq_of_le (by omega) (by omega)
  have hcap : (0xffffffff : Int64).toInt = 4294967295 := by decide
  have hrange : (0 : Int64) ≤ v.toUInt64.toInt64 ∧ v.toUInt64.toInt64 ≤ 0xffffffff := by
    rw [Int64.le_iff_toInt_le, Int64.le_iff_toInt_le, hint, hcap]
    exact ⟨Int.natCast_nonneg _, by omega⟩
  rw [u32OfI64, if_pos hrange, UInt64.toUInt64_toInt64, UInt32.toUInt32_toUInt64]

theorem length_sig_row (e : Written) :
    e.row.sig.length = sigBytes ↔ e.print.fp.sig.length = sigLen := by
  change (encodeSig e.print.fp.sig).length = sigLen * 8 ↔ _
  rw [length_encodeSig]
  omega

/-- A row that is selected reads back as the print it was written from. -/
theorem rowToRec_row (e : Written) (h : e.row.sig.length = sigBytes) :
    rowToRec true e.row h = e.record := by
  have hcapped : ((if e.print.fp.capped then 1 else 0 : Int64) != 0) = e.print.fp.capped := by
    cases e.print.fp.capped <;> rfl
  have hcut : (encodeSig (e.print.callees.take maxCallees)).take (maxCallees * 8) =
      encodeSig (e.print.callees.take maxCallees) := by
    apply List.take_of_length_le
    rw [length_encodeSig, List.length_take]
    exact Nat.mul_le_mul_right 8 (Nat.min_le_left _ _)
  have hfp : (rowToRec true e.row h).fp = e.print.fp := by
    simp only [rowToRec, Written.row, rowOf, decodeSig_encodeSig, u32OfI64_toInt64, hcapped]
  have hcallees : (rowToRec true e.row h).callees = e.print.callees.take maxCallees := by
    change decodeSig ((encodeSig (e.print.callees.take maxCallees)).take (maxCallees * 8)) = _
    rw [hcut, decodeSig_encodeSig]
  have hentry : (rowToRec true e.row h).entry = e.print.entry := by
    change e.print.entry.toInt64.toUInt64 = e.print.entry
    rw [UInt64.toUInt64_toInt64]
  calc rowToRec true e.row h
      = { e.record with
          entry := (rowToRec true e.row h).entry
          fp := (rowToRec true e.row h).fp
          callees := (rowToRec true e.row h).callees } := rfl
    _ = e.record := by rw [hfp, hcallees, hentry]; rfl

theorem read_row (e : Written) : e.row.read true = if e.Kept then some e.record else none := by
  unfold FuncRow.read
  by_cases hsig : e.row.sig.length = sigBytes
  · rw [dif_pos hsig, rowToRec_row]
    have hlen := (length_sig_row e).mp hsig
    by_cases htext : e.row.textFits = true
    · rw [if_pos htext, if_pos ⟨hlen, htext⟩]
    · rw [if_neg htext, if_neg fun hkept ↦ htext hkept.2]
  · rw [dif_neg hsig, if_neg fun hkept ↦ hsig ((length_sig_row e).mpr hkept.1)]

/-! ## The tables -/

/-- The tables of a log. -/
def Db.ofLog (log : List Written) : Db :=
  { funcs := log.map Written.row
    bands := log.flatMap Written.bandRows
    hasCallees := true }

/-- A store holds exactly what was written, under increasing ids. -/
structure Db.Holds (db : Db) (log : List Written) : Prop where
  tables : db = ofLog log
  increasing : log.Pairwise fun e e' ↦ e.id < e'.id

theorem lt_add_one64 {v : Int64} (h : v ≠ Int64.maxValue) : v < v + 1 := by
  have hlt := v.toInt_lt
  have hle := v.le_toInt
  have hmax : v.toInt ≠ 2 ^ 63 - 1 := fun heq ↦ h (Int64.toInt_inj.mp (heq.trans (by decide)))
  have hone : (1 : Int64).toInt = 1 := by decide
  rw [Int64.lt_iff_toInt_lt, Int64.toInt_add, hone, Int.bmod_eq_of_le (by omega) (by omega)]
  omega

namespace Db

variable {db db' : Db} {log : List Written} {binary : String} {id : Int64} {n : ℕ}

theorem holds_fresh : fresh.Holds [] := ⟨rfl, List.Pairwise.nil⟩

theorem nextId_ofLog_append (log : List Written) (last : Written) :
    (ofLog (log ++ [last])).nextId =
      if last.id = Int64.maxValue then .error "database or disk is full"
      else .ok (last.id + 1) := by
  rw [nextId, ofLog, List.map_append, List.map_singleton, List.getLast?_concat]
  rfl

theorem lt_nextId (h : log.Pairwise fun e e' ↦ e.id < e'.id) (hid : (ofLog log).nextId = .ok id) :
    ∀ e ∈ log, e.id < id := by
  intro e he
  rcases List.eq_nil_or_concat log with rfl | ⟨log, last, rfl⟩
  · cases he
  · rw [List.concat_eq_append] at he hid h
    rw [nextId_ofLog_append] at hid
    split at hid
    · cases hid
    · next hmax =>
        obtain rfl := Except.ok.inj hid
        have hlast := lt_add_one64 hmax
        rcases List.mem_append.mp he with he | he
        · exact Int64.lt_trans ((List.pairwise_append.mp h).2.2 e he last List.mem_cons_self) hlast
        · rwa [List.mem_singleton.mp he]

theorem insert_ofLog (log : List Written) (binary : String) (p : FuncPrint) :
    (ofLog log).insert binary p =
      (ofLog log).nextId.map fun id ↦ (ofLog (log ++ [⟨id, binary, p⟩]), id) := by
  unfold insert
  cases (ofLog log).nextId with
  | error e => rfl
  | ok id =>
      have hfuncs : (log ++ [(⟨id, binary, p⟩ : Written)]).map Written.row =
          log.map Written.row ++ [rowOf id binary p] := by
        rw [List.map_append]
        rfl
      have hbands : (log ++ [(⟨id, binary, p⟩ : Written)]).flatMap Written.bandRows =
          log.flatMap Written.bandRows ++ bandRowsOf id p.fp := by
        simp [Written.bandRows]
      have htables : ofLog (log ++ [(⟨id, binary, p⟩ : Written)]) =
          ⟨log.map Written.row ++ [rowOf id binary p],
            log.flatMap Written.bandRows ++ bandRowsOf id p.fp, true⟩ := by
        rw [ofLog, hfuncs, hbands]
      change Except.ok (_, id) = Except.ok (ofLog _, id)
      rw [htables]
      rfl

theorem Holds.insert (h : db.Holds log) {p : FuncPrint} (hok : db.insert binary p = .ok (db', id)) :
    db'.Holds (log ++ [⟨id, binary, p⟩]) := by
  rw [h.tables, insert_ofLog] at hok
  cases hid : (ofLog log).nextId with
  | error e =>
      rw [hid] at hok
      cases hok
  | ok id' =>
      rw [hid] at hok
      obtain ⟨rfl, rfl⟩ := Prod.mk.inj (Except.ok.inj hok)
      refine ⟨rfl, ?_⟩
      rw [List.pairwise_append]
      refine ⟨h.increasing, List.pairwise_singleton _ _, fun e he e' he' ↦ ?_⟩
      rw [List.mem_singleton.mp he']
      exact lt_nextId h.increasing hid e he

theorem exists_holds_insertAll (h : db.Holds log) {prints : List FuncPrint}
    (hok : db.insertAll binary prints = .ok (db', n)) : ∃ log', db'.Holds log' := by
  obtain ⟨db₁, hloop, hok⟩ := bind_eq_ok_iff.mp hok
  obtain ⟨rfl, rfl⟩ := Prod.mk.inj (pure_eq_ok_iff.mp hok)
  refine foldlM_invariant (P := fun db : Db ↦ ∃ log, db.Holds log) ?_ ⟨log, h⟩ hloop
  rintro db p db' ⟨log, h⟩ hstep
  obtain ⟨⟨db₂, id⟩, hins, heq⟩ := bind_eq_ok_iff.mp hstep
  obtain rfl := pure_eq_ok_iff.mp heq
  exact ⟨_, h.insert hins⟩

end Db

/-! ## Runs of writes -/

inductive Write where
  | insert (binary : String) (p : FuncPrint)
  | insertAll (binary : String) (prints : List FuncPrint)

namespace Db

def write (db : Db) : Write → Except String Db
  | .insert binary p => (db.insert binary p).map Prod.fst
  | .insertAll binary prints => (db.insertAll binary prints).map Prod.fst

/-- A fresh store after some calls. -/
def writes (l : List Write) : Except String Db := l.foldlM write fresh

theorem exists_holds_write {db db' : Db} {w : Write} (h : ∃ log, db.Holds log)
    (hok : db.write w = .ok db') : ∃ log, db'.Holds log := by
  obtain ⟨log, h⟩ := h
  cases w with
  | insert binary p =>
      obtain ⟨r, hins, rfl⟩ := map_eq_ok_iff.mp hok
      exact ⟨_, h.insert hins⟩
  | insertAll binary prints =>
      obtain ⟨r, hins, rfl⟩ := map_eq_ok_iff.mp hok
      exact exists_holds_insertAll h hins

/-- However it was written, a store holds a log. -/
theorem exists_holds_writes {l : List Write} {db : Db} (h : writes l = .ok db) :
    ∃ log, db.Holds log :=
  foldlM_invariant (fun _ _ _ hs hstep ↦ exists_holds_write hs hstep) ⟨[], holds_fresh⟩ h

end Db

/-! ## A whole scan -/

theorem overTextCap_of_read {hasCallees : Bool} {row : FuncRow} {r : FuncRec}
    (h : row.read hasCallees = some r) : overTextCap r = false := by
  unfold FuncRow.read at h
  split at h
  · split at h
    · next htext =>
        obtain rfl := Option.some.inj h
        rw [FuncRow.textFits] at htext
        simp only [Bool.and_eq_true, decide_eq_true_eq] at htext
        obtain ⟨⟨hbinary, hname⟩, hsource⟩ := htext
        simp only [overTextCap, textLen, rowToRec, Bool.or_eq_false_iff]
        exact ⟨⟨decide_eq_false (not_lt.mpr hbinary), decide_eq_false (not_lt.mpr hsource)⟩,
          decide_eq_false (not_lt.mpr hname)⟩
    · cases h
  · cases h

theorem allStep_eq_ok_iff {r : FuncRec} (hr : overTextCap r = false) {out : List FuncRec}
    {total : ℕ} {st : List FuncRec × ℕ} :
    allStep (out, total) r = .ok st ↔ out.length < maxRows ∧ total + recBytes r ≤ maxTotalBytes ∧
      st = (out ++ [r], total + recBytes r) := by
  have hbytes : maxTotalBytes < satAdd total (recBytes r) ↔ maxTotalBytes < total + recBytes r := by
    unfold satAdd maxTotalBytes
    omega
  unfold allStep
  rw [hr, if_neg Bool.false_ne_true]
  by_cases hrows : maxRows ≤ out.length
  · rw [if_pos hrows]
    exact iff_of_false (fun h ↦ nomatch h) fun h ↦ absurd h.1 (not_lt.mpr hrows)
  · rw [if_neg hrows]
    by_cases hfull : maxTotalBytes < total + recBytes r
    · rw [if_pos (hbytes.mpr hfull)]
      exact iff_of_false (fun h ↦ nomatch h) fun h ↦ absurd h.2.1 (not_le.mpr hfull)
    · have hsum : satAdd total (recBytes r) = total + recBytes r := by
        unfold satAdd maxTotalBytes at *
        omega
      rw [if_neg fun h ↦ hfull (hbytes.mp h), hsum, Except.ok.injEq]
      exact ⟨fun h ↦ ⟨not_le.mp hrows, not_lt.mp hfull, h.symm⟩, fun h ↦ h.2.2.symm⟩

/-- The scan succeeds within the two budgets, and then it returns every row. -/
theorem foldlM_allStep_eq_ok_iff {l out : List FuncRec} {total : ℕ} {st : List FuncRec × ℕ}
    (hl : ∀ r ∈ l, overTextCap r = false) (hout : out.length ≤ maxRows)
    (htotal : total ≤ maxTotalBytes) :
    l.foldlM allStep (out, total) = .ok st ↔ out.length + l.length ≤ maxRows ∧
      total + (l.map recBytes).sum ≤ maxTotalBytes ∧
      st = (out ++ l, total + (l.map recBytes).sum) := by
  induction l generalizing out total with
  | nil =>
      rw [List.foldlM_nil, pure_eq_ok_iff]
      simp [hout, htotal, eq_comm]
  | cons r l ih =>
      obtain ⟨hr, hl⟩ := List.forall_mem_cons.mp hl
      rw [foldlM_cons_eq_ok_iff, List.map_cons, List.sum_cons, List.length_cons]
      constructor
      · rintro ⟨st', hstep, hrest⟩
        obtain ⟨hrows, hbytes, rfl⟩ := (allStep_eq_ok_iff hr).mp hstep
        obtain ⟨hrows', hbytes', rfl⟩ := (ih hl (by simpa using hrows) hbytes).mp hrest
        rw [List.length_append, List.length_singleton] at hrows'
        refine ⟨by omega, by omega, ?_⟩
        rw [List.append_assoc, List.singleton_append, Nat.add_assoc]
      · rintro ⟨hrows, hbytes, rfl⟩
        refine ⟨_, (allStep_eq_ok_iff hr).mpr ⟨by omega, by omega, rfl⟩,
          (ih hl ?_ (by omega)).mpr ⟨?_, by omega, ?_⟩⟩
        · rw [List.length_append, List.length_singleton]
          omega
        · rw [List.length_append, List.length_singleton]
          omega
        · rw [List.append_assoc, List.singleton_append, Nat.add_assoc]

namespace Db

/-- A read is every selected row, within the budgets, or it fails. -/
theorem all_eq_ok_iff {db : Db} {recs : List FuncRec} :
    db.all = .ok recs ↔ db.rows.length ≤ maxRows ∧
      (db.rows.map recBytes).sum ≤ maxTotalBytes ∧ recs = db.rows := by
  have hl : ∀ r ∈ db.rows, overTextCap r = false := by
    intro r hr
    obtain ⟨row, -, hrow⟩ := List.mem_filterMap.mp hr
    exact overTextCap_of_read hrow
  unfold all
  rw [bind_eq_ok_iff]
  constructor
  · rintro ⟨st, hfold, hok⟩
    obtain ⟨hrows, hbytes, rfl⟩ :=
      (foldlM_allStep_eq_ok_iff hl (Nat.zero_le _) (Nat.zero_le _)).mp hfold
    rw [List.length_nil, Nat.zero_add] at hrows
    rw [Nat.zero_add] at hbytes
    exact ⟨hrows, hbytes, (pure_eq_ok_iff.mp hok).symm⟩
  · rintro ⟨hrows, hbytes, rfl⟩
    refine ⟨_, (foldlM_allStep_eq_ok_iff hl (Nat.zero_le _) (Nat.zero_le _)).mpr
      ⟨?_, ?_, rfl⟩, rfl⟩
    · rwa [List.length_nil, Nat.zero_add]
    · rwa [Nat.zero_add]

/-- A scan of a log gives the records of the prints that are kept. -/
theorem rows_ofLog (log : List Written) :
    (ofLog log).rows = (log.filter fun e ↦ e.Kept).map Written.record := by
  induction log with
  | nil => rfl
  | cons e log ih =>
      have hcons : (ofLog (e :: log)).rows =
          ((e.row.read true).toList ++ (ofLog log).rows) := by
        unfold rows ofLog
        rw [List.map_cons, List.filterMap_cons]
        cases e.row.read true <;> rfl
      rw [hcons, ih, read_row]
      by_cases hkept : e.Kept
      · rw [if_pos hkept, List.filter_cons, if_pos (decide_eq_true hkept)]
        rfl
      · rw [if_neg hkept, List.filter_cons, if_neg (by simpa using hkept)]
        rfl

end Db

end Fnprint
