import Fnprint.Lib.Journal
import Fnprint.MemRefines

/-!
# Writes that fail half way

A print is written by one statement for its row and one for each of its bands,
and any statement may fail.  A batch is written inside a transaction, a single
print is not: one that fails between its statements stays with its first bands
only, and the lookup by the others misses it.
-/

namespace Fnprint

open Journal

/-! ## The statements of the two calls -/

namespace Db

/-- The row of a print, under the next rowid. -/
def addFunc (binary : String) (p : FuncPrint) (db : Db) : Except String Db := do
  let id ← db.nextId
  return { db with funcs := db.funcs ++ [rowOf id binary p] }

def addBand (db : Db) (b : BandRow) : Db := { db with bands := db.bands ++ [b] }

/-- The id of the row written last. -/
def lastInsertRowid : Call Db String Int64 := fun c ↦
  .ok ((c.store.funcs.getLast?.map FuncRow.id).getD 0) c

section Fate

variable (fate : ℕ → Option String)

def insertStmts (binary : String) (p : FuncPrint) : Call Db String Int64 := do
  exec fate (addFunc binary p)
  let id ← lastInsertRowid
  each fate addBand (bandRowsOf id p.fp)
  return id

def insertAllStmts (binary : String) (prints : List FuncPrint) : Call Db String ℕ := do
  transaction fate "cannot start a transaction within a transaction" do
    forM prints fun p ↦ do let _ ← insertStmts fate binary p; return
  return prints.length

/-- One of the public writes. -/
def writeStmts : Write → Call Db String Unit
  | .insert binary p => do let _ ← insertStmts fate binary p; return
  | .insertAll binary prints => do let _ ← insertAllStmts fate binary prints; return

/-- A connection to a fresh store after some writes, failed or not. -/
def connAfter (writes : List Write) : Conn Db :=
  writes.foldl (fun c w ↦ (writeStmts fate w).after c) ⟨fresh, none, 0⟩

end Fate

/-! ## One print -/

/-- The tables with one print more, as far as `k` of its bands. -/
def wrote (db : Db) (id : Int64) (binary : String) (p : FuncPrint) (k : ℕ) : Db :=
  { db with
    funcs := db.funcs ++ [rowOf id binary p]
    bands := db.bands ++ (bandRowsOf id p.fp).take k }

theorem foldl_addBand (l : List BandRow) (db : Db) :
    l.foldl addBand db = { db with bands := db.bands ++ l } := by
  induction l generalizing db with
  | nil => rw [List.foldl_nil, List.append_nil]
  | cons b l ih =>
      rw [List.foldl_cons, ih, addBand, List.append_assoc]
      rfl

section Insert

variable {fate : ℕ → Option String} {binary : String} {p : FuncPrint} {c : Conn Db}

theorem run_insertStmts_ok {id : Int64} (h : fate c.issued = none)
    (hid : c.store.nextId = .ok id) : (insertStmts fate binary p).run c =
      (do each fate addBand (bandRowsOf id p.fp); return id : Call Db String Int64).run
        (c.issue.put (c.store.wrote id binary p 0)) := by
  have hrow : addFunc binary p c.store = .ok (c.store.wrote id binary p 0) := by
    rw [addFunc, hid, wrote, List.take_zero, List.append_nil]
    rfl
  have hlast : lastInsertRowid.run (c.issue.put (c.store.wrote id binary p 0)) =
      .ok id (c.issue.put (c.store.wrote id binary p 0)) := by
    change EStateM.Result.ok
      (((c.store.funcs ++ [rowOf id binary p]).getLast?.map FuncRow.id).getD 0) _ = _
    rw [List.getLast?_concat]
    rfl
  rw [insertStmts, run_bind_ok (run_exec_ok h hrow), run_bind_ok hlast]

/-- The row is refused, or the bands are written up to the first that fails. -/
theorem insertStmts_cases (fate : ℕ → Option String) (binary : String) (p : FuncPrint)
    (c : Conn Db) :
    (∃ e, (insertStmts fate binary p).run c = .error e c.issue ∧
      ¬(fate c.issued = none ∧ ∃ id, c.store.nextId = .ok id)) ∨
    ∃ id, fate c.issued = none ∧ c.store.nextId = .ok id ∧
      ((∀ k < (bandRowsOf id p.fp).length, fate (c.issued + 1 + k) = none) ∧
        (insertStmts fate binary p).run c = .ok id
          ⟨c.store.wrote id binary p (bandRowsOf id p.fp).length, c.saved,
            c.issued + 1 + (bandRowsOf id p.fp).length⟩ ∨
      ∃ k < (bandRowsOf id p.fp).length, ∃ e, fate (c.issued + 1 + k) = some e ∧
        (insertStmts fate binary p).run c =
          .error e ⟨c.store.wrote id binary p k, c.saved, c.issued + 1 + k + 1⟩) := by
  cases hrow : fate c.issued with
  | some e =>
      refine Or.inl ⟨e, ?_, fun h ↦ nomatch h.1⟩
      rw [insertStmts, run_bind_error (run_exec_failed hrow)]
  | none =>
      cases hid : c.store.nextId with
      | error e =>
          refine Or.inl ⟨e, ?_, fun h ↦ nomatch h.2⟩
          have hrefused : addFunc binary p c.store = .error e := by
            rw [addFunc, hid]
            rfl
          rw [insertStmts, run_bind_error (run_exec_refused hrow hrefused)]
      | ok id =>
          refine Or.inr ⟨id, rfl, rfl, ?_⟩
          rw [run_insertStmts_ok hrow hid]
          have hfold (k : ℕ) : ((bandRowsOf id p.fp).take k).foldl addBand
              (c.store.wrote id binary p 0) = c.store.wrote id binary p k := by
            rw [foldl_addBand, wrote, wrote, List.take_zero, List.append_nil]
          rcases carried_or_cut fate (c.issued + 1) (bandRowsOf id p.fp).length with
            hall | ⟨k, hk, hbefore, e, hcut⟩
          · refine Or.inl ⟨hall, ?_⟩
            have hwhole := hfold (bandRowsOf id p.fp).length
            rw [List.take_length] at hwhole
            rw [run_bind_ok (run_each_ok hall), Conn.store_put, hwhole]
            rfl
          · refine Or.inr ⟨k, hk, e, hcut, ?_⟩
            rw [run_bind_error (run_each_cut hk hbefore hcut), Conn.store_put, hfold]
            rfl

theorem stays_insertStmts : (insertStmts fate binary p).Stays := by
  have hlast : lastInsertRowid.Stays := fun _ ↦ rfl
  refine stays_bind (stays_exec _) fun _ ↦ stays_bind hlast fun id ↦ ?_
  exact stays_bind (stays_forM (fun _ ↦ stays_exec _) _) fun _ ↦ stays_pure id

end Insert

end Db

/-! ## The tables of a run -/

/-- A print with the number of its band rows that were written. -/
structure Stored extends Written where
  done : ℕ

namespace Stored

/-- A full print has all its band rows. -/
def Whole (e : Stored) : Prop :=
  e.print.fp.sig.length = sigLen → e.bandRows.length ≤ e.done

end Stored

namespace Db

def ofStored (log : List Stored) : Db :=
  { funcs := log.map fun e ↦ e.row
    bands := log.flatMap fun e ↦ e.bandRows.take e.done
    hasCallees := true }

/-- A store holds what was written, under increasing ids. -/
structure Tracks (db : Db) (log : List Stored) : Prop where
  tables : db = ofStored log
  increasing : log.Pairwise fun e e' ↦ e.id < e'.id

variable {db : Db} {log : List Stored} {binary : String} {p : FuncPrint}

theorem tracks_fresh : fresh.Tracks [] := ⟨rfl, List.Pairwise.nil⟩

theorem Tracks.wrote (h : db.Tracks log) {id : Int64} (hid : db.nextId = .ok id) (k : ℕ) :
    (db.wrote id binary p k).Tracks (log ++ [⟨⟨id, binary, p⟩, k⟩]) := by
  obtain ⟨rfl, hlog⟩ := h
  have hnext : (ofStored log).nextId = (ofLog (log.map Stored.toWritten)).nextId := by
    simp only [nextId, ofStored, ofLog, List.map_map]
    rfl
  have hlast := lt_nextId (List.pairwise_map.mpr hlog) (hnext ▸ hid)
  constructor
  · simp [Db.wrote, ofStored, Written.row, Written.bandRows]
  · rw [List.pairwise_append]
    refine ⟨hlog, List.pairwise_singleton _ _, fun e he e' he' ↦ ?_⟩
    rw [List.mem_singleton.mp he']
    exact hlast _ (List.mem_map_of_mem he)

/-- Inside a transaction whole prints are written, one after the other. -/
theorem tracks_of_forM {fate : ℕ → Option String} {prints : List FuncPrint} {c c' : Conn Db}
    (h : c.store.Tracks log)
    (hrun : (forM prints fun p ↦ do let _ ← insertStmts fate binary p; return :
      Call Db String Unit).run c = .ok () c') :
    ∃ more, c'.store.Tracks (log ++ more) ∧ ∀ e ∈ more, e.Whole := by
  induction prints generalizing c log with
  | nil =>
      obtain rfl := (EStateM.Result.ok.inj hrun).2
      exact ⟨[], by rwa [List.append_nil], List.forall_mem_nil _⟩
  | cons p prints ih =>
      rw [List.forM_cons] at hrun
      rcases insertStmts_cases fate binary p c with ⟨e, hone, -⟩ |
        ⟨id, -, hid, ⟨-, hone⟩ | ⟨k, -, e, -, hone⟩⟩
      · rw [run_bind_error (run_bind_error hone)] at hrun
        cases hrun
      · have hfirst : (do let _ ← insertStmts fate binary p; return : Call Db String Unit).run c =
            .ok () _ := run_bind_ok hone
        rw [run_bind_ok hfirst] at hrun
        obtain ⟨more, hmore, hwhole⟩ := ih (h.wrote hid (bandRowsOf id p.fp).length) hrun
        refine ⟨_, by rwa [List.append_assoc] at hmore, fun e he ↦ ?_⟩
        rcases List.mem_cons.mp he with rfl | he
        · exact fun _ ↦ le_refl _
        · exact hwhole e he
      · rw [run_bind_error (run_bind_error hone)] at hrun
        cases hrun

/-! ## Whole runs -/

/-- A single full print is written, but not all of its bands. -/
def CutShort (fate : ℕ → Option String) (c : Conn Db) : Write → Prop
  | .insert _ p => p.fp.sig.length = sigLen ∧ fate c.issued = none ∧
      (∃ id, c.store.nextId = .ok id) ∧ ∃ k < Fnprint.bands, fate (c.issued + 1 + k) ≠ none
  | .insertAll _ _ => False

theorem length_bandRowsOf (id : Int64) {fp : Fingerprint} (h : fp.sig.length = sigLen) :
    (bandRowsOf id fp).length = Fnprint.bands := by
  rw [bandRowsOf, List.length_map, Fingerprint.slots, List.length_map, List.length_zipIdx,
    Fingerprint.bandKeys, List.length_map]
  exact Banding.length_chunks (by decide) (h.trans (by decide))

section Step

variable {fate : ℕ → Option String} {c : Conn Db}

theorem tracks_insert (h : c.store.Tracks log) (hc : c.saved = none) :
    ∃ more, ((writeStmts fate (.insert binary p)).after c).store.Tracks (log ++ more) ∧
      ((writeStmts fate (.insert binary p)).after c).saved = none ∧
      ((∀ e ∈ more, e.Whole) ↔ ¬CutShort fate c (.insert binary p)) := by
  rw [writeStmts, Call.after]
  rcases insertStmts_cases fate binary p c with ⟨e, hrun, hunwritten⟩ |
    ⟨id, hrow, hid, ⟨hall, hrun⟩ | ⟨k, hk, e, hcut, hrun⟩⟩
  · rw [run_bind_error hrun]
    refine ⟨[], by rwa [List.append_nil], hc, iff_of_true (List.forall_mem_nil _) fun hshort ↦ ?_⟩
    exact hunwritten ⟨hshort.2.1, hshort.2.2.1⟩
  · rw [run_bind_ok hrun]
    refine ⟨[⟨⟨id, binary, p⟩, (bandRowsOf id p.fp).length⟩], h.wrote hid _, hc, ?_⟩
    rw [List.forall_mem_singleton]
    refine iff_of_true (fun _ ↦ le_refl _) ?_
    rintro ⟨hfull, -, -, k, hk, hcut⟩
    rw [← length_bandRowsOf id hfull] at hk
    exact hcut (hall k hk)
  · rw [run_bind_error hrun]
    refine ⟨[⟨⟨id, binary, p⟩, k⟩], h.wrote hid k, hc, ?_⟩
    rw [List.forall_mem_singleton]
    constructor
    · rintro hwhole ⟨hfull, -⟩
      exact absurd hk (not_lt.mpr (hwhole hfull))
    · intro hlong hfull
      refine (hlong ⟨hfull, hrow, ⟨id, hid⟩, k, ?_, ?_⟩).elim
      · rwa [← length_bandRowsOf id hfull]
      · rw [hcut]
        exact Option.some_ne_none e

/-- A batch is written whole or not at all. -/
theorem tracks_insertAll {prints : List FuncPrint} (h : c.store.Tracks log)
    (hc : c.saved = none) :
    ∃ more, ((writeStmts fate (.insertAll binary prints)).after c).store.Tracks (log ++ more) ∧
      ((writeStmts fate (.insertAll binary prints)).after c).saved = none ∧
      ∀ e ∈ more, e.Whole := by
  have hbody : Call.Stays (forM prints fun p ↦ do
      let _ ← insertStmts fate binary p; return : Call Db String Unit) :=
    stays_forM (fun p ↦ stays_bind stays_insertStmts fun _ ↦ stays_pure ()) prints
  rw [writeStmts, Call.after, insertAllStmts]
  rcases @transaction_cases _ _ _ fate "cannot start a transaction within a transaction" _ _
      hc hbody with
    ⟨a, c', -, hrun, -, hdone⟩ | ⟨e, c', hrun, hstore, hsaved⟩
  · have hstart : c.issue.save.store.Tracks log := h
    obtain ⟨more, hmore, hwhole⟩ := tracks_of_forM hstart hrun
    have hall : (insertAllStmts fate binary prints).run c = .ok prints.length c'.issue.keep :=
      run_bind_ok hdone
    rw [insertAllStmts] at hall
    rw [run_bind_ok hall]
    exact ⟨more, hmore, rfl, hwhole⟩
  · rw [run_bind_error (run_bind_error hrun)]
    refine ⟨[], ?_, hsaved, List.forall_mem_nil _⟩
    rw [List.append_nil]
    exact hstore.symm ▸ h

theorem tracks_write (h : c.store.Tracks log) (hc : c.saved = none) (w : Write) :
    ∃ more, ((writeStmts fate w).after c).store.Tracks (log ++ more) ∧
      ((writeStmts fate w).after c).saved = none ∧
      ((∀ e ∈ more, e.Whole) ↔ ¬CutShort fate c w) := by
  cases w with
  | insert binary p => exact tracks_insert h hc
  | insertAll binary prints =>
      obtain ⟨more, hmore, hsaved, hwhole⟩ := tracks_insertAll h hc
      exact ⟨more, hmore, hsaved, iff_of_true hwhole id⟩

end Step

theorem connAfter_append (fate : ℕ → Option String) (writes : List Write) (w : Write) :
    connAfter fate (writes ++ [w]) = (writeStmts fate w).after (connAfter fate writes) := by
  rw [connAfter, List.foldl_append]
  rfl

/-- No write of a run cuts its print short. -/
def NeverCut (fate : ℕ → Option String) (writes : List Write) : Prop :=
  ∀ front w, front ++ [w] <+: writes → ¬CutShort fate (connAfter fate front) w

theorem neverCut_append_iff {fate : ℕ → Option String} {writes : List Write} {w : Write} :
    NeverCut fate (writes ++ [w]) ↔
      NeverCut fate writes ∧ ¬CutShort fate (connAfter fate writes) w := by
  constructor
  · intro h
    exact ⟨fun front w' hfront ↦ h front w' (hfront.trans (List.prefix_append _ _)),
      h writes w (List.prefix_refl _)⟩
  · rintro ⟨h, hlast⟩ front w' hfront
    rcases List.prefix_concat_iff.mp hfront with heq | hfront
    · obtain ⟨rfl, hw⟩ := List.append_inj' heq rfl
      obtain rfl := List.singleton_inj.mp hw
      exact hlast
    · exact h front w' hfront

theorem tracks_connAfter (fate : ℕ → Option String) (writes : List Write) :
    ∃ log, (connAfter fate writes).store.Tracks log ∧ (connAfter fate writes).saved = none ∧
      ((∀ e ∈ log, e.Whole) ↔ NeverCut fate writes) := by
  induction writes using List.reverseRecOn with
  | nil =>
      refine ⟨[], tracks_fresh, rfl, iff_of_true (List.forall_mem_nil _) fun front w h ↦ ?_⟩
      rw [List.prefix_nil] at h
      simp at h
  | append_singleton writes w ih =>
      obtain ⟨log, hlog, hsaved, hwhole⟩ := ih
      obtain ⟨more, hmore, hsaved', hwhole'⟩ := @tracks_write _ fate _ hlog hsaved w
      rw [← connAfter_append] at hmore hsaved'
      refine ⟨log ++ more, hmore, hsaved', ?_⟩
      rw [List.forall_mem_append, neverCut_append_iff, hwhole, hwhole']

/-! ## The two tables -/

/-- Every row with a full print has exactly its band rows, and no band row is
without its row. -/
structure BandsMatch (db : Db) : Prop where
  exact : ∀ row ∈ db.funcs, ∀ h : row.sig.length = sigBytes,
    (db.bands.filter fun b ↦ b.funcId = row.id).Perm
      (bandRowsOf row.id (rowToRec db.hasCallees row h).fp)
  refer : ∀ b ∈ db.bands, ∃ row ∈ db.funcs, row.id = b.funcId

/-- However the ids are enumerated, every row that is read and shares a band
with a print is a candidate for it. -/
def FindsSharing (db : Db) : Prop :=
  ∀ order : List Int64 → List Int64, (∀ ids, (order ids).Perm ids) →
    ∀ fp, ∀ row ∈ db.funcs, ∀ r, row.read db.hasCallees = some r → SharesBand fp r.fp →
      r ∈ db.candidates order fp

theorem filter_bands_ofStored (h : log.Pairwise fun e e' ↦ e.id < e'.id) {e : Stored}
    (he : e ∈ log) : ((ofStored log).bands.filter fun b ↦ b.funcId = e.id) =
      e.bandRows.take e.done := by
  have hown (e' : Stored) : (e'.bandRows.take e'.done).filter (fun b ↦ b.funcId = e.id) =
      if e'.id = e.id then e'.bandRows.take e'.done else [] := by
    have hid : ∀ b ∈ e'.bandRows.take e'.done, b.funcId = e'.id := by
      intro b hb
      obtain ⟨s, -, rfl⟩ := List.mem_map.mp (List.mem_of_mem_take hb)
      rfl
    split
    · next heq => exact List.filter_eq_self.mpr fun b hb ↦ decide_eq_true ((hid b hb).trans heq)
    · next hne =>
        refine List.filter_eq_nil_iff.mpr fun b hb ↦ ?_
        rw [hid b hb]
        exact Bool.eq_false_iff.mp (decide_eq_false hne)
  rw [ofStored, List.filter_flatMap]
  simp only [hown]
  induction log with
  | nil => cases he
  | cons e₀ log ih =>
      obtain ⟨hhead, htail⟩ := List.pairwise_cons.mp h
      rw [List.flatMap_cons]
      rcases List.mem_cons.mp he with rfl | he
      · have hrest : (log.flatMap fun e' ↦
            if e'.id = e.id then e'.bandRows.take e'.done else []) = [] := by
          rw [List.flatMap_eq_nil_iff]
          intro e' he'
          exact if_neg (Int64.ne_of_lt (hhead e' he')).symm
        rw [if_pos rfl, hrest, List.append_nil]
      · rw [if_neg (Int64.ne_of_lt (hhead e he)), List.nil_append]
        exact ih htail he

theorem bandsMatch_ofStored_iff (h : log.Pairwise fun e e' ↦ e.id < e'.id) :
    (ofStored log).BandsMatch ↔ ∀ e ∈ log, e.Whole := by
  constructor
  · intro hmatch e he hfull
    have hsig := (length_sig_row e.toWritten).mpr hfull
    have hexact := hmatch.exact e.row (List.mem_map_of_mem he) hsig
    have hfp : (rowToRec true e.row hsig).fp = e.print.fp := by
      rw [rowToRec_row]
      rfl
    change (List.filter (fun b ↦ b.funcId = e.id) (ofStored log).bands).Perm
      (bandRowsOf e.id (rowToRec true e.row hsig).fp) at hexact
    rw [filter_bands_ofStored h he, hfp] at hexact
    have hlen := hexact.length_eq
    change (e.bandRows.take e.done).length = e.bandRows.length at hlen
    rw [List.length_take] at hlen
    omega
  · intro hwhole
    constructor
    · intro row hrow hsig
      obtain ⟨e, he, rfl⟩ := List.mem_map.mp hrow
      have hfull := (length_sig_row e.toWritten).mp hsig
      have hfp : (rowToRec true e.row hsig).fp = e.print.fp := by
        rw [rowToRec_row]
        rfl
      change (List.filter (fun b ↦ b.funcId = e.id) (ofStored log).bands).Perm
        (bandRowsOf e.id (rowToRec true e.row hsig).fp)
      rw [filter_bands_ofStored h he, hfp, List.take_of_length_le (hwhole e he hfull)]
      exact List.Perm.refl _
    · intro b hb
      obtain ⟨e, he, hb⟩ := List.mem_flatMap.mp hb
      obtain ⟨s, -, rfl⟩ := List.mem_map.mp (List.mem_of_mem_take hb)
      exact ⟨e.row, List.mem_map_of_mem he, rfl⟩

/-- Whole prints are found by each of their bands. -/
theorem findsSharing_ofStored (h : log.Pairwise fun e e' ↦ e.id < e'.id)
    (hwhole : ∀ e ∈ log, e.Whole) : (ofStored log).FindsSharing := by
  intro order horder fp row hrow r hread hshare
  obtain ⟨e, he, rfl⟩ := List.mem_map.mp hrow
  change e.row.read true = some r at hread
  have hlog : (log.map Stored.toWritten).Pairwise fun e e' ↦ e.id < e'.id :=
    List.pairwise_map.mpr h
  have hfind : (ofStored log).find e.id = some r := by
    have hrows : (ofStored log).find e.id = (ofLog (log.map Stored.toWritten)).find e.id := by
      simp only [find, ofStored, ofLog, List.map_map]
      rfl
    rw [hrows, find_ofLog hlog (List.mem_map_of_mem he), ← read_row, hread]
  rw [read_row] at hread
  split at hread
  · next hkept =>
      obtain rfl := Option.some.inj hread
      obtain ⟨s, hs, hse⟩ := hshare
      rw [candidates, List.mem_filterMap]
      refine ⟨e.id, ?_, hfind⟩
      rw [(horder _).mem_iff, List.mem_dedup, bandIds, List.mem_flatMap]
      refine ⟨s, hs, List.mem_map.mpr ⟨⟨Int64.ofNat s.1, s.2.toInt64, e.id⟩, ?_, rfl⟩⟩
      rw [List.mem_filter]
      refine ⟨List.mem_flatMap.mpr ⟨e, he, ?_⟩, decide_eq_true ⟨rfl, rfl⟩⟩
      rw [List.take_of_length_le (hwhole e he hkept.1)]
      exact List.mem_map.mpr ⟨s, hse, rfl⟩
  · cases hread

theorem bandsMatch_iff_neverCut (fate : ℕ → Option String) (writes : List Write) :
    (connAfter fate writes).store.BandsMatch ↔ NeverCut fate writes := by
  obtain ⟨log, ⟨htables, hlog⟩, -, hwhole⟩ := tracks_connAfter fate writes
  rw [htables, bandsMatch_ofStored_iff hlog, hwhole]

/-- The tables match, and every sharing row is found, exactly as long as no
single full print was cut short. -/
theorem connAfter_bandsMatch_iff (fate : ℕ → Option String) (writes : List Write) :
    ((connAfter fate writes).store.BandsMatch ∧ (connAfter fate writes).store.FindsSharing) ↔
      NeverCut fate writes := by
  rw [bandsMatch_iff_neverCut]
  refine and_iff_left_of_imp fun h ↦ ?_
  obtain ⟨log, ⟨htables, hlog⟩, -, hwhole⟩ := tracks_connAfter fate writes
  rw [htables]
  exact findsSharing_ofStored hlog (hwhole.mpr h)

/-! ## Without failures -/

section Carried

variable {fate : ℕ → Option String} (hfate : ∀ n, fate n = none) {c : Conn Db}
include hfate

theorem run_insertStmts_eq {id : Int64} (hok : c.store.insert binary p = .ok (db, id)) :
    ∃ n, (insertStmts fate binary p).run c = .ok id ⟨db, c.saved, n⟩ := by
  obtain ⟨id', hid, hok⟩ := Fallible.bind_eq_ok_iff.mp hok
  obtain ⟨rfl, rfl⟩ := Prod.mk.inj (Fallible.pure_eq_ok_iff.mp hok)
  rcases insertStmts_cases fate binary p c with ⟨e, -, hrefused⟩ |
    ⟨id, -, hid', ⟨-, hrun⟩ | ⟨k, -, e, hcut, -⟩⟩
  · exact (hrefused ⟨hfate _, id', hid⟩).elim
  · obtain rfl := Except.ok.inj (hid'.symm.trans hid)
    rw [hrun, wrote, List.take_length]
    exact ⟨_, rfl⟩
  · rw [hfate] at hcut
    cases hcut

theorem run_forM_insertStmts_eq {prints : List FuncPrint}
    (hok : prints.foldlM (fun db p ↦ do
      let inserted ← db.insert binary p
      return inserted.1) c.store = .ok db) :
    ∃ n, (forM prints fun p ↦ do let _ ← insertStmts fate binary p; return :
      Call Db String Unit).run c = .ok () ⟨db, c.saved, n⟩ := by
  induction prints generalizing c with
  | nil =>
      rw [List.foldlM_nil, Fallible.pure_eq_ok_iff] at hok
      exact ⟨c.issued, by rw [← hok]; rfl⟩
  | cons p prints ih =>
      obtain ⟨db₁, hone, hrest⟩ := Fallible.foldlM_cons_eq_ok_iff.mp hok
      obtain ⟨⟨db₂, id⟩, hins, heq⟩ := Fallible.bind_eq_ok_iff.mp hone
      obtain rfl := Fallible.pure_eq_ok_iff.mp heq
      obtain ⟨n, hrun⟩ := run_insertStmts_eq hfate hins
      have hfirst : (do let _ ← insertStmts fate binary p; return : Call Db String Unit).run c =
          .ok () ⟨db₂, c.saved, n⟩ := run_bind_ok hrun
      rw [List.forM_cons, run_bind_ok hfirst]
      exact ih (c := ⟨db₂, c.saved, n⟩) hrest

theorem after_writeStmts_eq (hc : c.saved = none) {w : Write} (hok : c.store.write w = .ok db) :
    ((writeStmts fate w).after c).store = db ∧ ((writeStmts fate w).after c).saved = none := by
  cases w with
  | insert binary p =>
      obtain ⟨r, hins, rfl⟩ := Fallible.map_eq_ok_iff.mp hok
      obtain ⟨n, hrun⟩ := run_insertStmts_eq hfate hins
      rw [writeStmts, Call.after, run_bind_ok hrun]
      exact ⟨rfl, hc⟩
  | insertAll binary prints =>
      obtain ⟨r, hins, rfl⟩ := Fallible.map_eq_ok_iff.mp hok
      obtain ⟨db₁, hloop, heq⟩ := Fallible.bind_eq_ok_iff.mp hins
      obtain rfl := Fallible.pure_eq_ok_iff.mp heq
      obtain ⟨n, hrun⟩ := run_forM_insertStmts_eq hfate (c := c.issue.save) hloop
      have hbody : (do
          let a ← (forM prints fun p ↦ do let _ ← insertStmts fate binary p; return :
            Call Db String Unit)
          commit fate
          return a : Call Db String Unit).run c.issue.save =
          .ok () (Conn.keep ⟨db₁, some c.store, n + 1⟩) := by
        rw [run_bind_ok hrun, EStateM.run_bind, run_commit, hfate]
        rfl
      have hall : (insertAllStmts fate binary prints).run c =
          .ok prints.length (Conn.keep ⟨db₁, some c.store, n + 1⟩) := by
        rw [insertAllStmts, transaction, bind_assoc, run_bind_ok (run_begin_ok (hfate _) hc),
          EStateM.run_bind, run_dropping, hbody]
        rfl
      rw [writeStmts, Call.after, run_bind_ok hall]
      exact ⟨rfl, rfl⟩

end Carried

/-- Without failures the statements write the same tables as the two calls. -/
theorem connAfter_refines {writes : List Write} (hok : Db.writes writes = .ok db) :
    (connAfter (fun _ ↦ none) writes).store = db := by
  have hboth : (connAfter (fun _ ↦ none) writes).store = db ∧
      (connAfter (fun _ ↦ none) writes).saved = none := by
    induction writes using List.reverseRecOn generalizing db with
    | nil => exact ⟨Except.ok.inj hok, rfl⟩
    | append_singleton writes w ih =>
        rw [Db.writes, List.foldlM_append] at hok
        obtain ⟨db₁, hfront, hlast⟩ := Fallible.bind_eq_ok_iff.mp hok
        obtain ⟨hstore, hsaved⟩ := ih hfront
        obtain ⟨db₂, hw, hnil⟩ := Fallible.foldlM_cons_eq_ok_iff.mp hlast
        obtain rfl := Fallible.pure_eq_ok_iff.mp hnil
        rw [connAfter_append]
        exact after_writeStmts_eq (fun _ ↦ rfl) hsaved (hstore.symm ▸ hw)
  exact hboth.1

/-! ## A print without bands -/

/-- The second statement of a run fails. -/
def secondFails (n : ℕ) : Option String := if n = 1 then some "disk I/O error" else none

/-- The row of a full print is stored, and the failure of its first band row
leaves it without any. -/
theorem cut_insert_unmatched :
    ¬((connAfter secondFails
        [.insert "a.bin" ⟨some "f", 0x10, "symtab", constPrint 7, []⟩]).store.BandsMatch ∧
      (connAfter secondFails
        [.insert "a.bin" ⟨some "f", 0x10, "symtab", constPrint 7, []⟩]).store.FindsSharing) := by
  rintro ⟨hmatch, -⟩
  have hcut := (bandsMatch_iff_neverCut _ _).mp hmatch [] _ (List.prefix_refl _)
  exact hcut ⟨rfl, rfl, ⟨1, rfl⟩, 0, by decide, by decide⟩

end Db

end Fnprint
