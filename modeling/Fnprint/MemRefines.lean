import Fnprint.StoreLog
import Fnprint.TriageExact

/-!
# The in-memory corpus and the store

The store writes its band rows when a print is written and filters its records
when they are read; the in-memory corpus is built from the filtered records.
Both answer a query with the same candidates, and so with the same best.
-/

namespace Fnprint

open Fallible

/-! ## The band rows -/

theorem lt_of_mem_slots {fp : Fingerprint} {s : ℕ × UInt64} (h : s ∈ fp.slots) : s.1 < 2 ^ 64 := by
  have hfits := fp.sig_fits
  obtain ⟨hlt, -⟩ := List.getElem?_eq_some_iff.mp (mem_slots.mp h)
  rw [Fingerprint.bandKeys, List.length_map, Banding.chunks, List.length_map,
    List.length_range] at hlt
  have hle : (fp.sig.length + max bandRows 1 - 1) / max bandRows 1 ≤ fp.sig.length := by
    rw [show max bandRows 1 = 4 from rfl]
    omega
  omega

theorem ofNat64_injOn {m n : ℕ} (hm : m < 2 ^ 64) (hn : n < 2 ^ 64)
    (h : Int64.ofNat m = Int64.ofNat n) : m = n := by
  have hword : UInt64.ofNat m = UInt64.ofNat n := congrArg Int64.toUInt64 h
  have hnat := congrArg UInt64.toNat hword
  rwa [UInt64.toNat_ofNat_of_lt' hm, UInt64.toNat_ofNat_of_lt' hn] at hnat

theorem toInt64_injective {v w : UInt64} (h : v.toInt64 = w.toInt64) : v = w := by
  have hword := congrArg Int64.toUInt64 h
  rwa [UInt64.toUInt64_toInt64, UInt64.toUInt64_toInt64] at hword

section Log

variable {log : List Written}

theorem mem_bandIds_ofLog {fp : Fingerprint} {id : Int64} :
    id ∈ (Db.ofLog log).bandIds fp ↔ ∃ e ∈ log, e.id = id ∧ SharesBand fp e.print.fp := by
  simp only [Db.bandIds, Db.ofLog, List.mem_flatMap, List.mem_map, List.mem_filter,
    decide_eq_true_eq, Written.bandRows, bandRowsOf]
  constructor
  · rintro ⟨s, hs, b, ⟨⟨e, he, t, ht, rfl⟩, hband, hkey⟩, rfl⟩
    have hst : t = s :=
      Prod.ext (ofNat64_injOn (lt_of_mem_slots ht) (lt_of_mem_slots hs) hband)
        (toInt64_injective hkey)
    exact ⟨e, he, rfl, s, hs, hst ▸ ht⟩
  · rintro ⟨e, he, rfl, s, hs, hse⟩
    exact ⟨s, hs, _, ⟨⟨e, he, s, hse, rfl⟩, rfl, rfl⟩, rfl⟩

theorem find_ofLog (h : log.Pairwise fun e e' ↦ e.id < e'.id) {e : Written} (he : e ∈ log) :
    (Db.ofLog log).find e.id = if e.Kept then some e.record else none := by
  have hfind : (log.map Written.row).find? (fun row ↦ row.id = e.id) = some e.row := by
    induction log with
    | nil => cases he
    | cons e₀ log ih =>
        obtain ⟨hhead, htail⟩ := List.pairwise_cons.mp h
        rw [List.map_cons, List.find?_cons]
        rcases List.mem_cons.mp he with rfl | he
        · simp [Written.row, rowOf]
        · have hne : e₀.row.id ≠ e.id := Int64.ne_of_lt (hhead e he)
          simp only [hne, decide_false]
          exact ih htail he
  rw [Db.find, Db.ofLog, hfind, Option.bind_some, read_row]

/-- Whatever the order its ids are enumerated in, the store returns the kept
prints sharing a band. -/
theorem mem_candidates_ofLog (h : log.Pairwise fun e e' ↦ e.id < e'.id)
    {order : List Int64 → List Int64} (horder : ∀ ids, (order ids).Perm ids) {fp : Fingerprint}
    {r : FuncRec} : r ∈ (Db.ofLog log).candidates order fp ↔
      ∃ e ∈ log, e.Kept ∧ SharesBand fp e.print.fp ∧ e.record = r := by
  rw [Db.candidates, List.mem_filterMap]
  constructor
  · rintro ⟨id, hid, hr⟩
    rw [(horder _).mem_iff, List.mem_dedup, mem_bandIds_ofLog] at hid
    obtain ⟨e, he, rfl, hshare⟩ := hid
    rw [find_ofLog h he] at hr
    split at hr
    · next hkept => exact ⟨e, he, hkept, hshare, Option.some.inj hr⟩
    · cases hr
  · rintro ⟨e, he, hkept, hshare, rfl⟩
    refine ⟨e.id, ?_, ?_⟩
    · rw [(horder _).mem_iff, List.mem_dedup, mem_bandIds_ofLog]
      exact ⟨e, he, rfl, hshare⟩
    · rw [find_ofLog h he, if_pos hkept]

theorem nodup_rows_ofLog (h : log.Pairwise fun e e' ↦ e.id < e'.id) :
    (Db.ofLog log).rows.Nodup := by
  rw [Db.rows_ofLog, List.Nodup, List.pairwise_map]
  refine (h.filter _).imp fun hlt heq ↦ ?_
  exact Int64.ne_of_lt hlt (congrArg FuncRec.id heq)

end Log

/-! ## The two corpora -/

/-- The best depends on the rows of the pool, not on their order. -/
theorem scan_congr {fp : Fingerprint} {pool pool' : List FuncRec}
    (h : ∀ r, r ∈ pool ↔ r ∈ pool') : scan fp pool = scan fp pool' := by
  have hsome : ∀ {p q : List FuncRec}, (∀ r, r ∈ p ↔ r ∈ q) → ∀ b, scan fp p = some b →
      scan fp q = some b := by
    intro p q hpq b hb
    refine scan_eq_of_isLE hb (fun r hr _ ↦ (hpq r).mpr hr) ?_
    obtain ⟨r, hr, hrest⟩ := (isBest_of_scan hb).attained
    exact mem_filterMap_liveKey.mpr ⟨r, (hpq r).mp hr, hrest⟩
  cases hs : scan fp pool with
  | some b => exact (hsome h b hs).symm
  | none =>
      cases hs' : scan fp pool' with
      | none => rfl
      | some b =>
          have hback := hsome (fun r ↦ (h r).symm) b hs'
          rw [hs] at hback
          cases hback

/-- An in-memory corpus that answers a query like the store it was read from. -/
structure Refines (recs : List FuncRec) (db : Db) (order : List Int64 → List Int64)
    (fp : Fingerprint) : Prop where
  candidates : ∀ r, r ∈ (MemCorpus.fromRecords recs).candidates fp ↔ r ∈ db.candidates order fp
  in_order : ((MemCorpus.fromRecords recs).candidates fp).Sublist recs
  once : ((MemCorpus.fromRecords recs).candidates fp).Nodup
  best : bestInCorpus fp (MemCorpus.fromRecords recs).toCorpus (recs.filter fun r ↦ r.name.isSome) =
    bestInCorpus fp (db.toCorpus order) (recs.filter fun r ↦ r.name.isSome)

/-- However the store was written and its id sets are enumerated, the corpus
read from it refines it. -/
theorem memCorpus_refines {writes : List Write} {db : Db} (hdb : Db.writes writes = .ok db)
    {recs : List FuncRec} (hall : db.all = .ok recs) {order : List Int64 → List Int64}
    (horder : ∀ ids, (order ids).Perm ids) (fp : Fingerprint) : Refines recs db order fp := by
  obtain ⟨log, rfl, hincreasing⟩ := Db.exists_holds_writes hdb
  obtain ⟨-, -, rfl⟩ := Db.all_eq_ok_iff.mp hall
  have hmem := candidates_fromRecords (Db.ofLog log).rows fp
  have hcands : ∀ r, r ∈ (MemCorpus.fromRecords (Db.ofLog log).rows).candidates fp ↔
      r ∈ (Db.ofLog log).candidates order fp := by
    intro r
    rw [hmem, mem_candidates_ofLog hincreasing horder, Db.rows_ofLog, List.mem_filter,
      List.mem_map]
    constructor
    · rintro ⟨⟨e, he, rfl⟩, hshare⟩
      obtain ⟨he, hkept⟩ := List.mem_filter.mp he
      exact ⟨e, he, of_decide_eq_true hkept, of_decide_eq_true hshare, rfl⟩
    · rintro ⟨e, he, hkept, hshare, rfl⟩
      exact ⟨⟨e, List.mem_filter.mpr ⟨he, decide_eq_true hkept⟩, rfl⟩, decide_eq_true hshare⟩
  refine ⟨hcands, ?_, ?_, ?_⟩
  · rw [hmem]
    exact List.filter_sublist
  · rw [hmem]
    exact (nodup_rows_ofLog hincreasing).filter _
  · have hempty : ((MemCorpus.fromRecords (Db.ofLog log).rows).candidates fp).isEmpty =
        ((Db.ofLog log).candidates order fp).isEmpty := by
      rw [Bool.eq_iff_iff, List.isEmpty_iff, List.isEmpty_iff, List.eq_nil_iff_forall_not_mem,
        List.eq_nil_iff_forall_not_mem]
      exact forall_congr' fun r ↦ not_congr (hcands r)
    change Except.ok _ = Except.ok _
    congr 1
    rw [hempty]
    split
    · rfl
    · exact scan_congr hcands

/-- A full print next to one whose signature has a single slot. -/
def mixedWrites : List Write :=
  [.insert "lib" ⟨some "f", 0x10, "symtab", constPrint 7, []⟩,
    .insertAll "lib" [⟨none, 0x20, "symtab", ⟨[7], 5, 9, false, by decide⟩, [0x10]⟩]]

theorem memCorpus_refines_mixed : ∃ db recs, Db.writes mixedWrites = .ok db ∧
    db.all = .ok recs ∧ Refines recs db List.reverse (constPrint 7) := by
  have hok : ((Db.writes mixedWrites).bind Db.all).isOk = true := by decide +kernel
  cases hdb : Db.writes mixedWrites with
  | error e =>
      rw [hdb] at hok
      cases hok
  | ok db =>
      rw [hdb] at hok
      change db.all.isOk = true at hok
      cases hall : db.all with
      | error e =>
          rw [hall] at hok
          cases hok
      | ok recs =>
          exact ⟨db, recs, rfl, hall, memCorpus_refines hdb hall List.reverse_perm (constPrint 7)⟩

end Fnprint
