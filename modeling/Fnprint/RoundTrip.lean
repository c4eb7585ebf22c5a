import Fnprint.Eval
import Fnprint.LoadIndex
import Fnprint.Query

/-!
# An index through a corpus file

An index written to a fresh file comes back as the records of its functions, in
order and complete up to the cap on the callees.  The comparisons look at
nothing that is lost on the way.
-/

namespace Fnprint

open Fallible StableSort KeyMap

/-! ## Writing an index -/

/-- The log of one batch into a fresh store. -/
def logOf (binary : String) (prints : List FuncPrint) : List Written :=
  prints.zipIdx.map fun p ↦ ⟨Int64.ofNat (p.2 + 1), binary, p.1⟩

theorem logOf_append_singleton (binary : String) (prints : List FuncPrint) (p : FuncPrint) :
    logOf binary (prints ++ [p]) =
      logOf binary prints ++ [⟨Int64.ofNat (prints.length + 1), binary, p⟩] := by
  rw [logOf, List.zipIdx_append, List.map_append, ← logOf]
  simp

theorem nextId_logOf {binary : String} {prints : List FuncPrint} (h : prints.length < 2 ^ 63 - 1) :
    (Db.ofLog (logOf binary prints)).nextId = .ok (Int64.ofNat (prints.length + 1)) := by
  rcases List.eq_nil_or_concat prints with rfl | ⟨prints, p, rfl⟩
  · rfl
  · rw [List.concat_eq_append] at h ⊢
    rw [List.length_append, List.length_singleton] at h ⊢
    rw [logOf_append_singleton, Db.nextId_ofLog_append]
    have hmax : Int64.ofNat (prints.length + 1) ≠ Int64.maxValue := by
      intro heq
      have hint := congrArg Int64.toInt heq
      have htop : Int64.maxValue.toInt = 2 ^ 63 - 1 := by decide
      rw [Int64.toInt_ofNat_of_lt (by omega), htop] at hint
      omega
    rw [if_neg hmax]
    exact congrArg Except.ok (Int64.ofNat_add _ 1).symm

theorem foldlM_insert_fresh (binary : String) {prints : List FuncPrint}
    (h : prints.length < 2 ^ 63) :
    prints.foldlM (fun db p ↦ do
      let inserted ← db.insert binary p
      return inserted.1) Db.fresh = (.ok (Db.ofLog (logOf binary prints)) : Except String Db) := by
  induction prints using List.reverseRecOn with
  | nil => rfl
  | append_singleton prints p ih =>
      rw [List.length_append, List.length_singleton] at h
      have hinsert : (Db.ofLog (logOf binary prints)).insert binary p =
          .ok (Db.ofLog (logOf binary (prints ++ [p])), Int64.ofNat (prints.length + 1)) := by
        rw [Db.insert_ofLog, nextId_logOf (by omega), logOf_append_singleton]
        rfl
      rw [List.foldlM_append, bind_eq_ok_iff]
      exact ⟨_, ih (by omega), foldlM_cons_eq_ok_iff.mpr
        ⟨_, bind_eq_ok_iff.mpr ⟨_, hinsert, rfl⟩, rfl⟩⟩

theorem insertAll_fresh (binary : String) {prints : List FuncPrint} (h : prints.length < 2 ^ 63) :
    Db.fresh.insertAll binary prints =
      .ok (Db.ofLog (logOf binary prints), prints.length) := by
  rw [Db.insertAll, foldlM_insert_fresh binary h]
  rfl

/-! ## Reading it back -/

/-- The records of an index: everything but the coverage, the callees up to the
cap. -/
def recordsOf (binary : String) (funcs : List IndexedFunc) : List FuncRec :=
  funcs.zipIdx.map fun p ↦
    { id := Int64.ofNat (p.2 + 1)
      binary := binary
      name := p.1.name
      entry := p.1.entry
      source := sourceStr p.1.source
      fp := p.1.fp
      callees := p.1.callees.take maxCallees }

/-- Full signatures, texts within the cap, and a total within the budget. -/
structure Storable (binary : String) (funcs : List IndexedFunc) : Prop where
  sig : ∀ f ∈ funcs, f.fp.sig.length = sigLen
  binary_le : binary.utf8ByteSize ≤ maxText
  name_le : ∀ f ∈ funcs, textLen f.name ≤ maxText
  total_le : ((recordsOf binary funcs).map recBytes).sum ≤ maxTotalBytes

theorem sourceStr_le (source : FuncSource) : (sourceStr source).utf8ByteSize ≤ maxText := by
  cases source <;> decide

theorem length_recordsOf (binary : String) (funcs : List IndexedFunc) :
    (recordsOf binary funcs).length = funcs.length := by
  rw [recordsOf, List.length_map, List.length_zipIdx]

/-- Every row costs its signature, so the budget bounds the rows too. -/
theorem Storable.length_le {binary : String} {funcs : List IndexedFunc}
    (h : Storable binary funcs) : funcs.length ≤ 2 ^ 18 := by
  have hsum : ((recordsOf binary funcs).map recBytes).length • sigBytes ≤
      ((recordsOf binary funcs).map recBytes).sum := by
    apply List.card_nsmul_le_sum
    intro n hn
    obtain ⟨r, -, rfl⟩ := List.mem_map.mp hn
    exact sigBytes_le_recBytes r
  have htotal := hsum.trans h.total_le
  rw [List.length_map, length_recordsOf, smul_eq_mul] at htotal
  unfold sigBytes sigLen maxTotalBytes at htotal
  omega

theorem rows_logOf {binary : String} {funcs : List IndexedFunc} (h : Storable binary funcs) :
    (Db.ofLog (logOf binary (printsOf funcs))).rows = recordsOf binary funcs := by
  have hkept : ∀ e ∈ logOf binary (printsOf funcs), e.Kept := by
    intro e he
    obtain ⟨⟨p, i⟩, hp, rfl⟩ := List.mem_map.mp he
    obtain ⟨f, hf, rfl⟩ := List.mem_map.mp (List.fst_mem_of_mem_zipIdx hp)
    refine ⟨h.sig f hf, ?_⟩
    simp only [FuncRow.textFits, Written.row, rowOf, Bool.and_eq_true]
    exact ⟨⟨decide_eq_true h.binary_le, decide_eq_true (h.name_le f hf)⟩,
      decide_eq_true (sourceStr_le f.source)⟩
  rw [Db.rows_ofLog, List.filter_eq_self.mpr fun e he ↦ decide_eq_true (hkept e he), logOf,
    printsOf, List.zipIdx_map, List.map_map, List.map_map]
  rfl

/-- A storable index is written and comes back as its records. -/
theorem index_round_trip {binary : String} {funcs : List IndexedFunc}
    (h : Storable binary funcs) :
    Db.fresh.insertAll binary (printsOf funcs) =
      .ok (Db.ofLog (logOf binary (printsOf funcs)), funcs.length) ∧
    (Db.ofLog (logOf binary (printsOf funcs))).all = .ok (recordsOf binary funcs) := by
  have hlen := h.length_le
  have hprints : (printsOf funcs).length = funcs.length := List.length_map _
  refine ⟨?_, ?_⟩
  · rw [insertAll_fresh binary (by omega), hprints]
  · rw [Db.all_eq_ok_iff, rows_logOf h, length_recordsOf]
    exact ⟨hlen.trans (by decide), h.total_le, rfl⟩

/-! ## What the comparisons look at -/

namespace IndexedFunc

/-- A function without what a corpus file does not keep. -/
def plain (f : IndexedFunc) : IndexedFunc := { f with source := .symtab, coverage := 1.0 }

end IndexedFunc

open IndexedFunc

theorem funcAt_map_plain (l : List IndexedFunc) (i : ℕ) :
    funcAt (l.map plain) i = (funcAt l i).plain := by
  rw [funcAt, funcAt, List.getD_eq_getElem?_getD, List.getD_eq_getElem?_getD, List.getElem?_map]
  cases l[i]? <;> rfl

theorem nodes_map_plain (l : List IndexedFunc) :
    (l.map plain).map Node.fromIndexed = l.map Node.fromIndexed := by
  rw [List.map_map]
  rfl

section Plain

variable (a b : List IndexedFunc)

theorem nameMap_map_plain : nameMap (a.map plain) = nameMap a := by
  rw [nameMap, indexByOpt, List.zipIdx_map, List.filterMap_map]
  rfl

theorem tally_map_plain (rep : MatchReport) (v : Visit) :
    tally (a.map plain) (b.map plain) rep v = tally a b rep v := by
  cases v with
  | compared name i j =>
      rw [tally, tally, funcAt_map_plain, funcAt_map_plain]
      rfl
  | onlyA name i => rfl

theorem matchByName_map_plain :
    matchByName (a.map plain) (b.map plain) = matchByName a b := by
  have hvisits : visits (a.map plain) (b.map plain) = visits a b := by
    rw [visits, nameMap_map_plain, nameMap_map_plain, ← visits]
  have honly : unmatchedB (a.map plain) (b.map plain) = unmatchedB a b := by
    rw [unmatchedB, nameMap_map_plain, nameMap_map_plain, ← unmatchedB]
  have htally : tally (a.map plain) (b.map plain) = tally a b := by
    funext rep v
    exact tally_map_plain a b rep v
  rw [matchByName, hvisits, honly, htally, ← matchByName]

theorem label_unpaired_map_plain (paired : List Bool) :
    (unpaired (a.map plain) paired).map label = (unpaired a paired).map label := by
  rw [unpaired, unpaired, List.zipIdx_map, List.filter_map, List.map_map, List.map_map,
    List.map_map]
  rfl

theorem matchAligned_map_plain (w : Float) :
    matchAligned (a.map plain) (b.map plain) w = matchAligned a b w := by
  have hread : readPair (a.map plain) (b.map plain) = readPair a b := by
    funext rep p
    rw [readPair, readPair, funcAt_map_plain, funcAt_map_plain]
    rfl
  have hlow : (a.map plain).countP (fun f ↦ lowSignal f.fp) = a.countP fun f ↦ lowSignal f.fp := by
    rw [List.countP_map]
    rfl
  rw [matchAligned, matchAligned, nodes_map_plain, nodes_map_plain, hread, hlow,
    label_unpaired_map_plain, label_unpaired_map_plain, List.length_map, List.length_map]

theorem evalStep_map_plain (partner : Map ℕ Pair) (res : EvalResult) (p : IndexedFunc × ℕ) :
    evalStep (signalNamed (b.map plain)) (b.map plain) partner res (p.1.plain, p.2) =
      evalStep (signalNamed b) b partner res p := by
  have hsignal : signalNamed (b.map plain) = (signalNamed b).map plain := by
    rw [signalNamed, List.filter_map]
    rfl
  have hrank : ∀ fp, rankNames ((signalNamed b).map plain) fp = rankNames (signalNamed b) fp := by
    intro fp
    rw [rankNames, List.filterMap_map]
    rfl
  have hany : ∀ aname, ((signalNamed b).map plain).any (fun f ↦ f.name == some aname) =
      (signalNamed b).any fun f ↦ f.name == some aname := by
    intro aname
    rw [List.any_map]
    rfl
  have hpartner : ∀ (res : EvalResult) aname q,
      res.countPartner aname (b.map plain) q = res.countPartner aname b q := by
    intro res aname q
    cases q with
    | none => rfl
    | some q =>
        rw [EvalResult.countPartner, EvalResult.countPartner, funcAt_map_plain]
        rfl
  rw [evalStep, evalStep, hsignal]
  simp only [hrank, hany, hpartner]
  rfl

theorem eval_map_plain (w : Float) : eval (a.map plain) (b.map plain) w = eval a b w := by
  rw [eval, eval, nodes_map_plain, nodes_map_plain, List.zipIdx_map, List.foldl_map]
  congr 1
  funext res p
  exact evalStep_map_plain b _ res p

theorem queryCorpus_map_plain (corpus : Corpus) (t w : Float) :
    queryCorpus (a.map plain) corpus t w = queryCorpus a corpus t w := by
  have hnamed : ∀ recs, namedOf (a.map plain) recs = namedOf a recs := by
    intro recs
    funext p
    rw [namedOf, namedOf, funcAt_map_plain]
    rfl
  rw [queryCorpus, queryCorpus, nodes_map_plain]
  simp only [hnamed]

end Plain

/-- Two lists of functions that no comparison tells apart. -/
structure SameResults (l l' : List IndexedFunc) : Prop where
  byName : ∀ c, matchByName l c = matchByName l' c ∧ matchByName c l = matchByName c l'
  aligned : ∀ c w,
    matchAligned l c w = matchAligned l' c w ∧ matchAligned c l w = matchAligned c l' w
  eval : ∀ c w, eval l c w = eval l' c w ∧ eval c l w = eval c l' w
  query : ∀ corpus t w, queryCorpus l corpus t w = queryCorpus l' corpus t w

theorem sameResults_of_plain {l l' : List IndexedFunc} (h : l.map plain = l'.map plain) :
    SameResults l l' where
  byName c := by
    rw [← matchByName_map_plain l c, ← matchByName_map_plain c l, h, matchByName_map_plain,
      matchByName_map_plain]
    exact ⟨rfl, rfl⟩
  aligned c w := by
    rw [← matchAligned_map_plain l c, ← matchAligned_map_plain c l, h, matchAligned_map_plain,
      matchAligned_map_plain]
    exact ⟨rfl, rfl⟩
  eval c w := by
    rw [← eval_map_plain l c, ← eval_map_plain c l, h, eval_map_plain, eval_map_plain]
    exact ⟨rfl, rfl⟩
  query corpus t w := by
    rw [← queryCorpus_map_plain l, h, queryCorpus_map_plain]

/-! ## The round trip -/

/-- Within the cap on the callees the records are the functions again. -/
theorem loadIndex_recordsOf {binary : String} {funcs : List IndexedFunc}
    (h : ∀ f ∈ funcs, f.callees.length ≤ maxCallees) :
    (loadIndex (recordsOf binary funcs)).map plain = funcs.map plain := by
  have hfst : funcs.map plain = funcs.zipIdx.map fun p ↦ p.1.plain := by
    conv_lhs => rw [← List.zipIdx_map_fst 0 funcs, List.map_map]
    rfl
  rw [hfst, loadIndex, recordsOf, List.map_map, List.map_map]
  apply List.map_congr_left
  rintro ⟨f, i⟩ hp
  have hcallees := List.take_of_length_le (h f (List.fst_mem_of_mem_zipIdx hp))
  simp only [Function.comp_apply, plain, hcallees]

/-- A storable index comes back complete and in order, and a reader that gets
through the caps compares with it as with the index itself. -/
theorem corpus_round_trip {binary : String} {funcs : List IndexedFunc}
    (h : Storable binary funcs) :
    ∃ db, Db.fresh.insertAll binary (printsOf funcs) = .ok (db, funcs.length) ∧
      db.all = .ok (recordsOf binary funcs) ∧
      ((∀ f ∈ funcs, f.callees.length ≤ maxCallees) →
        ∀ link path size noSandbox,
          CorpusFile.Readable link ⟨path, size, db⟩ noSandbox →
          ∃ loaded, CorpusFile.loadIndex link ⟨path, size, db⟩ noSandbox = .ok loaded ∧
            SameResults loaded funcs) := by
  obtain ⟨hinsert, hall⟩ := index_round_trip h
  generalize Db.ofLog (logOf binary (printsOf funcs)) = db at hinsert hall
  refine ⟨db, hinsert, hall, fun hcallees link path size noSandbox hread ↦ ?_⟩
  have hsig : ∀ r ∈ recordsOf binary funcs, r.fp.sig.length = sigLen := by
    intro r hr
    obtain ⟨⟨f, i⟩, hp, rfl⟩ := List.mem_map.mp hr
    exact h.sig f (List.fst_mem_of_mem_zipIdx hp)
  refine ⟨loadIndex (recordsOf binary funcs), ?_,
    sameResults_of_plain (loadIndex_recordsOf hcallees)⟩
  have hload : loadCorpusRecords link ⟨path, size, db⟩ noSandbox =
      .ok (recordsOf binary funcs) := loadCorpusRecords_eq_ok hall hsig hread
  rw [CorpusFile.loadIndex, hload]
  rfl

def soloIndex : List IndexedFunc :=
  [⟨some "f", 0xffffffffffff0000, .symtab, constPrint 7, 0.5, [0x20]⟩]

theorem storable_soloIndex : Storable "lib" soloIndex where
  sig := by decide +kernel
  binary_le := by decide
  name_le := by decide
  total_le := by decide

theorem corpus_round_trip_solo :
    ∃ db loaded, Db.fresh.insertAll "lib" (printsOf soloIndex) = .ok (db, 1) ∧
      db.all = .ok (recordsOf "lib" soloIndex) ∧
      CorpusFile.loadIndex wireLink ⟨"lib.db", 8192, db⟩ false = .ok loaded ∧
      SameResults loaded soloIndex := by
  obtain ⟨db, hinsert, hall, hload⟩ := corpus_round_trip storable_soloIndex
  have hread : CorpusFile.Readable wireLink ⟨"lib.db", 8192, db⟩ false := by
    refine Or.inr ⟨show 8192 ≤ maxInput by decide, ?_⟩
    rw [dbload, hall]
    decide +kernel
  obtain ⟨loaded, hok, hsame⟩ := hload (by decide) _ _ _ _ hread
  exact ⟨db, loaded, hinsert, hall, hok, hsame⟩

/-! ## A corpus too large for a reply -/

def bulkCount : ℕ := 110000

def bulkFunc (i : ℕ) : IndexedFunc :=
  ⟨none, UInt64.ofNat (0x1000 + 16 * i), .symtab, constPrint 0xffffffffffffffff, 1.0, []⟩

/-- Functions whose slots take ten bytes each on the wire and eight in the
budget. -/
def bulkIndex : List IndexedFunc := (List.range bulkCount).map bulkFunc

theorem length_bulkIndex : bulkIndex.length = bulkCount := by
  rw [bulkIndex, List.length_map, List.length_range]

theorem bulkIndex_forall {P : FuncRec → Prop}
    (h : ∀ i id, P ⟨id, "bulk", none, UInt64.ofNat (0x1000 + 16 * i), "symtab",
      constPrint 0xffffffffffffffff, []⟩) : ∀ r ∈ recordsOf "bulk" bulkIndex, P r := by
  intro r hr
  obtain ⟨⟨f, j⟩, hp, rfl⟩ := List.mem_map.mp hr
  obtain ⟨i, -, rfl⟩ := List.mem_map.mp (List.fst_mem_of_mem_zipIdx hp)
  exact h i _

theorem storable_bulkIndex : Storable "bulk" bulkIndex where
  sig f hf := by
    obtain ⟨i, -, rfl⟩ := List.mem_map.mp hf
    exact List.length_replicate
  binary_le := by decide
  name_le f hf := by
    obtain ⟨i, -, rfl⟩ := List.mem_map.mp hf
    exact Nat.zero_le _
  total_le := by
    have hcost : ∀ r ∈ recordsOf "bulk" bulkIndex, recBytes r ≤ 1034 :=
      bulkIndex_forall fun i id ↦ by
        change satAdd (satAdd (satAdd (satAdd sigBytes 4) 0) 6) 0 ≤ 1034
        decide
    have hsum := List.sum_le_card_nsmul ((recordsOf "bulk" bulkIndex).map recBytes) 1034
      fun n hn ↦ by
        obtain ⟨r, hr, rfl⟩ := List.mem_map.mp hn
        exact hcost r hr
    rw [List.length_map, length_recordsOf, length_bulkIndex, smul_eq_mul] at hsum
    exact hsum.trans (by decide)

/-- The jailed reader refuses a file whose index is within every budget of the
store. -/
theorem bulk_index_refused :
    Storable "bulk" bulkIndex ∧ (∀ f ∈ bulkIndex, f.callees.length ≤ maxCallees) ∧
      ∃ db, Db.fresh.insertAll "bulk" (printsOf bulkIndex) = .ok (db, bulkIndex.length) ∧
        ∀ cutOff path size, ∃ e,
          CorpusFile.loadIndex ⟨WorkerReply.wireLen, cutOff⟩ ⟨path, size, db⟩ false =
            .error e := by
  obtain ⟨hinsert, hall⟩ := index_round_trip storable_bulkIndex
  generalize Db.ofLog (logOf "bulk" (printsOf bulkIndex)) = db at hinsert hall
  refine ⟨storable_bulkIndex, ?_, db, hinsert, fun cutOff path size ↦ ?_⟩
  · intro f hf
    obtain ⟨i, -, rfl⟩ := List.mem_map.mp hf
    exact Nat.zero_le _
  · have hslots : (constPrint 0xffffffffffffffff).wireLen = 1285 := by decide +kernel
    have hcost : ∀ r ∈ recordsOf "bulk" bulkIndex, 1285 ≤ r.wireLen :=
      bulkIndex_forall fun i id ↦ by
        unfold FuncRec.wireLen
        dsimp only
        rw [hslots]
        omega
    have hsum := List.card_nsmul_le_sum ((recordsOf "bulk" bulkIndex).map FuncRec.wireLen) 1285
      fun n hn ↦ by
        obtain ⟨r, hr, rfl⟩ := List.mem_map.mp hn
        exact hcost r hr
    rw [List.length_map, length_recordsOf, length_bulkIndex, smul_eq_mul] at hsum
    have hanswer : dbload db = .dbOk (recordsOf "bulk" bulkIndex) := by rw [dbload, hall]
    have hreply : ¬CorpusFile.Readable ⟨WorkerReply.wireLen, cutOff⟩ ⟨path, size, db⟩ false := by
      rintro (h | ⟨-, h⟩)
      · cases h
      · change WorkerReply.wireLen (dbload db) ≤ maxReply at h
        rw [hanswer, WorkerReply.wireLen, maxReply] at h
        unfold bulkCount at hsum
        omega
    obtain ⟨e, he⟩ := loadCorpusRecords_eq_error hreply
    refine ⟨e, ?_⟩
    rw [CorpusFile.loadIndex, he]
    rfl

end Fnprint
