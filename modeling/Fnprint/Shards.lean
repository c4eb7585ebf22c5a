import Fnprint.Db
import Fnprint.Index
import Fnprint.Layout

/-!
# Sharded indexing

An index can be split over several jailed workers, one shard of the function
list each.  The parent merges the replies, fails closed when any shard fails,
and sorts the rest; whatever the number of shards, the result is the list a
single worker returns.
-/

namespace Fnprint

open StableSort Sharding

/-! ## The shard specification -/

/-- A decimal machine word, as a standard library parses it. -/
def parseUsize (s : List Char) : Option ℕ :=
  let digits := match s with
    | '+' :: cs => cs
    | cs => cs
  if digits.isEmpty || digits.any (fun c ↦ !c.isDigit) then none
  else
    let v := Nat.ofDigitChars 10 digits 0
    if v < 2 ^ 64 then some v else none

/-- The `idx/count` argument of a worker; anything malformed is the whole binary. -/
def parseShard (spec : Option String) : ℕ × ℕ :=
  match spec with
  | none => (0, 1)
  | some s =>
      let parts := s.toList.splitOn '/'
      match parts[0]?.bind parseUsize, parts[1]?.bind parseUsize with
      | some i, some c => if 1 ≤ c ∧ i < c then (i, c) else (0, 1)
      | _, _ => (0, 1)

def shardSpec (i n : ℕ) : String := s!"{i}/{n}"

theorem parseUsize_repr {v : ℕ} (hv : v < 2 ^ 64) : parseUsize v.repr.toList = some v := by
  rw [Nat.toList_repr]
  have hdigit : ∀ c ∈ Nat.toDigits 10 v, c.isDigit = true := fun c hc ↦
    Nat.isDigit_of_mem_toDigits (by norm_num) (by norm_num) hc
  have hplus : ∀ cs, Nat.toDigits 10 v ≠ '+' :: cs := by
    intro cs h
    have := hdigit '+' (by simp [h])
    exact absurd this (by decide)
  have hall : (Nat.toDigits 10 v).any (fun c ↦ !c.isDigit) = false := by
    rw [List.any_eq_false]
    intro c hc
    simp [hdigit c hc]
  have hval : Nat.ofDigitChars 10 (Nat.toDigits 10 v) 0 = v := Nat.ofDigitChars_ten_toDigits
  unfold parseUsize
  split
  · rename_i cs hcs
    exact absurd hcs (hplus cs)
  · have hempty : (Nat.toDigits 10 v).isEmpty = false := by simp
    simp only [hempty, hall, hval, Bool.or_self, Bool.false_eq_true, if_false, if_pos hv]

theorem parseShard_shardSpec {i n : ℕ} (hi : i < n) (hn : n < 2 ^ 64) :
    parseShard (some (shardSpec i n)) = (i, n) := by
  have hslash : ∀ v : ℕ, '/' ∉ v.repr.toList := by
    intro v h
    rw [Nat.toList_repr] at h
    have := Nat.isDigit_of_mem_toDigits (by norm_num) (by norm_num) h
    exact absurd this (by decide)
  have hspec : (shardSpec i n).toList = i.repr.toList ++ '/' :: n.repr.toList := by
    have hsep : (toString "/").toList = ['/'] := by decide
    simp [shardSpec, String.toList_append, hsep]
  have hparts : (shardSpec i n).toList.splitOn '/' = [i.repr.toList, n.repr.toList] := by
    rw [hspec, List.splitOn_append_cons_self_of_not_mem (hslash i),
      List.splitOn_eq_singleton (hslash n)]
  have hle : 1 ≤ n := by omega
  simp only [parseShard, hparts, List.getElem?_cons_zero, List.getElem?_cons_succ,
    Option.bind_some, parseUsize_repr (hi.trans hn), parseUsize_repr hn]
  rw [if_pos ⟨hle, hi⟩]

/-! ## Replies and their merge -/

inductive WorkerReply where
  | indexOk (funcs : List IndexedFunc)
  | dumpOk (lines : List String)
  | dbOk (recs : List FuncRec)
  | err (e : String)

/-- How a worker thread ended. -/
inductive Joined where
  | panicked
  | done (res : Except String WorkerReply)

/-- Printable ASCII as it is, every other byte in hexadecimal. -/
def esc (s : String) : String :=
  let byte := fun b : UInt8 ↦
    if 0x20 ≤ b ∧ b ≤ 0x7e then [Char.ofNat b.toNat]
    else ['\\', 'x', Nat.digitChar (b.toNat / 16), Nat.digitChar (b.toNat % 16)]
  String.ofList (s.toUTF8.data.toList.flatMap byte)

def validateReplyFps (funcs : List IndexedFunc) : Except String Unit :=
  if funcs.all fun f ↦ f.fp.sig.length == sigLen then .ok ()
  else .error "jailed worker returned a fingerprint with an invalid signature length"

def clampUnit (x : Float32) : Float32 :=
  if x < 0.0 then 0.0 else if 1.0 < x then 1.0 else x

/-- A coverage outside the unit interval is clamped, a non-finite one assumed full. -/
def sanitizeCoverage (f : IndexedFunc) : IndexedFunc :=
  { f with coverage := if f.coverage.isFinite then clampUnit f.coverage else 1.0 }

/-- What one joined worker contributes: its sanitized functions, or an error. -/
def shardResult : Joined → Except String (List IndexedFunc)
  | .panicked => .error "a shard worker thread panicked"
  | .done (.ok (.indexOk funcs)) => do
      validateReplyFps funcs
      return funcs.map sanitizeCoverage
  | .done (.ok (.err e)) => .error (esc e)
  | .done (.ok _) => .error "worker returned the wrong reply kind"
  | .done (.error e) => .error e

/-- Every thread is joined; the first error is kept. -/
def mergeStep (st : List IndexedFunc × Option String) (h : Joined) :
    List IndexedFunc × Option String :=
  match shardResult h with
  | .ok funcs => (st.1 ++ funcs, st.2)
  | .error e => (st.1, st.2.or (some e))

/-- The canonical order of a merged index. -/
def mergeCmp : IndexedFunc → IndexedFunc → Ordering :=
  compareLex (byKey IndexedFunc.entry compare)
    (compareLex (byKey IndexedFunc.name compare) (byKey (fun f ↦ sourceStr f.source) compare))

instance : Std.TransCmp mergeCmp :=
  inferInstanceAs (Std.TransCmp (compareLex _ _))

/-- One worker for each shard, joined in order; any failure fails the index. -/
def runWorkersSharded (worker : String → Joined) (n : ℕ) : Except String (List IndexedFunc) :=
  let joined := (List.range n).map fun i ↦ worker (shardSpec i n)
  let (all, firstErr) := joined.foldl mergeStep ([], none)
  match firstErr with
  | some e => .error e
  | none => .ok (sortBy mergeCmp all)

theorem shardResult_indexOk {funcs : List IndexedFunc}
    (h : ∀ f ∈ funcs, f.fp.sig.length = sigLen) :
    shardResult (.done (.ok (.indexOk funcs))) = .ok (funcs.map sanitizeCoverage) := by
  have hall : (funcs.all fun f ↦ f.fp.sig.length == sigLen) = true := by
    rw [List.all_eq_true]
    intro f hf
    simpa using h f hf
  simp [shardResult, validateReplyFps, hall, bind, Except.bind]
  rfl

theorem foldl_mergeStep_error {joined : List Joined} {st : List IndexedFunc × Option String}
    (h : st.2.isSome ∨ ∃ j ∈ joined, ∃ e, shardResult j = .error e) :
    (joined.foldl mergeStep st).2.isSome := by
  induction joined generalizing st with
  | nil => simpa using h
  | cons j joined ih =>
      rw [List.foldl_cons]
      apply ih
      rcases h with h | ⟨k, hk, e, he⟩
      · left
        unfold mergeStep
        split
        · exact h
        · simp
      · rcases List.mem_cons.mp hk with rfl | hk
        · left
          simp [mergeStep, he]
        · exact Or.inr ⟨k, hk, e, he⟩

theorem foldl_mergeStep_ok {joined : List Joined} {lists : List (List IndexedFunc)}
    (h : joined.map shardResult = lists.map Except.ok) (all : List IndexedFunc) :
    joined.foldl mergeStep (all, none) = (all ++ lists.flatten, none) := by
  induction joined generalizing lists all with
  | nil =>
      cases lists with
      | nil => simp
      | cons l lists => simp at h
  | cons j joined ih =>
      cases lists with
      | nil => simp at h
      | cons l lists =>
          rw [List.map_cons, List.map_cons] at h
          obtain ⟨hj, hrest⟩ := List.cons.inj h
          have hstep : mergeStep (all, none) j = (all ++ l, none) := by
            simp [mergeStep, hj]
          rw [List.foldl_cons, hstep, ih hrest, List.flatten_cons, List.append_assoc]

/-! ## The merged list -/

theorem indexShard_of_lt {outcome : Func → Option IndexedFunc} {funcs : List Func} {i n : ℕ}
    (hi : i < n) : indexShard outcome funcs i n = (shard n i funcs).filterMap outcome := by
  have hmax : max n 1 = n := by omega
  have hmin : min i (n - 1) = i := by omega
  simp only [indexShard, hmax, hmin]

theorem indexShard_whole (outcome : Func → Option IndexedFunc) (funcs : List Func) :
    indexShard outcome funcs 0 1 = funcs.filterMap outcome := by
  rw [indexShard_of_lt Nat.one_pos, shard_one_zero]

theorem perm_flatMap_indexShard (outcome : Func → Option IndexedFunc) (funcs : List Func) {n : ℕ}
    (hn : 0 < n) :
    ((List.range n).flatMap fun i ↦ indexShard outcome funcs i n).Perm
      (indexShard outcome funcs 0 1) := by
  have heq : ((List.range n).flatMap fun i ↦ indexShard outcome funcs i n) =
      ((List.range n).flatMap fun i ↦ shard n i funcs).filterMap outcome := by
    rw [List.filterMap_flatMap]
    apply List.flatMap_congr
    intro i hi
    exact indexShard_of_lt (List.mem_range.mp hi)
  rw [heq, indexShard_whole]
  exact (perm_flatMap_shard hn funcs).filterMap outcome

theorem sortBy_mergeCmp_eq {funcs merged : List IndexedFunc}
    (hfuncs : funcs.Pairwise fun f g ↦ f.entry < g.entry) (hperm : merged.Perm funcs) :
    sortBy mergeCmp merged = funcs := by
  have hsorted : funcs.Pairwise (Le mergeCmp) := by
    refine hfuncs.imp fun h ↦ ?_
    rw [Le, mergeCmp, compareLex_isLE_iff]
    exact Or.inl (Std.compare_eq_lt.mpr h)
  have htie : ∀ x ∈ funcs, ∀ y ∈ funcs, mergeCmp x y = .eq → x = y := by
    intro x hx y hy hxy
    have hentry : x.entry = y.entry :=
      Std.LawfulEqCmp.eq_of_compare (compareLex_eq_iff.mp hxy).1
    have hnodup : (funcs.map IndexedFunc.entry).Nodup :=
      List.pairwise_map.mpr (hfuncs.imp fun h ↦ UInt64.ne_of_lt h)
    exact List.inj_on_of_nodup_map hnodup hx hy hentry
  rw [← sortBy_eq_of_perm mergeCmp hperm.symm htie, sortBy_eq_self mergeCmp hsorted]

theorem existsUnique_mem_shard {funcs : List Func}
    (hfuncs : funcs.Pairwise fun f g ↦ f.entry < g.entry) {n : ℕ} (hn : 0 < n) {f : Func}
    (hf : f ∈ funcs) : ∃! i, i < n ∧ f ∈ shard n i funcs := by
  have hnodup : funcs.Nodup := by
    refine hfuncs.imp ?_
    rintro g _ hlt rfl
    exact UInt64.lt_irrefl _ hlt
  obtain ⟨k, hk, hkf⟩ := List.mem_iff_getElem.mp hf
  have hmem : ∀ i, f ∈ shard n i funcs ↔ k % n = i := by
    intro i
    simp only [shard, List.mem_map, List.mem_filter, beq_iff_eq, Prod.exists]
    constructor
    · rintro ⟨g, j, ⟨hj, hji⟩, rfl⟩
      obtain ⟨hjl, hjg⟩ := List.getElem?_eq_some_iff.mp (List.mem_zipIdx_iff_getElem?.mp hj)
      have hkj : k = j := (List.Nodup.getElem_inj_iff hnodup).mp (hkf.trans hjg.symm)
      rwa [hkj]
    · intro hki
      exact ⟨f, k,
        ⟨List.mem_zipIdx_iff_getElem?.mpr (List.getElem?_eq_some_iff.mpr ⟨hk, hkf⟩), hki⟩, rfl⟩
  obtain ⟨i, ⟨hi, hki⟩, huniq⟩ := existsUnique_shard hn k
  refine ⟨i, ⟨hi, (hmem i).mpr hki⟩, fun j hj ↦ huniq j ⟨hj.1, (hmem j).mp hj.2⟩⟩

/-- The sorted merge of the shards is the whole index. -/
theorem sortBy_flatMap_indexShard {outcome : Func → Option IndexedFunc}
    (hentry : ∀ f g, outcome f = some g → g.entry = f.entry) {funcs : List Func}
    (hfuncs : funcs.Pairwise fun f g ↦ f.entry < g.entry) {n : ℕ} (hn : 0 < n) :
    sortBy mergeCmp ((List.range n).flatMap fun i ↦ indexShard outcome funcs i n) =
      indexShard outcome funcs 0 1 := by
  apply sortBy_mergeCmp_eq _ (perm_flatMap_indexShard outcome funcs hn)
  rw [indexShard_whole]
  exact pairwise_filterMap_outcome hentry hfuncs

theorem runWorkersSharded_ok {outcome : Func → Option IndexedFunc}
    (hentry : ∀ f g, outcome f = some g → g.entry = f.entry) {funcs : List Func}
    (hfuncs : funcs.Pairwise fun f g ↦ f.entry < g.entry) {n : ℕ} (hn : 0 < n)
    {worker : String → Joined}
    (hworker : ∀ i < n, worker (shardSpec i n) =
      .done (.ok (.indexOk (indexShard outcome funcs i n))))
    (hsig : ∀ f ∈ indexShard outcome funcs 0 1, f.fp.sig.length = sigLen) :
    runWorkersSharded worker n =
      .ok ((indexShard outcome funcs 0 1).map sanitizeCoverage) := by
  have hperm := perm_flatMap_indexShard outcome funcs hn
  have hshard : ∀ i < n, shardResult (worker (shardSpec i n)) =
      .ok ((indexShard outcome funcs i n).map sanitizeCoverage) := by
    intro i hi
    rw [hworker i hi]
    apply shardResult_indexOk
    intro f hf
    exact hsig f (hperm.mem_iff.mp (List.mem_flatMap.mpr ⟨i, List.mem_range.mpr hi, hf⟩))
  have hlists : ((List.range n).map fun i ↦ worker (shardSpec i n)).map shardResult =
      ((List.range n).map fun i ↦ (indexShard outcome funcs i n).map sanitizeCoverage).map
        .ok := by
    rw [List.map_map, List.map_map]
    exact List.map_congr_left fun i hi ↦ hshard i (List.mem_range.mp hi)
  have hsanitize := @map_sortBy _ _ mergeCmp mergeCmp sanitizeCoverage
    ((List.range n).flatMap fun i ↦ indexShard outcome funcs i n) fun _ _ _ _ ↦ rfl
  have hfold := foldl_mergeStep_ok hlists []
  rw [List.nil_append, ← List.flatMap_def, ← List.map_flatMap] at hfold
  simp only [runWorkersSharded, hfold]
  rw [← hsanitize, sortBy_flatMap_indexShard hentry hfuncs hn]

theorem runWorkersSharded_error {worker : String → Joined} {n : ℕ}
    (h : ∃ i < n, ∃ e, shardResult (worker (shardSpec i n)) = .error e) :
    ∃ e, runWorkersSharded worker n = .error e := by
  obtain ⟨i, hi, e, he⟩ := h
  have hjoined : worker (shardSpec i n) ∈ (List.range n).map fun i ↦ worker (shardSpec i n) :=
    List.mem_map_of_mem (List.mem_range.mpr hi)
  have hsome := @foldl_mergeStep_error _ ([], none) (Or.inr ⟨_, hjoined, e, he⟩)
  obtain ⟨e', he'⟩ := Option.isSome_iff_exists.mp hsome
  exact ⟨e', by simp [runWorkersSharded, he']⟩

/-- The number of shards never shows: each function is in one shard, a worker
reads its shard off its argument, the sorted merge is the whole index, and a
failed shard fails the index. -/
theorem shardCount_independent (found : List Func) (outcome : Func → Option IndexedFunc)
    (hentry : ∀ f g, outcome f = some g → g.entry = f.entry) (n : ℕ) (hn : 1 ≤ n)
    (hfit : n < 2 ^ 64) :
    (∀ f ∈ sortFuncs found, ∃! i, i < n ∧ f ∈ shard n i (sortFuncs found)) ∧
    (∀ i < n, parseShard (some (shardSpec i n)) = (i, n)) ∧
    sortBy mergeCmp ((List.range n).flatMap fun i ↦ indexShard outcome (sortFuncs found) i n) =
      indexShard outcome (sortFuncs found) 0 1 ∧
    (∀ worker, (∀ i < n, worker (shardSpec i n) =
        .done (.ok (.indexOk (indexShard outcome (sortFuncs found) i n)))) →
      (∀ f ∈ indexShard outcome (sortFuncs found) 0 1, f.fp.sig.length = sigLen) →
      runWorkersSharded worker n =
        .ok ((indexShard outcome (sortFuncs found) 0 1).map sanitizeCoverage)) ∧
    (∀ worker, (∃ i < n, ∃ e, shardResult (worker (shardSpec i n)) = .error e) →
      ∃ e, runWorkersSharded worker n = .error e) := by
  have hfuncs := pairwise_sortFuncs found
  exact ⟨fun f hf ↦ existsUnique_mem_shard hfuncs hn hf,
    fun i hi ↦ parseShard_shardSpec hi hfit,
    sortBy_flatMap_indexShard hentry hfuncs hn,
    fun worker hworker hsig ↦ runWorkersSharded_ok hentry hfuncs hn hworker hsig,
    fun worker hbad ↦ runWorkersSharded_error hbad⟩

/-- Three functions over two shards, the middle one without code. -/
theorem shardCount_independent_two :
    let found : List Func :=
      [⟨some "b", 0x20, 0, .symtab⟩, ⟨none, 0x30, 8, .ehFrame⟩, ⟨some "a", 0x10, 8, .dynSym⟩]
    let outcome : Func → Option IndexedFunc := fun f ↦
      if f.size = 0 then none else some { (default : IndexedFunc) with entry := f.entry }
    sortBy mergeCmp ((List.range 2).flatMap fun i ↦ indexShard outcome (sortFuncs found) i 2) =
      indexShard outcome (sortFuncs found) 0 1 := by
  intro found outcome
  have hentry : ∀ f g, outcome f = some g → g.entry = f.entry := by
    intro f g h
    by_cases hsize : f.size = 0
    · simp [outcome, hsize] at h
    · simp only [outcome, hsize, if_false] at h
      rw [← Option.some.inj h]
  exact (shardCount_independent found outcome hentry 2 (by norm_num) (by norm_num)).2.2.1

end Fnprint
