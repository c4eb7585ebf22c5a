import Fnprint.Lib.Fallible
import Fnprint.Lib.Intervals
import Fnprint.Explore
import Fnprint.Frame

/-!
# What the coverage figure says

The recorder adds up the lengths of the instructions of the body that it sees
first.  That counts bytes only while no two of them overlap and none runs past
the end of the body; the same holds of the sums a blanket restart reports.
-/

namespace Fnprint

open KeyMap Checked Binary32

/-! ## Bytes -/

/-- Where an instruction lies. -/
def interval (i : Ran) : ℕ × ℕ := (i.1.toNat, i.2.toNat)

def bytesOf (i : Ran) : Finset ℕ := Intervals.points (interval i)

/-- The byte addresses of a function's body. -/
def Func.body (func : Func) : Finset ℕ :=
  Finset.Ico func.entry.toNat (min (func.entry.toNat + func.size.toNat) (2 ^ 64))

theorem Func.card_body_le (func : Func) : func.body.card ≤ func.size.toNat := by
  rw [Func.body, Nat.card_Ico]
  omega

/-- The bytes of the body inside some executed instruction. -/
def bodyBytes (func : Func) (ran : List Ran) : Finset ℕ :=
  Intervals.union (ran.map interval) ∩ func.body

theorem card_bodyBytes_le (func : Func) (ran : List Ran) :
    (bodyBytes func ran).card ≤ func.size.toNat :=
  (Finset.card_le_card Finset.inter_subset_right).trans func.card_body_le

theorem bodyBytes_mono (func : Func) {ran ran' : List Ran} (h : ran ⊆ ran') :
    bodyBytes func ran ⊆ bodyBytes func ran' :=
  Finset.inter_subset_inter_right (Intervals.union_mono (List.map_subset interval h))

theorem bytesOf_subset_bodyBytes {func : Func} {ran : List Ran} {i : Ran} (hi : i ∈ ran)
    (hbody : bytesOf i ⊆ func.body) : bytesOf i ⊆ bodyBytes func ran :=
  Finset.subset_inter (Intervals.points_subset_union (List.mem_map_of_mem hi)) hbody

/-- The share of the body those bytes are. -/
def bodyShare (func : Func) (ran : List Ran) : Float32 :=
  natCast (bodyBytes func ran).card / natCast func.size.toNat

/-! ## Instructions that count bytes once -/

/-- An instruction meets no other one of a map. -/
def Apart (m : Map UInt64 UInt64) (i : Ran) : Prop :=
  ∀ a n, m.lookup a = some n → a ≠ i.1 → Disjoint (bytesOf (a, n)) (bytesOf i)

/-- The instructions of a map lie in the body and do not meet. -/
structure Packed (func : Func) (m : Map UInt64 UInt64) : Prop where
  inside : ∀ a n, m.lookup a = some n → bytesOf (a, n) ⊆ func.body
  apart : ∀ a n, m.lookup a = some n → Apart m (a, n)

instance (m : Map UInt64 UInt64) (i : Ran) : Decidable (Apart m i) :=
  have : Decidable (∀ e, e ∈ m.entries → e.1 ≠ i.1 →
      Disjoint (bytesOf (e.1, e.2)) (bytesOf i)) := List.decidableBAll _ m.entries
  decidable_of_iff (∀ e, e ∈ m.entries → e.1 ≠ i.1 → Disjoint (bytesOf (e.1, e.2)) (bytesOf i))
    ⟨fun h a n ha hne ↦ h ⟨a, n⟩ (AList.mem_lookup_iff.mp ha) hne,
      fun h e he hne ↦ h e.1 e.2 (AList.mem_lookup_iff.mpr he) hne⟩

def intervals (m : Map UInt64 UInt64) : List (ℕ × ℕ) :=
  m.entries.map fun e ↦ interval (e.1, e.2)

/-- The lengths of a map, added up. -/
def lengths (m : Map UInt64 UInt64) : ℕ := Intervals.total (intervals m)

section Packed

variable {func : Func} {m : Map UInt64 UInt64}

theorem packed_empty : Packed func ∅ :=
  ⟨fun a n h ↦ (lookup_empty_ne_some a n h).elim, fun a n h ↦ (lookup_empty_ne_some a n h).elim⟩

theorem Packed.insert (h : Packed func m) {a n : UInt64} (hinside : bytesOf (a, n) ⊆ func.body)
    (hapart : Apart m (a, n)) : Packed func (m.insert a n) := by
  constructor
  · intro b k hb
    rcases lookup_insert_eq_some_iff.mp hb with ⟨rfl, rfl⟩ | ⟨-, hb⟩
    · exact hinside
    · exact h.inside b k hb
  · intro b k hb c j hc hcb
    rcases lookup_insert_eq_some_iff.mp hb with ⟨rfl, rfl⟩ | ⟨hba, hbm⟩
    · rcases lookup_insert_eq_some_iff.mp hc with ⟨rfl, -⟩ | ⟨-, hcm⟩
      · exact (hcb rfl).elim
      · exact hapart c j hcm hcb
    · rcases lookup_insert_eq_some_iff.mp hc with ⟨rfl, rfl⟩ | ⟨-, hcm⟩
      · exact (hapart b k hbm hba).symm
      · exact h.apart b k hbm c j hcm hcb

/-- Two packed maps merge when the instructions of one meet none of the other
at another address. -/
theorem Packed.union {m' : Map UInt64 UInt64} (h : Packed func m) (h' : Packed func m')
    (hapart : ∀ a n, m'.lookup a = some n → Apart m (a, n)) : Packed func (m' ∪ m) := by
  constructor
  · intro a n ha
    rcases lookup_of_union ha with ha | ha
    · exact h'.inside a n ha
    · exact h.inside a n ha
  · intro a n ha b k hb hba
    rcases lookup_of_union ha with ha | ha <;> rcases lookup_of_union hb with hb | hb
    · exact h'.apart a n ha b k hb hba
    · exact hapart a n ha b k hb hba
    · exact (hapart b k hb a n ha hba.symm).symm
    · exact h.apart a n ha b k hb hba

theorem mem_intervals {p : ℕ × ℕ} :
    p ∈ intervals m ↔ ∃ a n, m.lookup a = some n ∧ interval (a, n) = p := by
  unfold intervals
  rw [List.mem_map]
  constructor
  · rintro ⟨⟨a, n⟩, he, rfl⟩
    exact ⟨a, n, AList.mem_lookup_iff.mpr he, rfl⟩
  · rintro ⟨a, n, ha, rfl⟩
    exact ⟨⟨a, n⟩, AList.mem_lookup_iff.mp ha, rfl⟩

/-- The lengths of a packed map count its bytes, each once. -/
theorem Packed.card_union (h : Packed func m) :
    (Intervals.union (intervals m)).card = lengths m := by
  refine Intervals.card_union ?_
  rw [intervals, List.pairwise_map]
  have hkeys : m.entries.Pairwise fun e e' ↦ e.1 ≠ e'.1 :=
    List.nodupKeys_iff_pairwise.mp m.nodupKeys
  refine hkeys.imp_of_mem fun {e e'} he he' hne ↦ ?_
  exact h.apart e'.1 e'.2 (AList.mem_lookup_iff.mpr he') e.1 e.2 (AList.mem_lookup_iff.mpr he) hne

/-- What a packed map adds up to is at most what ran, once its instructions
are among those that did. -/
theorem Packed.lengths_le (h : Packed func m) {ran : List Ran}
    (hran : ∀ a n, m.lookup a = some n → bytesOf (a, n) ⊆ bodyBytes func ran) :
    lengths m ≤ (bodyBytes func ran).card := by
  rw [← h.card_union]
  refine Finset.card_le_card (Intervals.union_subset_iff.mpr fun p hp ↦ ?_)
  obtain ⟨a, n, ha, rfl⟩ := mem_intervals.mp hp
  exact hran a n ha

theorem lengths_insert {a : UInt64} (h : a ∉ m) (n : UInt64) :
    lengths (m.insert a n) = n.toNat + lengths m := by
  unfold lengths intervals
  rw [AList.entries_insert_of_notMem h, List.map_cons, Intervals.total_cons]
  rfl

end Packed

theorem toNat_sumBytes {m : Map UInt64 UInt64} {s : UInt64} (h : sumBytes m = some s) :
    s.toNat = lengths m := by
  have hfold : ∀ (l : List (Sigma fun _ : UInt64 ↦ UInt64)) (n s : UInt64),
      l.foldlM (fun n e ↦ add64 n e.2) n = some s →
        s.toNat = n.toNat + Intervals.total (l.map fun e ↦ interval (e.1, e.2)) := by
    intro l
    induction l with
    | nil =>
        intro n s h
        rw [← Option.some.inj h]
        rfl
    | cons e l ih =>
        intro n s h
        rw [List.foldlM_cons] at h
        obtain ⟨k, hk, h⟩ := Option.bind_eq_some_iff.mp h
        obtain ⟨hfit, rfl⟩ := add64_eq_some_iff.mp hk
        have hadd : (n + e.2).toNat = n.toNat + e.2.toNat := by
          rw [UInt64.toNat_add]
          exact Nat.mod_eq_of_lt hfit
        rw [ih _ _ h, hadd, List.map_cons, Intervals.total_cons, Nat.add_assoc]
        rfl
  rw [hfold m.entries 0 s h]
  exact Nat.zero_add _

/-! ## One callback -/

namespace Rec

/-- The part of the recorder the coverage comes from. -/
def tally (r : Rec) : Map UInt64 UInt32 × Map UInt64 UInt64 × UInt64 :=
  (r.visits, r.covered, r.coveredBytes)

theorem tally_steer {r r' : Rec} {out : List Command} {addr ilen retval : UInt64} {kind : Kind}
    {nr : UInt32} (h : r.steer addr kind ilen nr retval = some (r', out)) : r'.tally = r.tally :=
  keeps_steer (fun _ _ ↦ rfl) (fun _ _ ↦ rfl)
    (fun target direct _ ↦ keeps_noteCallee (fun _ _ ↦ rfl) r target direct)
    (fun target _ ↦ keeps_passBranch (fun _ _ ↦ rfl) (fun _ _ ↦ rfl) _ addr ilen target) h

/-- How often an address was visited. -/
def visitsOf (r : Rec) (a : UInt64) : UInt32 := (r.visits.lookup a).getD 0

/-- The instruction a callback counts: one of the body, executed for the first
time. -/
def counted (r : Rec) (c : Callback) : Option Ran :=
  (r.begins c).filter fun i ↦ r.visitsOf i.1 = 0 ∧ r.funcLo ≤ i.1 ∧ i.1 < r.funcHi

/-- What one callback does to the figure. -/
structure Tallied (r r' : Rec) (c : Callback) : Prop where
  visited : ∀ a, r.visitsOf a ≠ 0 → r'.visitsOf a ≠ 0
  same : r.counted c = none → r'.covered = r.covered ∧ r'.coveredBytes = r.coveredBytes
  counts : ∀ i, r.counted c = some i → r.visitsOf i.1 = 0 ∧ r'.visitsOf i.1 ≠ 0 ∧
    r'.covered = r.covered.insert i.1 i.2 ∧ r'.coveredBytes = satAdd64 r.coveredBytes i.2

theorem begins_of_codeAddr {r : Rec} {c : Callback} (hc : c.codeAddr = none) :
    r.begins c = none := by
  cases c with
  | code addr kind ilen nr retval => cases hc
  | unmapped fetch addr mapOk => rfl
  | read addr => rfl
  | write addr size val => rfl

theorem tallied_of_codeState_eq {r r' : Rec} {c : Callback} (h : r'.codeState = r.codeState)
    (hc : r.begins c = none) : Tallied r r' c := by
  have hvisits : r'.visits = r.visits := congrArg CodeState.visits h
  have hcovered : r'.covered = r.covered := congrArg CodeState.covered h
  have hbytes : r'.coveredBytes = r.coveredBytes := congrArg CodeState.coveredBytes h
  have hcounted : r.counted c = none := by
    rw [counted, hc]
    rfl
  refine ⟨fun a ha ↦ ?_, fun _ ↦ ⟨hcovered, hbytes⟩, fun i hi ↦ ?_⟩
  · rwa [visitsOf, hvisits]
  · rw [hcounted] at hi
    cases hi

theorem add32_one {v w : UInt32} (h : add32 v 1 = some w) : w ≠ 0 ∧ (w = 1 ↔ v = 0) := by
  unfold add32 at h
  split at h
  · rename_i hfit
    have hone : (1 : UInt32).toNat = 1 := rfl
    have hw : w.toNat = v.toNat + 1 := by
      rw [← Option.some.inj h, UInt32.toNat_add, hone, Nat.mod_eq_of_lt (by rwa [hone] at hfit)]
    rw [ne_eq, ← UInt32.toNat_inj, ← UInt32.toNat_inj, ← UInt32.toNat_inj, hone, hw]
    exact ⟨Nat.succ_ne_zero _, ⟨fun h ↦ Nat.succ.inj h, fun h ↦ congrArg Nat.succ h⟩⟩
  · cases h

/-- The state a code hook has counted, before the caps. -/
structure CountedVisit (r s : Rec) (addr instret : UInt64) (visits : UInt32) : Prop where
  overCaps : s.overCaps instret visits = r.overCaps instret visits
  visitsOf : ∀ a, s.visitsOf a = if a = addr then visits else r.visitsOf a
  lookup : s.visits.lookup addr = some visits
  covered : s.covered = r.covered
  bytes : s.coveredBytes = r.coveredBytes
  body : s.funcLo = r.funcLo ∧ s.funcHi = r.funcHi

theorem countedVisit (r : Rec) (addr instret : UInt64) (visits : UInt32) :
    CountedVisit r ((r.settleBranch addr).countVisit addr instret visits) addr instret visits := by
  have hof : ∀ (q : Rec) a, q.visits = r.visits →
      (q.countVisit addr instret visits).visitsOf a =
        if a = addr then visits else r.visitsOf a := by
    intro q a hq
    by_cases ha : a = addr
    · subst ha
      simp [visitsOf, countVisit]
    · rw [if_neg ha, visitsOf, visitsOf, countVisit, AList.lookup_insert_ne ha, hq]
  unfold settleBranch
  split
  · exact ⟨rfl, fun a ↦ hof _ a rfl, AList.lookup_insert _, rfl, rfl, rfl, rfl⟩
  · exact ⟨rfl, fun a ↦ hof _ a rfl, AList.lookup_insert _, rfl, rfl, rfl, rfl⟩

theorem tally_cover (s : Rec) (addr ilen : UInt64) : (s.cover addr ilen).tally =
    if s.visits.lookup addr = some 1 ∧ s.funcLo ≤ addr ∧ addr < s.funcHi then
      (s.visits, s.covered.insert addr ilen, satAdd64 s.coveredBytes ilen)
    else s.tally := by
  unfold cover
  split <;> rfl

theorem visits_cover (s : Rec) (addr ilen : UInt64) : (s.cover addr ilen).visits = s.visits := by
  unfold cover
  split <;> rfl

theorem begins_code {r : Rec} {addr instret : UInt64} {visits : UInt32}
    (hinstret : add64 r.instret 1 = some instret)
    (hvisits : add32 (r.visitsOf addr) 1 = some visits) (kind : Kind) (ilen : UInt64)
    (nr : UInt32) (retval : UInt64) :
    r.begins (.code addr kind ilen nr retval) =
      if r.overCaps instret visits then none else some (addr, ilen) := by
  unfold visitsOf at hvisits
  rw [begins, hinstret, hvisits]
  rfl

theorem counted_code {r : Rec} {addr instret : UInt64} {visits : UInt32}
    (hinstret : add64 r.instret 1 = some instret)
    (hvisits : add32 (r.visitsOf addr) 1 = some visits) (kind : Kind) (ilen : UInt64)
    (nr : UInt32) (retval : UInt64) :
    r.counted (.code addr kind ilen nr retval) =
      if r.overCaps instret visits then none
      else if r.visitsOf addr = 0 ∧ r.funcLo ≤ addr ∧ addr < r.funcHi then some (addr, ilen)
      else none := by
  rw [counted, begins_code hinstret hvisits]
  split
  · rfl
  · rw [Option.filter_some]
    simp only [decide_eq_true_eq]

theorem tallied_codeHook {r r' : Rec} {addr ilen retval : UInt64} {kind : Kind} {nr : UInt32}
    {out : List Command} (h : r.codeHook addr kind ilen nr retval = some (r', out)) :
    Tallied r r' (.code addr kind ilen nr retval) := by
  obtain ⟨instret, visits, hinstret, hvisits, h⟩ := codeHook_cases h
  rw [← visitsOf] at hvisits
  obtain ⟨hne, hfirst⟩ := add32_one hvisits
  have hcounted := counted_code hinstret hvisits kind ilen nr retval
  have hs := countedVisit r addr instret visits
  rw [← visited] at hs
  generalize r.visited addr instret visits = s at hs h
  have hvisited : ∀ a, r.visitsOf a ≠ 0 → s.visitsOf a ≠ 0 := by
    intro a ha
    rw [hs.visitsOf]
    split
    · exact hne
    · exact ha
  rcases h with ⟨hcap, rfl, -⟩ | ⟨hcap, h⟩
  · -- over a cap: the visit is counted, the instruction does not run
    rw [if_pos hcap] at hcounted
    refine ⟨hvisited, fun _ ↦ ⟨hs.covered, hs.bytes⟩, fun i hi ↦ ?_⟩
    rw [hcounted] at hi
    cases hi
  · rw [if_neg (Bool.eq_false_iff.mp hcap)] at hcounted
    have htally := (tally_steer h).trans (tally_cover s addr ilen)
    have hof : ∀ a, r'.visitsOf a = s.visitsOf a := by
      intro a
      have hvisits' : r'.visits = s.visits :=
        (congrArg Prod.fst (tally_steer h)).trans (visits_cover s addr ilen)
      rw [visitsOf, visitsOf, hvisits']
    have hcond : s.visits.lookup addr = some 1 ∧ s.funcLo ≤ addr ∧ addr < s.funcHi ↔
        r.visitsOf addr = 0 ∧ r.funcLo ≤ addr ∧ addr < r.funcHi := by
      rw [hs.lookup, Option.some.injEq, hfirst, hs.body.1, hs.body.2]
    rw [if_congr hcond rfl rfl] at htally
    refine ⟨fun a ha ↦ by rw [hof]; exact hvisited a ha, fun hnone ↦ ?_, fun i hi ↦ ?_⟩
    · rw [hcounted, ite_eq_right_iff] at hnone
      rw [if_neg fun hbody ↦ Option.some_ne_none _ (hnone hbody)] at htally
      obtain ⟨hcovered', hbytes'⟩ := Prod.mk.inj (Prod.mk.inj htally).2
      exact ⟨hcovered'.trans hs.covered, hbytes'.trans hs.bytes⟩
    · rw [hcounted, Option.ite_none_right_eq_some] at hi
      obtain ⟨hbody, hi⟩ := hi
      obtain rfl := Option.some.inj hi
      rw [if_pos hbody] at htally
      obtain ⟨hcovered', hbytes'⟩ := Prod.mk.inj (Prod.mk.inj htally).2
      refine ⟨hbody.1, ?_, by rw [hcovered', hs.covered], by rw [hbytes', hs.bytes]⟩
      rw [hof, hs.visitsOf, if_pos rfl]
      exact hne

theorem tallied_step {r r' : Rec} {c : Callback} {out : List Command}
    (h : r.step c = some (r', out)) : Tallied r r' c := by
  rcases step_cases h with ⟨hc, hstate⟩ | ⟨addr, kind, ilen, nr, retval, rfl, hcode⟩
  · exact tallied_of_codeState_eq hstate (begins_of_codeAddr hc)
  · exact tallied_codeHook hcode

end Rec

/-! ## Tidy runs -/

/-- The instruction a callback counts lies in the body and meets none counted
before it, in this run or in earlier ones. -/
def Rec.Tidy (func : Func) (earlier : Map UInt64 UInt64) (r : Rec) (c : Callback) : Prop :=
  ∀ i, r.counted c = some i →
    bytesOf i ⊆ func.body ∧ Apart r.covered i ∧ Apart earlier i

/-- Every step of a run is tidy. -/
def TidyRun (func : Func) (earlier : Map UInt64 UInt64) : Rec → List Callback → Prop
  | _, [] => True
  | r, c :: callbacks => r.Tidy func earlier c ∧
      ∀ r' out, r.step c = some (r', out) → TidyRun func earlier r' callbacks

instance (func : Func) (earlier : Map UInt64 UInt64) (r : Rec) (c : Callback) :
    Decidable (r.Tidy func earlier c) :=
  Option.decidableForallMem (r.counted c)

instance decidableTidyRun (func : Func) (earlier : Map UInt64 UInt64) :
    ∀ (r : Rec) (callbacks : List Callback), Decidable (TidyRun func earlier r callbacks)
  | _, [] => .isTrue trivial
  | r, c :: callbacks =>
      have : DecidablePred fun p : Rec × List Command ↦ TidyRun func earlier p.1 callbacks :=
        fun p ↦ decidableTidyRun func earlier p.1 callbacks
      decidable_of_iff
        (r.Tidy func earlier c ∧ ∀ p ∈ r.step c, TidyRun func earlier p.1 callbacks)
        ⟨fun h ↦ ⟨h.1, fun r' out hstep ↦ h.2 (r', out) hstep⟩,
          fun h ↦ ⟨h.1, fun p hp ↦ h.2 p.1 p.2 hp⟩⟩

/-- What a tidy run keeps: the figure is the number of bytes counted. -/
structure Tracked (func : Func) (earlier : Map UInt64 UInt64) (ran : List Ran) (r : Rec) :
    Prop where
  visited : ∀ a n, r.covered.lookup a = some n → r.visitsOf a ≠ 0
  packed : Packed func r.covered
  apart : ∀ a n, r.covered.lookup a = some n → Apart earlier (a, n)
  ran : ∀ a n, r.covered.lookup a = some n → (a, n) ∈ ran
  sum : r.coveredBytes.toNat = lengths r.covered

section Runs

variable {func : Func} {earlier : Map UInt64 UInt64}

theorem Packed.lengths_lt {m : Map UInt64 UInt64} (h : Packed func m) : lengths m < 2 ^ 64 := by
  have hbody : (Intervals.union (intervals m)).card ≤ func.body.card := by
    refine Finset.card_le_card (Intervals.union_subset_iff.mpr fun p hp ↦ ?_)
    obtain ⟨a, n, ha, rfl⟩ := mem_intervals.mp hp
    exact h.inside a n ha
  have hcard := func.card_body_le
  have hsize := func.size.toNat_lt
  rw [h.card_union] at hbody
  omega

theorem Rec.begins_of_counted {r : Rec} {c : Callback} {i : Ran} (h : r.counted c = some i) :
    r.begins c = some i := (Option.filter_eq_some_iff.mp h).1

theorem Tracked.step {ran : List Ran} {r r' : Rec} {c : Callback} {out : List Command}
    (h : Tracked func earlier ran r) (htidy : r.Tidy func earlier c)
    (hstep : r.step c = some (r', out)) :
    Tracked func earlier (ran ++ (r.begins c).toList) r' := by
  obtain ⟨hvisited, hsame, hcounts⟩ := Rec.tallied_step hstep
  cases hc : r.counted c with
  | none =>
      obtain ⟨hcovered, hbytes⟩ := hsame hc
      refine ⟨?_, ?_, ?_, ?_, ?_⟩
      · rw [hcovered]
        exact fun a n ha ↦ hvisited a (h.visited a n ha)
      · rw [hcovered]
        exact h.packed
      · rw [hcovered]
        exact h.apart
      · rw [hcovered]
        exact fun a n ha ↦ List.mem_append_left _ (h.ran a n ha)
      · rw [hbytes, hcovered]
        exact h.sum
  | some i =>
      obtain ⟨hinside, hapart, hearlier⟩ := htidy i hc
      obtain ⟨hzero, hne, hcovered, hbytes⟩ := hcounts i hc
      have hfresh : i.1 ∉ r.covered := by
        intro hmem
        obtain ⟨n, hn⟩ := Option.isSome_iff_exists.mp (AList.lookup_isSome.mpr hmem)
        exact h.visited i.1 n hn hzero
      have hpacked : Packed func (r.covered.insert i.1 i.2) := h.packed.insert hinside hapart
      refine ⟨?_, ?_, ?_, ?_, ?_⟩
      · rw [hcovered]
        intro a n ha
        rcases lookup_insert_eq_some_iff.mp ha with ⟨rfl, rfl⟩ | ⟨-, ha⟩
        · exact hne
        · exact hvisited a (h.visited a n ha)
      · rwa [hcovered]
      · rw [hcovered]
        intro a n ha
        rcases lookup_insert_eq_some_iff.mp ha with ⟨rfl, rfl⟩ | ⟨-, ha⟩
        · exact hearlier
        · exact h.apart a n ha
      · rw [hcovered]
        intro a n ha
        rcases lookup_insert_eq_some_iff.mp ha with ⟨rfl, rfl⟩ | ⟨-, ha⟩
        · rw [Rec.begins_of_counted hc]
          exact List.mem_append_right _ (List.mem_singleton_self _)
        · exact List.mem_append_left _ (h.ran a n ha)
      · have hlt := hpacked.lengths_lt
        rw [lengths_insert hfresh] at hlt
        rw [hbytes, hcovered, lengths_insert hfresh, satAdd64, toNat_ofNat64 (by omega), h.sum]
        omega

theorem Tracked.run {callbacks : List Callback} {ran : List Ran} {r r' : Rec}
    {out : List Command} (h : Tracked func earlier ran r)
    (htidy : TidyRun func earlier r callbacks)
    (hrun : Machine.run Rec.step r callbacks = some (r', out)) :
    Tracked func earlier (ran ++ executed r callbacks) r' := by
  induction callbacks generalizing r ran out with
  | nil =>
      obtain ⟨rfl, -⟩ := Prod.mk.inj (Option.some.inj hrun)
      rwa [executed, List.append_nil]
  | cons c callbacks ih =>
      obtain ⟨s, front, back, hstep, hrest, -⟩ := Machine.run_cons_eq_some_iff.mp hrun
      obtain ⟨hc, htidy⟩ := htidy
      have hnext := ih (h.step hc hstep) (htidy s front hstep) hrest
      rwa [List.append_assoc, ← show executed r (c :: callbacks) =
        (r.begins c).toList ++ executed s callbacks by rw [executed, hstep]] at hnext

theorem tracked_start (cfg : Config) (image : Image) (symbols : Map UInt64 String)
    (force : List Bool) : Tracked func earlier [] (Rec.start cfg image func symbols force) := by
  have hnone := @lookup_empty_ne_some UInt64 UInt64 _
  exact ⟨fun a n ha ↦ (hnone a n ha).elim, packed_empty, fun a n ha ↦ (hnone a n ha).elim,
    fun a n ha ↦ (hnone a n ha).elim, rfl⟩

/-- The figure of a tidy run is at most the number of bytes that ran. -/
theorem Tracked.coveredBytes_le {ran : List Ran} {r : Rec} (h : Tracked func earlier ran r) :
    r.coveredBytes.toNat ≤ (bodyBytes func ran).card := by
  rw [h.sum]
  exact h.packed.lengths_le fun a n ha ↦
    bytesOf_subset_bodyBytes (h.ran a n ha) (h.packed.inside a n ha)

theorem clamp_le_bodyShare (hsize : 0 < func.size) {ran : List Ran} {n : ℕ}
    (h : n ≤ (bodyBytes func ran).card) :
    clamp (natCast n / natCast func.size.toNat) 0.0 1.0 ≤ bodyShare func ran := by
  have hlt := func.size.toNat_lt
  have hcard := card_bodyBytes_le func ran
  exact clamp_div_le (UInt64.lt_iff_toNat_lt.mp hsize) hlt.le (by omega) h

theorem Tracked.coverage_le (hsize : 0 < func.size) {ran : List Ran} {r : Rec}
    (h : Tracked func earlier ran r) (clean : Bool) :
    (r.finish func.size clean ran).trace.coverage ≤ bodyShare func ran := by
  have hne : func.size ≠ 0 := fun h0 ↦ by
    rw [h0] at hsize
    exact absurd hsize (by decide)
  change coverageOf r.coveredBytes func.size ≤ bodyShare func ran
  rw [coverageOf, if_neg hne]
  exact clamp_le_bodyShare hsize h.coveredBytes_le

end Runs

/-! ## Tidy explorations -/

section Explore

variable (emulate : Emulate) (image : Image) (func : Func) (symbols : Map UInt64 String)

/-- Whatever the engine does from an address, the run is tidy. -/
def TidyFrom (earlier : Map UInt64 UInt64) (cfg : Config) (force : List Bool)
    (start : UInt64) : Prop :=
  ∀ run, emulate cfg force start = some run →
    TidyRun func earlier (Rec.start cfg image func symbols force) run.callbacks

/-- Every restart is tidy, beside what was covered before it. -/
def TidyBlanket (cfg : Config) (starts : List UInt64) : ℕ → Map UInt64 UInt64 → Prop
  | 0, _ => True
  | n + 1, covered => ∀ start, restartAt func starts covered = some (some start) →
      TidyFrom emulate image func symbols covered cfg [] start ∧
        ∀ run, runFrom emulate image func symbols cfg [] start = some run →
          TidyBlanket cfg starts n (absorb covered start run.covered)

def TidySeed (cfg : Config) (starts : List UInt64) : Prop :=
  TidyFrom emulate image func symbols ∅ cfg [] func.entry ∧
    ∀ base, runFrom emulate image func symbols cfg [] func.entry = some base →
      (∀ i < min base.dirs.length cfg.exploreDepth,
        TidyFrom emulate image func symbols ∅ cfg (forcePlan base.dirs i) func.entry) ∧
      TidyBlanket emulate image func symbols cfg starts cfg.blanketRestarts base.covered

def TidyExplore (capstone : Option Disasm) (cfg : Config) (seeds : List UInt64) : Prop :=
  ∀ starts, restartStarts image func capstone cfg = some starts →
    ∀ seed ∈ seeds, TidySeed emulate image func symbols { cfg with seed := seed } starts

instance (earlier : Map UInt64 UInt64) (cfg : Config) (force : List Bool) (start : UInt64) :
    Decidable (TidyFrom emulate image func symbols earlier cfg force start) :=
  inferInstanceAs (Decidable (∀ run ∈ emulate cfg force start,
    TidyRun func earlier (Rec.start cfg image func symbols force) run.callbacks))

instance decidableTidyBlanket (cfg : Config) (starts : List UInt64) :
    ∀ (n : ℕ) (covered : Map UInt64 UInt64),
      Decidable (TidyBlanket emulate image func symbols cfg starts n covered)
  | 0, _ => .isTrue trivial
  | n + 1, covered =>
      have : DecidablePred (TidyBlanket emulate image func symbols cfg starts n) :=
        decidableTidyBlanket cfg starts n
      have : DecidablePred fun start ↦ TidyFrom emulate image func symbols covered cfg [] start ∧
          ∀ run ∈ runFrom emulate image func symbols cfg [] start,
            TidyBlanket emulate image func symbols cfg starts n
              (absorb covered start run.covered) := fun _ ↦ instDecidableAnd
      have := Option.decidableForallMem (p := fun start ↦
        TidyFrom emulate image func symbols covered cfg [] start ∧
          ∀ run ∈ runFrom emulate image func symbols cfg [] start,
            TidyBlanket emulate image func symbols cfg starts n
              (absorb covered start run.covered)) (restartAt func starts covered).join
      decidable_of_iff _ (forall_congr' fun _ ↦ imp_congr_left Option.join_eq_some_iff)

instance (cfg : Config) (starts : List UInt64) :
    Decidable (TidySeed emulate image func symbols cfg starts) :=
  inferInstanceAs (Decidable (_ ∧ ∀ base ∈ runFrom emulate image func symbols cfg [] func.entry,
    (∀ i < min base.dirs.length cfg.exploreDepth,
      TidyFrom emulate image func symbols ∅ cfg (forcePlan base.dirs i) func.entry) ∧
    TidyBlanket emulate image func symbols cfg starts cfg.blanketRestarts base.covered))

instance (capstone : Option Disasm) (cfg : Config) (seeds : List UInt64) :
    Decidable (TidyExplore emulate image func symbols capstone cfg seeds) :=
  have : DecidablePred fun starts ↦ ∀ seed, seed ∈ seeds →
      TidySeed emulate image func symbols { cfg with seed := seed } starts :=
    fun _ ↦ List.decidableBAll _ seeds
  Option.decidableForallMem (restartStarts image func capstone cfg)

variable {emulate image func symbols}

/-- A run whose figure and whose instructions are honest. -/
structure HonestRun (func : Func) (earlier : Map UInt64 UInt64) (run : RunOut) : Prop where
  packed : Packed func run.covered
  apart : ∀ a n, run.covered.lookup a = some n → Apart earlier (a, n)
  ran : ∀ a n, run.covered.lookup a = some n → (a, n) ∈ run.ran
  coverage : run.trace.coverage ≤ bodyShare func run.ran

theorem honest_failed (hsize : 0 < func.size) (earlier : Map UInt64 UInt64) :
    HonestRun func earlier RunOut.failed := by
  have hnone := @lookup_empty_ne_some UInt64 UInt64 _
  have hzero : clamp (natCast 0 / natCast func.size.toNat) 0.0 1.0 ≤ bodyShare func [] :=
    clamp_le_bodyShare hsize (Nat.zero_le _)
  refine ⟨packed_empty, fun a n ha ↦ (hnone a n ha).elim, fun a n ha ↦ (hnone a n ha).elim, ?_⟩
  have hle := natCast_div_le_inf (UInt64.lt_iff_toNat_lt.mp hsize) func.size.toNat_lt.le
    ((card_bodyBytes_le func []).trans func.size.toNat_lt.le)
  refine (le_iff_bits ?_ hle).mpr ?_
  · change bits 0.0 ≤ inf
    rw [bits_zero]
    exact Nat.zero_le _
  · change bits 0.0 ≤ _
    rw [bits_zero]
    exact Nat.zero_le _

theorem honest_runFrom (hsize : 0 < func.size) {earlier : Map UInt64 UInt64} {cfg : Config}
    {force : List Bool} {start : UInt64} {run : RunOut}
    (htidy : TidyFrom emulate image func symbols earlier cfg force start)
    (h : runFrom emulate image func symbols cfg force start = some run) :
    HonestRun func earlier run := by
  unfold runFrom at h
  split at h
  · rw [← Option.some.inj h]
    exact honest_failed hsize earlier
  · rename_i e he
    obtain ⟨⟨r, out⟩, hrecord, h⟩ := Option.bind_eq_some_iff.mp h
    have htracked := (tracked_start cfg image symbols force).run (htidy e he) hrecord
    rw [List.nil_append] at htracked
    rw [← Option.some.inj h]
    exact ⟨htracked.packed, htracked.apart, htracked.ran, htracked.coverage_le hsize e.clean⟩

/-! ## Restarts -/

/-- What was covered by the runs of a seed so far. -/
structure Gathered (func : Func) (covered : Map UInt64 UInt64) (ran : List Ran) : Prop where
  packed : Packed func covered
  ran : ∀ a n, covered.lookup a = some n → bytesOf (a, n) ⊆ bodyBytes func ran

theorem HonestRun.gathered {run : RunOut} (h : HonestRun func ∅ run) {ran : List Ran}
    (hran : run.ran ⊆ ran) : Gathered func run.covered ran :=
  ⟨h.packed, fun a n ha ↦
    bytesOf_subset_bodyBytes (hran (h.ran a n ha)) (h.packed.inside a n ha)⟩

theorem bytesOf_zero (a : UInt64) : bytesOf (a, 0) = ∅ := Intervals.points_zero a.toNat

theorem Gathered.absorb {covered : Map UInt64 UInt64} {ran : List Ran} {run : RunOut}
    (h : Gathered func covered ran) (hrun : HonestRun func covered run) (start : UInt64) :
    Gathered func (absorb covered start run.covered) (ran ++ run.ran) := by
  have hmerged : Gathered func (run.covered ∪ covered) (ran ++ run.ran) := by
    refine ⟨h.packed.union hrun.packed hrun.apart, fun a n ha ↦ ?_⟩
    rcases AList.mem_lookup_union.mp ha with ha | ⟨-, ha⟩
    · exact bytesOf_subset_bodyBytes (List.mem_append_right _ (hrun.ran a n ha))
        (hrun.packed.inside a n ha)
    · exact (h.ran a n ha).trans (bodyBytes_mono func (List.subset_append_left _ _))
  unfold Fnprint.absorb
  dsimp only
  split
  · refine ⟨hmerged.packed.insert ?_ fun a n _ _ ↦ ?_, fun a n ha ↦ ?_⟩
    · rw [bytesOf_zero]
      exact Finset.empty_subset _
    · rw [bytesOf_zero]
      exact Finset.disjoint_empty_right _
    · rcases lookup_insert_eq_some_iff.mp ha with ⟨rfl, rfl⟩ | ⟨-, ha⟩
      · rw [bytesOf_zero]
        exact Finset.empty_subset _
      · exact hmerged.ran a n ha
  · exact hmerged

theorem toNat_bodySize (hsize : 0 < func.size) : (bodySize func).toNat = func.size.toNat := by
  change (if func.size ≤ 1 then (1 : UInt64) else func.size).toNat = _
  split
  · rename_i hle
    rw [UInt64.lt_iff_toNat_lt] at hsize
    rw [UInt64.le_iff_toNat_le] at hle
    exact Nat.le_antisymm hsize hle
  · rfl

theorem Gathered.coverage_le (hsize : 0 < func.size) {covered : Map UInt64 UInt64}
    {ran : List Ran} (h : Gathered func covered ran) {s : UInt64}
    (hs : sumBytes covered = some s) :
    clamp (natCast s.toNat / natCast (bodySize func).toNat) 0.0 1.0 ≤ bodyShare func ran := by
  rw [toNat_bodySize hsize, toNat_sumBytes hs]
  exact clamp_le_bodyShare hsize (h.packed.lengths_le h.ran)

/-- Every trace is honest about the runs it reports on. -/
def Honest (func : Func) (out : List Explored) : Prop :=
  ∀ x ∈ out, x.trace.coverage ≤ bodyShare func x.ran

theorem Honest.append {out out' : List Explored} (h : Honest func out) (h' : Honest func out') :
    Honest func (out ++ out') := by
  intro x hx
  rcases List.mem_append.mp hx with hx | hx
  · exact h x hx
  · exact h' x hx

theorem honest_blanket (hsize : 0 < func.size) {cfg : Config} {starts : List UInt64} {n : ℕ}
    {covered : Map UInt64 UInt64} {ran : List Ran} {out out' : List Explored}
    (htidy : TidyBlanket emulate image func symbols cfg starts n covered)
    (hcovered : Gathered func covered ran) (hout : Honest func out)
    (h : blanket emulate image func symbols cfg starts n covered ran out = some out') :
    Honest func out' := by
  induction n generalizing covered ran out with
  | zero =>
      rw [← Option.some.inj h]
      exact hout
  | succ n ih =>
      obtain ⟨next, hnext, h⟩ := Option.bind_eq_some_iff.mp h
      cases next with
      | none =>
          rw [← Option.some.inj h]
          exact hout
      | some start =>
          obtain ⟨run, hrun, h⟩ := Option.bind_eq_some_iff.mp h
          obtain ⟨s, hs, h⟩ := Option.bind_eq_some_iff.mp h
          obtain ⟨hfrom, hrest⟩ := htidy start hnext
          have hgathered := hcovered.absorb (honest_runFrom hsize hfrom hrun) start
          refine ih (hrest run hrun) hgathered (hout.append fun x hx ↦ ?_) h
          rw [List.mem_singleton.mp hx]
          exact hgathered.coverage_le hsize hs

/-! ## Seeds -/

theorem honest_exploreSeed (hsize : 0 < func.size) {cfg : Config} {starts : List UInt64}
    {out out' : List Explored} {seed : UInt64}
    (htidy : TidySeed emulate image func symbols { cfg with seed := seed } starts)
    (hout : Honest func out)
    (h : exploreSeed emulate image func symbols cfg starts out seed = some out') :
    Honest func out' := by
  obtain ⟨base, hbase, h⟩ := Option.bind_eq_some_iff.mp h
  obtain ⟨forced, hforced, h⟩ := Option.bind_eq_some_iff.mp h
  obtain ⟨hfrom, htidy⟩ := htidy
  obtain ⟨hplans, hblanket⟩ := htidy base hbase
  have hhonest := honest_runFrom hsize hfrom hbase
  have hruns : Honest func ((base :: forced).map RunOut.explored) := by
    intro x hx
    obtain ⟨run, hrun, rfl⟩ := List.mem_map.mp hx
    rcases List.mem_cons.mp hrun with rfl | hrun
    · exact hhonest.coverage
    · obtain ⟨i, hi, hplan⟩ := Fallible.exists_of_mem_mapM hforced hrun
      exact (honest_runFrom hsize (hplans i (List.mem_range.mp hi)) hplan).coverage
  exact honest_blanket hsize hblanket (hhonest.gathered (List.subset_append_left _ _))
    (hout.append hruns) h

theorem honest_explore (hsize : 0 < func.size) {capstone : Option Disasm} {cfg : Config}
    {seeds : List UInt64} {out : List Explored}
    (htidy : TidyExplore emulate image func symbols capstone cfg seeds)
    (h : explore emulate image func symbols capstone cfg seeds = some out) : Honest func out := by
  obtain ⟨starts, hstarts, h⟩ := Option.bind_eq_some_iff.mp h
  have hseeds := htidy starts hstarts
  have hrun : ∀ (l : List UInt64) (o : List Explored),
      (∀ seed ∈ l, TidySeed emulate image func symbols { cfg with seed := seed } starts) →
      Honest func o → l.foldlM (exploreSeed emulate image func symbols cfg starts) o = some out →
      Honest func out := by
    intro l
    induction l with
    | nil =>
        intro o _ ho h
        rwa [← Option.some.inj h]
    | cons seed l ih =>
        intro o hl ho h
        rw [List.foldlM_cons] at h
        obtain ⟨o', ho', h⟩ := Option.bind_eq_some_iff.mp h
        obtain ⟨hseed, hl⟩ := List.forall_mem_cons.mp hl
        exact ih o' hl (honest_exploreSeed hsize hseed ho ho') h
  exact hrun seeds [] hseeds (by simp [Honest]) h

end Explore

/-! ## The figure -/

/-- In every run whose steps are all tidy the figure is at most the bytes of
the body that ran, and so is its share; the same holds of every trace of an
exploration, a restart's over all runs of its seed so far. -/
theorem coverage_honest (image : Image) (func : Func) (symbols : Map UInt64 String)
    (hsize : 0 < func.size) :
    (∀ cfg force callbacks clean r out,
      record cfg image func symbols force callbacks = some (r, out) →
      TidyRun func ∅ (Rec.start cfg image func symbols force) callbacks →
      let ran := executed (Rec.start cfg image func symbols force) callbacks
      r.coveredBytes.toNat ≤ (bodyBytes func ran).card ∧
        (r.finish func.size clean ran).trace.coverage ≤ bodyShare func ran) ∧
    ∀ emulate capstone cfg seeds out,
      explore emulate image func symbols capstone cfg seeds = some out →
      TidyExplore emulate image func symbols capstone cfg seeds →
      ∀ x ∈ out, x.trace.coverage ≤ bodyShare func x.ran := by
  constructor
  · intro cfg force callbacks clean r out hrecord htidy
    have htracked := (tracked_start cfg image symbols force).run htidy hrecord
    exact ⟨htracked.coveredBytes_le, htracked.coverage_le hsize clean⟩
  · intro emulate capstone cfg seeds out hexplore htidy
    exact honest_explore hsize htidy hexplore

/-! ## A jump out of the body -/

/-- A `test eax, imm32` that begins one byte before the body and runs into it:
the body is the immediate, a jump back to the `test`, two `nop`s and a `ret`. -/
def leadInImage : Image :=
  { segments := [⟨0x401001, [0xa9, 0xeb, 0xfd, 0x90, 0x90, 0xc3], true, false⟩]
    entry := 0x401002, isPie := false, arch := .x86_64 }

def leadInFunc : Func := ⟨none, 0x401002, 5, .symtab⟩

def leadInDisasm : Disasm := fun _ addr ↦
  some [⟨addr, [0xeb, 0xfd], some "jmp"⟩, ⟨addr + 2, [0x90], some "nop"⟩,
    ⟨addr + 3, [0x90], some "nop"⟩, ⟨addr + 4, [0xc3], some "ret"⟩]

/-- The `test` overlaps the jump, but it is not counted. -/
def leadInRun : List Callback :=
  [.code 0x401002 .plain 2 0 0, .code 0x401001 .plain 5 0 0,
    .code 0x401006 .ret 1 0 0, .read rsp0]

/-- The run from the first `nop` on, which nothing reached. -/
def leadInRestart : List Callback :=
  [.code 0x401004 .plain 1 0 0, .code 0x401005 .plain 1 0 0,
    .code 0x401006 .ret 1 0 0, .read rsp0]

def leadInEmulate : Emulate := fun _ _ start ↦
  some ⟨if start = 0x401002 then leadInRun else leadInRestart, true⟩

def leadInStart : Rec := Rec.start Config.default leadInImage leadInFunc ∅ []

def restartConfig : Config := { Config.default with blanketRestarts := 2 }

theorem coverage_honest_leadIn :
    (∃ r out, record Config.default leadInImage leadInFunc ∅ [] leadInRun = some (r, out) ∧
      r.coveredBytes = 3 ∧ (bodyBytes leadInFunc (executed leadInStart leadInRun)).card = 5 ∧
      r.coveredBytes.toNat ≤ (bodyBytes leadInFunc (executed leadInStart leadInRun)).card ∧
      (r.finish leadInFunc.size true (executed leadInStart leadInRun)).trace.coverage ≤
        bodyShare leadInFunc (executed leadInStart leadInRun)) ∧
    ∃ out, explore leadInEmulate leadInImage leadInFunc ∅ (some leadInDisasm) restartConfig [0] =
      some out ∧ out.length = 2 ∧ ∀ x ∈ out, x.trace.coverage ≤ bodyShare leadInFunc x.ran := by
  have hcounts : (record Config.default leadInImage leadInFunc ∅ [] leadInRun).map
      (fun p ↦ p.1.coveredBytes) = some 3 := by decide
  obtain ⟨⟨r, out⟩, hrun, hbytes⟩ := Option.map_eq_some_iff.mp hcounts
  have htidy : TidyRun leadInFunc ∅ leadInStart leadInRun := by decide +kernel
  have hruns : (explore leadInEmulate leadInImage leadInFunc ∅ (some leadInDisasm) restartConfig
      [0]).map List.length = some 2 := by decide +kernel
  obtain ⟨traces, hexplore, hlength⟩ := Option.map_eq_some_iff.mp hruns
  have htidies : TidyExplore leadInEmulate leadInImage leadInFunc ∅ (some leadInDisasm)
      restartConfig [0] := by decide +kernel
  obtain ⟨hone, hall⟩ := coverage_honest leadInImage leadInFunc ∅ (by decide)
  exact ⟨⟨r, out, hrun, hbytes, by decide, hone _ _ _ true _ _ hrun htidy⟩, traces, hexplore,
    hlength, hall _ _ _ _ _ hexplore htidies⟩

/-! ## A jump into itself -/

/-- A two-byte jump to its own second byte, which begins another instruction. -/
def selfJumpImage : Image :=
  { segments := [⟨0x401000, [0xeb, 0xff, 0xc0, 0xc3, 0x90, 0x90, 0x90, 0x90], true, false⟩]
    entry := 0x401000, isPie := false, arch := .x86_64 }

def selfJumpFunc : Func := ⟨none, 0x401000, 8, .symtab⟩

def selfJumpRun : List Callback :=
  [.code 0x401000 .plain 2 0 0, .code 0x401001 .plain 2 0 0,
    .code 0x401003 .ret 1 0 1, .read rsp0]

def selfJumpStart : Rec := Rec.start Config.default selfJumpImage selfJumpFunc ∅ []

/-- Four bytes run, the figure says five, and the coverage is five eighths. -/
theorem coverage_overstated :
    ∃ r out, record Config.default selfJumpImage selfJumpFunc ∅ [] selfJumpRun = some (r, out) ∧
      (bodyBytes selfJumpFunc (executed selfJumpStart selfJumpRun)).card = 4 ∧
      r.coveredBytes = 5 ∧
      ¬(r.finish selfJumpFunc.size true (executed selfJumpStart selfJumpRun)).trace.coverage ≤
        bodyShare selfJumpFunc (executed selfJumpStart selfJumpRun) := by
  have hcounts : (record Config.default selfJumpImage selfJumpFunc ∅ [] selfJumpRun).map
      (fun p ↦ p.1.coveredBytes) = some 5 := by decide
  obtain ⟨⟨r, out⟩, hrecord, hbytes⟩ := Option.map_eq_some_iff.mp hcounts
  have hran : (bodyBytes selfJumpFunc (executed selfJumpStart selfJumpRun)).card = 4 := by decide
  have hfigure : ¬coverageOf 5 8 ≤ natCast 4 / natCast 8 := by decide
  refine ⟨r, out, hrecord, hran, hbytes, ?_⟩
  rw [bodyShare, hran]
  change ¬coverageOf r.coveredBytes 8 ≤ natCast 4 / natCast 8
  rwa [show r.coveredBytes = 5 from hbytes]

end Fnprint
