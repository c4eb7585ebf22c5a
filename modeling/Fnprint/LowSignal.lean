import Fnprint.Accounting
import Fnprint.InputOrder
import Fnprint.Query

/-!
# Functions with too little signal

They never have a partner, so they take no part in an alignment: neither as
candidates nor as neighbours.  What a query reports depends on the functions
with signal only, on both sides.
-/

namespace Fnprint

open Binary64 StableSort KeyMap Search

/-! ## Nodes as an index lists them -/

/-- Every group by increasing entries, every function with increasing callees. -/
structure Listed (b : List Node) : Prop where
  entries : b.Pairwise fun m n ↦ m.group = n.group → m.entry < n.entry
  callees : ∀ n ∈ b, n.callees.Pairwise (· < ·)

namespace Listed

variable {b : List Node}

theorem nodup_keys (h : Listed b) : (b.map fun n ↦ (n.group, n.entry)).Nodup := by
  rw [List.Nodup, List.pairwise_map]
  refine h.entries.imp fun {m n} hlt heq ↦ ?_
  obtain ⟨hgroup, hentry⟩ := Prod.mk.inj heq
  exact UInt64.ne_of_lt (hlt hgroup) hentry

theorem of_sublist {b' : List Node} (h : Listed b) (hsub : b'.Sublist b) : Listed b' where
  entries := h.entries.sublist hsub
  callees n hn := h.callees n (hsub.mem hn)

theorem entry_lt (h : Listed b) {i j : ℕ} (hij : i < j) (hj : j < b.length)
    (hgroup : (nodeAt b i).group = (nodeAt b j).group) :
    (nodeAt b i).entry < (nodeAt b j).entry := by
  have hi := hij.trans hj
  rw [nodeAt_eq_getElem hi, nodeAt_eq_getElem hj] at hgroup ⊢
  exact List.pairwise_iff_getElem.mp h.entries i j hi hj hij hgroup

theorem pairwise_bCallees (h : Listed b) {i : ℕ} (hi : i < b.length) :
    ((bCallees b).getD i []).Pairwise (· ≤ ·) := by
  rw [getD_bCallees hi, List.filterMap_map]
  refine (h.callees _ (nodeAt_mem hi)).filterMap _ fun e e' hlt y hy z hz ↦ ?_
  obtain ⟨hylt, hykey⟩ := (lookup_indexBy_nodeAt h.nodup_keys).mp hy
  obtain ⟨-, hzkey⟩ := (lookup_indexBy_nodeAt h.nodup_keys).mp hz
  obtain ⟨hygroup, rfl⟩ := Prod.mk.inj hykey
  obtain ⟨hzgroup, rfl⟩ := Prod.mk.inj hzkey
  by_contra hzy
  have hback := h.entry_lt (Nat.lt_of_not_le hzy) hylt (hzgroup.trans hygroup.symm)
  exact UInt64.lt_asymm hlt hback

/-- No search over the callees of listed nodes misses. -/
theorem searching {a : List Node} (hk : Keyed a b) (h : Listed b) (K : List (Node × Node)) :
    Searching a b K := by
  intro m _ n _ q _ _ hcalls i j hi hj
  obtain ⟨hilt, hin⟩ := List.getElem?_eq_some_iff.mp hi
  obtain ⟨hjlt, hjy⟩ := List.getElem?_eq_some_iff.mp hj
  rw [← nodeAt_eq_getElem hilt] at hin
  rw [← nodeAt_eq_getElem hjlt] at hjy
  apply (binarySearch_isSome_iff (h.pairwise_bCallees hilt)).mpr
  apply (mem_bCallees_iff hk hilt).mpr
  rw [hin, hjy]
  exact ⟨hjlt, hcalls⟩

end Listed

/-! ## Two alignments of the same nodes with signal -/

/-- Whatever the pairs are read as, two alignments with the same nodes with
signal read the same. -/
theorem map_align_congr {a b a' b' : List Node} (ha : (a.map Node.entry).Nodup)
    (ha' : (a'.map Node.entry).Nodup) (hb : Listed b) (hb' : Listed b')
    (hsame : SameUsable a' a) (hsame' : SameUsable b' b) (opts : Opts) {β : Type*}
    {read read' : Pair → β} {readView : NodeCand → β}
    (hread : ∀ c, read (toPair (weight opts) c) = readView (view a b c))
    (hread' : ∀ c, read' (toPair (weight opts) c) = readView (view a' b' c)) :
    ((align a' b' opts).map read').Perm ((align a b opts).map read) := by
  have hk : Keyed a b := ⟨ha, hb.nodup_keys⟩
  have hk' : Keyed a' b' := ⟨ha', hb'.nodup_keys⟩
  have hviews := @view_rescored_congr a b (weight opts) _ a' b' _ hk hk' hsame hsame'
    (activeRounds opts) (fun _ _ ↦ hb.searching hk _) (fun _ _ _ ↦ hb'.searching hk' _)
    (proper_candidates a b) (proper_candidates a' b') (view_candidates_congr hk hk' hsame hsame')
  have hkept := kept_rescored_congr hk hk' (proper_candidates a b) (proper_candidates a' b')
    (activeRounds opts) hviews
  refine (map_align_perm hk' opts hread').trans ?_
  rw [hkept]
  exact (map_align_perm hk opts hread).symm

/-! ## The query -/

def namedNode (w : Float) (v : NodeCand) : Named :=
  { entry := v.m.entry
    guess := v.n.name.getD ""
    fromBinary := v.n.group
    similarity := v.sim
    graph := v.graph
    score := minNum (nodeRank w v) 1.0 }

theorem nodeAt_map_fromRec (recs : List FuncRec) (j : ℕ) :
    nodeAt (recs.map Node.fromRec) j = Node.fromRec (recAt recs j) :=
  List.getD_map recs default Node.fromRec

theorem namedOf_toPair (target : List IndexedFunc) (recs : List FuncRec) (w : Float) (c : Cand) :
    namedOf target recs (toPair w c) =
      namedNode w (view (target.map Node.fromIndexed) (recs.map Node.fromRec) c) := by
  rw [namedNode, view, nodeAt_map_fromIndexed, nodeAt_map_fromRec]
  rfl

theorem nodup_named_entries {target : List IndexedFunc} {b : List Node} {opts : Opts}
    (htarget : (target.map IndexedFunc.entry).Nodup) :
    ((align (target.map Node.fromIndexed) b opts).map fun p ↦ (funcAt target p.a).entry).Nodup := by
  have hone := (assigned_align (target.map Node.fromIndexed) b opts).oneToOne
  have hkeys : ((target.map Node.fromIndexed).map Node.entry).Nodup := by
    rwa [List.map_map]
  rw [List.Nodup, List.pairwise_map]
  have hnodup := hone.nodup_a
  rw [List.Nodup, List.pairwise_map] at hnodup
  refine hnodup.imp_of_mem fun {p q} hp hq hne heq ↦ hne ?_
  apply nodeAt_injOn hkeys (hone.range p hp).1 (hone.range q hq).1
  rw [nodeAt_map_fromIndexed, nodeAt_map_fromIndexed]
  exact heq

theorem eq_of_namedCmp {target : List IndexedFunc} {b : List Node} {opts : Opts}
    {recs : List FuncRec} (htarget : (target.map IndexedFunc.entry).Nodup) {x y : Named}
    (hx : x ∈ (align (target.map Node.fromIndexed) b opts).map (namedOf target recs))
    (hy : y ∈ (align (target.map Node.fromIndexed) b opts).map (namedOf target recs))
    (htie : namedCmp x y = .eq) : x = y := by
  obtain ⟨p, hp, rfl⟩ := List.mem_map.mp hx
  obtain ⟨q, hq, rfl⟩ := List.mem_map.mp hy
  obtain ⟨-, htie⟩ := compareLex_eq_iff.mp htie
  obtain ⟨-, hentry⟩ := compareLex_eq_iff.mp htie
  rw [List.inj_on_of_nodup_map (nodup_named_entries htarget) hp hq
    (Std.LawfulEqCmp.eq_of_compare hentry)]

def namedRows (all : List FuncRec) : List FuncRec := all.filter fun r ↦ r.name.isSome

theorem queryCorpus_eq {corpus : Corpus} {all : List FuncRec} (hall : corpus.all = .ok all)
    (target : List IndexedFunc) (threshold graphWeight : Float) :
    queryCorpus target corpus threshold graphWeight =
      .ok (sortBy namedCmp ((align (target.map Node.fromIndexed)
        ((namedRows all).map Node.fromRec) ⟨threshold, graphWeight, 2⟩).map
          (namedOf target (namedRows all)))) := by
  rw [queryCorpus, hall]
  rfl

/-- Functions with too little signal change nothing: queries with the same
functions with signal, in whatever order, report the same rows. -/
theorem query_ignores_low_signal {target target' : List IndexedFunc} {corpus corpus' : Corpus}
    {all all' : List FuncRec} (hall : corpus.all = .ok all) (hall' : corpus'.all = .ok all')
    (htarget : (target.map IndexedFunc.entry).Nodup)
    (htarget' : (target'.map IndexedFunc.entry).Nodup) (hrows : Listed (all.map Node.fromRec))
    (hrows' : Listed (all'.map Node.fromRec))
    (hsame : SameUsable (target'.map Node.fromIndexed) (target.map Node.fromIndexed))
    (hsame' : SameUsable ((namedRows all').map Node.fromRec) ((namedRows all).map Node.fromRec))
    (threshold graphWeight : Float) :
    queryCorpus target' corpus' threshold graphWeight =
      queryCorpus target corpus threshold graphWeight := by
  have hkeys : ((target.map Node.fromIndexed).map Node.entry).Nodup := by
    rwa [List.map_map]
  have hkeys' : ((target'.map Node.fromIndexed).map Node.entry).Nodup := by
    rwa [List.map_map]
  have hlisted := hrows.of_sublist ((List.filter_sublist (p := fun r ↦ r.name.isSome)).map _)
  have hlisted' := hrows'.of_sublist ((List.filter_sublist (p := fun r ↦ r.name.isSome)).map _)
  have hperm := map_align_congr hkeys hkeys' hlisted hlisted' hsame hsame'
    ⟨threshold, graphWeight, 2⟩ (namedOf_toPair target (namedRows all) _)
    (namedOf_toPair target' (namedRows all') _)
  rw [queryCorpus_eq hall', queryCorpus_eq hall]
  exact congrArg Except.ok (sortBy_eq_of_perm namedCmp hperm.symm fun x hx y hy htie ↦
    eq_of_namedCmp htarget hx hy htie).symm

/-- A function without signal that calls the other, and a row that is called. -/
def quietFunc : IndexedFunc := ⟨some "q", 0x30, .symtab, default, 1.0, [0x40]⟩

def quietRow : FuncRec := ⟨2, "lib", some "g", 0x20, "symtab", default, [0x10]⟩

theorem query_ignores_low_signal_caller :
    queryCorpus [quietFunc, strayFunc] (MemCorpus.fromRecords [strayRow, quietRow]).toCorpus
        0.7 1.0 =
      queryCorpus [strayFunc] (MemCorpus.fromRecords [strayRow]).toCorpus 0.7 1.0 := by
  have htarget : SameUsable ([quietFunc, strayFunc].map Node.fromIndexed)
      ([strayFunc].map Node.fromIndexed) := List.Perm.refl _
  have hrows : SameUsable ((namedRows [strayRow, quietRow]).map Node.fromRec)
      ((namedRows [strayRow]).map Node.fromRec) := List.Perm.refl _
  exact query_ignores_low_signal rfl rfl (by decide) (by decide) ⟨by decide, by decide⟩
    ⟨by decide, by decide⟩ htarget hrows 0.7 1.0

end Fnprint
