import Fnprint.ByName
import Fnprint.Similarity

/-!
# The diff by name and the order of its inputs

The entries of a hash map come in an order that changes from run to run.  With
distinct names the report is a function of the twins, the pairs of functions
of one name: the order of the maps and of the functions does not matter, and
exchanging the sides exchanges the two lists of lone names.
-/

namespace Fnprint

open StableSort KeyMap Binary64

abbrev NameEntry := Sigma fun _ : String ↦ ℕ

/-- The names of some entries that a map does not have. -/
def loneNames (entries : List NameEntry) (other : Map String ℕ) : List String :=
  (entries.filter fun entry ↦ (other.lookup entry.1).isNone).map fun entry ↦ entry.1

/-- The diff by name, the entries of the two maps coming in the orders given. -/
def matchByNameIn (aEntries bEntries : List NameEntry) (a b : List IndexedFunc) : MatchReport :=
  let rep := (aEntries.map (visit (nameMap b))).foldl (tally a b) MatchReport.default
  MatchReport.sorted { rep with onlyB := loneNames bEntries (nameMap a) }

theorem matchByName_eq_in (a b : List IndexedFunc) :
    matchByName a b = matchByNameIn (nameMap a).entries (nameMap b).entries a b := rfl

/-! ## Distinct names -/

/-- No name occurs twice. -/
def DistinctNames (l : List IndexedFunc) : Prop := (l.filterMap IndexedFunc.name).Nodup

instance (l : List IndexedFunc) : Decidable (DistinctNames l) :=
  inferInstanceAs (Decidable (List.Nodup _))

section Names

variable {l l' : List IndexedFunc}

theorem DistinctNames.perm (h : DistinctNames l) (hl : l'.Perm l) : DistinctNames l' :=
  (hl.filterMap IndexedFunc.name).nodup_iff.mpr h

theorem DistinctNames.index_eq (h : DistinctNames l) {i j : ℕ} {f g : IndexedFunc} {name : String}
    (hf : l[i]? = some f) (hg : l[j]? = some g) (hfname : f.name = some name)
    (hgname : g.name = some name) : i = j := by
  obtain ⟨hi, rfl⟩ := List.getElem?_eq_some_iff.mp hf
  obtain ⟨hj, rfl⟩ := List.getElem?_eq_some_iff.mp hg
  have hpair := List.pairwise_iff_getElem.mp (List.pairwise_filterMap.mp h)
  rcases Nat.lt_trichotomy i j with hlt | heq | hlt
  · exact absurd rfl (hpair i j hi hj hlt name hfname name hgname)
  · exact heq
  · exact absurd rfl (hpair j i hj hi hlt name hgname name hfname)

theorem DistinctNames.eq_of_name (h : DistinctNames l) {f g : IndexedFunc} {name : String}
    (hf : f ∈ l) (hg : g ∈ l) (hfname : f.name = some name) (hgname : g.name = some name) :
    f = g := by
  obtain ⟨i, hi⟩ := List.mem_iff_getElem?.mp hf
  obtain ⟨j, hj⟩ := List.mem_iff_getElem?.mp hg
  obtain rfl := h.index_eq hi hj hfname hgname
  exact Option.some.inj (hi.symm.trans hj)

theorem DistinctNames.lookup_nameMap (h : DistinctNames l) {name : String} {i : ℕ} :
    (nameMap l).lookup name = some i ↔ ∃ f, l[i]? = some f ∧ f.name = some name := by
  rw [nameMap, lookup_indexByOpt_eq_some_iff]
  refine ⟨fun hi ↦ hi.1, fun hi ↦ ⟨hi, fun k g hk hg hname ↦ ?_⟩⟩
  obtain ⟨f, hf, hfname⟩ := hi
  exact hk.ne (h.index_eq hf hg hfname hname)

theorem DistinctNames.lookup_eq_none (h : DistinctNames l) {name : String} :
    (nameMap l).lookup name = none ↔ ∀ f ∈ l, f.name ≠ some name := by
  rw [Option.eq_none_iff_forall_ne_some]
  constructor
  · intro hnone f hf hname
    obtain ⟨i, hi⟩ := List.mem_iff_getElem?.mp hf
    exact hnone i (h.lookup_nameMap.mpr ⟨f, hi, hname⟩)
  · intro hnone i hi
    obtain ⟨f, hf, hname⟩ := h.lookup_nameMap.mp hi
    exact hnone f (List.mem_of_getElem? hf) hname

end Names

/-! ## Twins -/

/-- The functions of one name in the two indexes. -/
structure Twins where
  name : String
  fa : IndexedFunc
  fb : IndexedFunc

/-- What does not depend on the side. -/
def Changed.shown (c : Changed) : String × Float := (c.name, c.similarity)

namespace Twins

def swap (t : Twins) : Twins := ⟨t.name, t.fb, t.fa⟩

def tooSmall (t : Twins) : Bool :=
  t.fa.fp.complexity < minComplexity || t.fb.fp.complexity < minComplexity

def sim (t : Twins) : Float := t.fa.fp.similarity t.fb.fp

def same (t : Twins) : Bool := !t.tooSmall && decide (sameThresh ≤ t.sim)

def changed (t : Twins) : Option Changed :=
  if t.tooSmall || decide (sameThresh ≤ t.sim) then none
  else some ⟨t.name, t.sim, some t.fa.entry, some t.fb.entry⟩

theorem swap_injective : Function.Injective swap := fun t u h ↦ by
  have hback := congrArg swap h
  exact hback

@[simp] theorem tooSmall_swap (t : Twins) : t.swap.tooSmall = t.tooSmall := Bool.or_comm _ _

@[simp] theorem sim_swap (t : Twins) : t.swap.sim = t.sim := Fingerprint.similarity_comm _ _

@[simp] theorem same_swap (t : Twins) : t.swap.same = t.same := by
  rw [same, same, tooSmall_swap, sim_swap]

theorem name_of_changed {t : Twins} {c : Changed} (h : t.changed = some c) : c.name = t.name := by
  unfold changed at h
  split at h
  · cases h
  · rw [← Option.some.inj h]

theorem changed_swap (t : Twins) :
    t.swap.changed.map Changed.shown = t.changed.map Changed.shown := by
  unfold changed
  rw [tooSmall_swap, sim_swap]
  split <;> rfl

end Twins

def Visit.twins (a b : List IndexedFunc) : Visit → Option Twins
  | .compared name i j => some ⟨name, funcAt a i, funcAt b j⟩
  | .onlyA .. => none

/-- The report of some twins and lone names. -/
def reportOf (ts : List Twins) (onlyA onlyB : List String) : MatchReport :=
  MatchReport.sorted
    { same := ts.countP Twins.same
      changed := ts.filterMap Twins.changed
      onlyA := onlyA
      onlyB := onlyB
      compared := ts.length
      lowSignal := ts.countP Twins.tooSmall }

theorem tally_compared (a b : List IndexedFunc) (rep : MatchReport) (name : String) (i j : ℕ) :
    tally a b rep (.compared name i j) =
      let t : Twins := ⟨name, funcAt a i, funcAt b j⟩
      { rep with
        same := rep.same + if t.same then 1 else 0
        changed := rep.changed ++ t.changed.toList
        compared := rep.compared + 1
        lowSignal := rep.lowSignal + if t.tooSmall then 1 else 0 } := by
  simp only [tally, Twins.same, Twins.changed, Twins.tooSmall, Twins.sim]
  split
  · next hsmall => simp [hsmall]
  · next hsmall =>
      rw [Bool.not_eq_true] at hsmall
      by_cases hsame : sameThresh ≤ (funcAt a i).fp.similarity (funcAt b j).fp
      · simp [hsmall, hsame]
      · simp [hsmall, hsame]

theorem foldl_tally_twins (a b : List IndexedFunc) (vs : List Visit) (rep : MatchReport) :
    vs.foldl (tally a b) rep =
      let ts := vs.filterMap (Visit.twins a b)
      { same := rep.same + ts.countP Twins.same
        changed := rep.changed ++ ts.filterMap Twins.changed
        onlyA := rep.onlyA ++ vs.filterMap Visit.onlyName
        onlyB := rep.onlyB
        compared := rep.compared + ts.length
        lowSignal := rep.lowSignal + ts.countP Twins.tooSmall } := by
  induction vs generalizing rep with
  | nil => simp
  | cons v vs ih =>
      rw [List.foldl_cons, ih]
      cases v with
      | onlyA name i =>
          have htwins : Visit.twins a b (.onlyA name i) = none := rfl
          have hname : Visit.onlyName (.onlyA name i) = some name := rfl
          rw [List.filterMap_cons_none htwins, List.filterMap_cons_some hname]
          simp [tally]
      | compared name i j =>
          have htwins : Visit.twins a b (.compared name i j) =
              some ⟨name, funcAt a i, funcAt b j⟩ := rfl
          have hname : Visit.onlyName (.compared name i j) = none := rfl
          rw [tally_compared, List.filterMap_cons_some htwins, List.filterMap_cons_none hname]
          simp only [List.countP_cons, List.length_cons, MatchReport.mk.injEq]
          refine ⟨by ac_rfl, ?_, trivial, trivial, by ac_rfl, by ac_rfl⟩
          rw [List.append_assoc, List.filterMap_cons]
          cases (⟨name, funcAt a i, funcAt b j⟩ : Twins).changed <;> rfl

section Reports

variable {a b a' b' : List IndexedFunc} {ea eb ea' eb' : List NameEntry}

/-- The twins, in the order of some entries of the name map of `a`. -/
def twinsIn (entries : List NameEntry) (a b : List IndexedFunc) : List Twins :=
  (entries.map (visit (nameMap b))).filterMap (Visit.twins a b)

theorem filterMap_onlyName (entries : List NameEntry) (bmap : Map String ℕ) :
    (entries.map (visit bmap)).filterMap Visit.onlyName = loneNames entries bmap := by
  rw [List.filterMap_map, loneNames, ← List.filterMap_eq_map, List.filterMap_filter]
  congr 1
  funext entry
  rw [Function.comp_apply, visit]
  cases bmap.lookup entry.1 <;> rfl

theorem matchByNameIn_eq (ea eb : List NameEntry) (a b : List IndexedFunc) :
    matchByNameIn ea eb a b =
      reportOf (twinsIn ea a b) (loneNames ea (nameMap b)) (loneNames eb (nameMap a)) := by
  simp only [matchByNameIn, foldl_tally_twins, filterMap_onlyName, MatchReport.default, reportOf,
    twinsIn, Nat.zero_add, List.nil_append]

theorem mem_twinsIn (ha : DistinctNames a) (hb : DistinctNames b)
    (hea : ea.Perm (nameMap a).entries) {t : Twins} :
    t ∈ twinsIn ea a b ↔
      (t.fa ∈ a ∧ t.fa.name = some t.name) ∧ t.fb ∈ b ∧ t.fb.name = some t.name := by
  have hat : ∀ {l : List IndexedFunc} {i : ℕ} {f : IndexedFunc}, l[i]? = some f → funcAt l i = f :=
    fun h ↦ by rw [funcAt, List.getD_eq_getElem?_getD, h, Option.getD_some]
  rw [twinsIn, List.mem_filterMap]
  constructor
  · rintro ⟨v, hv, ht⟩
    obtain ⟨⟨name, i⟩, hmem, rfl⟩ := List.mem_map.mp hv
    have hi := mem_entries_nameMap.mp (hea.mem_iff.mp hmem)
    cases hj : (nameMap b).lookup name with
    | none => simp [visit, hj, Visit.twins] at ht
    | some j =>
        obtain ⟨f, hf, hfname⟩ := ha.lookup_nameMap.mp hi
        obtain ⟨g, hg, hgname⟩ := hb.lookup_nameMap.mp hj
        simp only [visit, hj, Visit.twins, hat hf, hat hg] at ht
        obtain rfl := Option.some.inj ht
        exact ⟨⟨List.mem_of_getElem? hf, hfname⟩, List.mem_of_getElem? hg, hgname⟩
  · rintro ⟨⟨hf, hfname⟩, hg, hgname⟩
    obtain ⟨i, hi⟩ := List.mem_iff_getElem?.mp hf
    obtain ⟨j, hj⟩ := List.mem_iff_getElem?.mp hg
    have hentry := mem_entries_nameMap.mpr (ha.lookup_nameMap.mpr ⟨t.fa, hi, hfname⟩)
    have hlookup := hb.lookup_nameMap.mpr ⟨t.fb, hj, hgname⟩
    refine ⟨_, List.mem_map_of_mem (hea.mem_iff.mpr hentry), ?_⟩
    simp only [visit, hlookup, Visit.twins, hat hi, hat hj]

theorem nodup_keys_of_perm (hea : ea.Perm (nameMap a).entries) :
    (ea.map fun entry ↦ entry.1).Nodup :=
  (hea.map _).nodup_iff.mpr (nameMap a).nodupKeys

theorem nodup_names_twinsIn (hea : ea.Perm (nameMap a).entries) :
    ((twinsIn ea a b).map Twins.name).Nodup := by
  have hkeys := nodup_keys_of_perm hea
  rw [List.Nodup, List.pairwise_map] at hkeys ⊢
  rw [twinsIn, List.pairwise_filterMap, List.pairwise_map]
  refine hkeys.imp fun {x y} hne t ht u hu ↦ ?_
  have hname : ∀ {entry : NameEntry} {t : Twins},
      Visit.twins a b (visit (nameMap b) entry) = some t → t.name = entry.1 := by
    intro entry t h
    unfold visit at h
    split at h
    · rw [← Option.some.inj h]
    · cases h
  rwa [hname ht, hname hu]

theorem twinsIn_perm (ha : DistinctNames a) (hb : DistinctNames b) (hpa : a'.Perm a)
    (hpb : b'.Perm b) (hea : ea.Perm (nameMap a).entries) (hea' : ea'.Perm (nameMap a').entries) :
    (twinsIn ea' a' b').Perm (twinsIn ea a b) := by
  rw [List.perm_ext_iff_of_nodup (nodup_names_twinsIn hea').of_map
    (nodup_names_twinsIn hea).of_map]
  intro t
  rw [mem_twinsIn (ha.perm hpa) (hb.perm hpb) hea', mem_twinsIn ha hb hea, hpa.mem_iff, hpb.mem_iff]

theorem twinsIn_swap (ha : DistinctNames a) (hb : DistinctNames b)
    (hea : ea.Perm (nameMap a).entries) (heb : eb.Perm (nameMap b).entries) :
    (twinsIn eb b a).Perm ((twinsIn ea a b).map Twins.swap) := by
  have hnodup := (nodup_names_twinsIn (b := b) hea).of_map
  rw [List.perm_ext_iff_of_nodup (nodup_names_twinsIn heb).of_map
    (hnodup.map Twins.swap_injective)]
  intro t
  rw [mem_twinsIn hb ha heb, List.mem_map]
  constructor
  · rintro ⟨hg, hf⟩
    exact ⟨t.swap, (mem_twinsIn ha hb hea).mpr ⟨hf, hg⟩, rfl⟩
  · rintro ⟨u, hu, rfl⟩
    obtain ⟨hf, hg⟩ := (mem_twinsIn ha hb hea).mp hu
    exact ⟨hg, hf⟩

theorem mem_loneNames (ha : DistinctNames a) (hb : DistinctNames b)
    (hea : ea.Perm (nameMap a).entries) {name : String} :
    name ∈ loneNames ea (nameMap b) ↔
      (∃ f ∈ a, f.name = some name) ∧ ∀ g ∈ b, g.name ≠ some name := by
  rw [loneNames, List.mem_map]
  constructor
  · rintro ⟨⟨n, i⟩, hmem, rfl⟩
    obtain ⟨hentry, hnone⟩ := List.mem_filter.mp hmem
    have hi := mem_entries_nameMap.mp (hea.mem_iff.mp hentry)
    obtain ⟨f, hf, hname⟩ := ha.lookup_nameMap.mp hi
    exact ⟨⟨f, List.mem_of_getElem? hf, hname⟩,
      hb.lookup_eq_none.mp (Option.isNone_iff_eq_none.mp hnone)⟩
  · rintro ⟨⟨f, hf, hname⟩, hnone⟩
    obtain ⟨i, hi⟩ := List.mem_iff_getElem?.mp hf
    have hentry := mem_entries_nameMap.mpr (ha.lookup_nameMap.mpr ⟨f, hi, hname⟩)
    refine ⟨⟨name, i⟩, List.mem_filter.mpr ⟨hea.mem_iff.mpr hentry, ?_⟩, rfl⟩
    exact Option.isNone_iff_eq_none.mpr (hb.lookup_eq_none.mpr hnone)

theorem nodup_loneNames (hea : ea.Perm (nameMap a).entries) (other : Map String ℕ) :
    (loneNames ea other).Nodup :=
  (nodup_keys_of_perm hea).sublist (List.filter_sublist.map _)

theorem loneNames_perm (ha : DistinctNames a) (hb : DistinctNames b) (hpa : a'.Perm a)
    (hpb : b'.Perm b) (hea : ea.Perm (nameMap a).entries) (hea' : ea'.Perm (nameMap a').entries) :
    (loneNames ea' (nameMap b')).Perm (loneNames ea (nameMap b)) := by
  rw [List.perm_ext_iff_of_nodup (nodup_loneNames hea' _) (nodup_loneNames hea _)]
  intro name
  rw [mem_loneNames (ha.perm hpa) (hb.perm hpb) hea', mem_loneNames ha hb hea]
  simp only [hpa.mem_iff, hpb.mem_iff]

end Reports

/-! ## The sorted report -/

theorem sort_names_eq {l l' : List String} (h : l'.Perm l) :
    sortBy compare l' = sortBy compare l :=
  sortBy_eq_of_perm compare h fun _ _ _ _ heq ↦ Std.LawfulEqCmp.eq_of_compare heq

instance : Std.TransCmp changedCmp := inferInstanceAs (Std.TransCmp (compareLex _ _))

/-- A sorted report depends on which twins and lone names there are. -/
theorem reportOf_eq_of_perm {ts ts' : List Twins} {onlyA onlyA' onlyB onlyB' : List String}
    (hnames : (ts.map Twins.name).Nodup) (ht : ts'.Perm ts) (ha : onlyA'.Perm onlyA)
    (hb : onlyB'.Perm onlyB) : reportOf ts' onlyA' onlyB' = reportOf ts onlyA onlyB := by
  have hchanged : sortBy changedCmp (ts'.filterMap Twins.changed) =
      sortBy changedCmp (ts.filterMap Twins.changed) := by
    refine sortBy_eq_of_perm changedCmp (ht.filterMap _) fun c hc d hd htie ↦ ?_
    obtain ⟨t, htmem, hct⟩ := List.mem_filterMap.mp hc
    obtain ⟨u, humem, hdu⟩ := List.mem_filterMap.mp hd
    have hname : c.name = d.name := Std.LawfulEqCmp.eq_of_compare (compareLex_eq_iff.mp htie).2
    rw [Twins.name_of_changed hct, Twins.name_of_changed hdu] at hname
    have htu := List.inj_on_of_nodup_map hnames (ht.mem_iff.mp htmem) (ht.mem_iff.mp humem) hname
    rw [htu, hdu] at hct
    exact (Option.some.inj hct).symm
  simp only [reportOf, MatchReport.sorted, hchanged, sort_names_eq ha, sort_names_eq hb,
    ht.countP_eq, ht.length_eq]

/-- The report `s` is the report `r` with the two sides exchanged. -/
structure Exchanged (r s : MatchReport) : Prop where
  compared : s.compared = r.compared
  same : s.same = r.same
  lowSignal : s.lowSignal = r.lowSignal
  changed : s.changed.map Changed.shown = r.changed.map Changed.shown
  onlyA : s.onlyA = r.onlyB
  onlyB : s.onlyB = r.onlyA

def shownCmp : String × Float → String × Float → Ordering :=
  compareLex (byKey Prod.snd totalCmp) (byKey Prod.fst compare)

instance : Std.TransCmp shownCmp := inferInstanceAs (Std.TransCmp (compareLex _ _))

/-- What is shown of the changed pairs is sorted without ties. -/
theorem shown_sorted_eq {l l' : List Changed}
    (h : (l'.map Changed.shown).Perm (l.map Changed.shown)) :
    (sortBy changedCmp l').map Changed.shown = (sortBy changedCmp l).map Changed.shown := by
  have hview : ∀ l : List Changed, (sortBy changedCmp l).map Changed.shown =
      sortBy shownCmp (l.map Changed.shown) := fun l ↦ map_sortBy Changed.shown fun _ _ _ _ ↦ rfl
  rw [hview, hview]
  refine sortBy_eq_of_perm shownCmp h fun p _ q _ htie ↦ ?_
  obtain ⟨hsim, hname⟩ := compareLex_eq_iff.mp htie
  exact Prod.ext (Std.LawfulEqCmp.eq_of_compare hname) (totalCmp_eq_iff.mp hsim)

theorem exchanged_reportOf {ts ts' : List Twins} {onlyA onlyB : List String}
    (ht : ts'.Perm (ts.map Twins.swap)) :
    Exchanged (reportOf ts onlyA onlyB) (reportOf ts' onlyB onlyA) where
  compared := ht.length_eq.trans (List.length_map _)
  same := by
    refine (ht.countP_eq _).trans ?_
    rw [List.countP_map]
    exact List.countP_congr fun t _ ↦ by simp
  lowSignal := by
    refine (ht.countP_eq _).trans ?_
    rw [List.countP_map]
    exact List.countP_congr fun t _ ↦ by simp
  changed := by
    refine shown_sorted_eq ?_
    have hshown := ht.filterMap fun t ↦ t.changed.map Changed.shown
    rw [List.filterMap_map] at hshown
    rw [List.map_filterMap, List.map_filterMap]
    refine hshown.trans (List.Perm.of_eq ?_)
    congr 1
    funext t
    exact t.changed_swap
  onlyA := rfl
  onlyB := rfl

/-- With distinct names the report depends neither on the order in which the
maps are read nor on the order of the functions, and exchanging the indexes
exchanges its sides. -/
theorem matchByName_order_independent {a b a' b' : List IndexedFunc} {ea eb : List NameEntry}
    (ha : DistinctNames a) (hb : DistinctNames b) (hpa : a'.Perm a) (hpb : b'.Perm b)
    (hea : ea.Perm (nameMap a').entries) (heb : eb.Perm (nameMap b').entries) :
    matchByNameIn ea eb a' b' = matchByName a b ∧
      Exchanged (matchByName a b) (matchByNameIn eb ea b' a') := by
  have hrefl := fun l : List IndexedFunc ↦ List.Perm.refl (nameMap l).entries
  have hsame : matchByNameIn ea eb a' b' = matchByName a b := by
    rw [matchByName_eq_in, matchByNameIn_eq, matchByNameIn_eq]
    exact reportOf_eq_of_perm (nodup_names_twinsIn (hrefl a))
      (twinsIn_perm ha hb hpa hpb (hrefl a) hea)
      (loneNames_perm ha hb hpa hpb (hrefl a) hea) (loneNames_perm hb ha hpb hpa (hrefl b) heb)
  refine ⟨hsame, ?_⟩
  rw [← hsame, matchByNameIn_eq, matchByNameIn_eq]
  exact exchanged_reportOf (twinsIn_swap (ha.perm hpa) (hb.perm hpb) hea heb)

/-- Two functions and one without a name. -/
def namedPair (x y : String) (v w : UInt64) : List IndexedFunc :=
  [⟨some x, 0x10, .symtab, constPrint v, 1.0, []⟩, ⟨none, 0x20, .ehFrame, constPrint 3, 1.0, []⟩,
    ⟨some y, 0x30, .symtab, constPrint w, 1.0, []⟩]

theorem matchByName_order_independent_namedPair :
    matchByNameIn (nameMap (namedPair "f" "g" 1 2).reverse).entries.reverse
        (nameMap (namedPair "g" "h" 4 5)).entries.reverse
        (namedPair "f" "g" 1 2).reverse (namedPair "g" "h" 4 5) =
          matchByName (namedPair "f" "g" 1 2) (namedPair "g" "h" 4 5) ∧
      Exchanged (matchByName (namedPair "f" "g" 1 2) (namedPair "g" "h" 4 5))
        (matchByNameIn (nameMap (namedPair "g" "h" 4 5)).entries.reverse
          (nameMap (namedPair "f" "g" 1 2).reverse).entries.reverse
          (namedPair "g" "h" 4 5) (namedPair "f" "g" 1 2).reverse) :=
  matchByName_order_independent (by decide) (by decide) (List.reverse_perm _) (List.Perm.refl _)
    (List.reverse_perm _) (List.reverse_perm _)

end Fnprint
