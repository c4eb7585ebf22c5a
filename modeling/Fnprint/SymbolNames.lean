import Fnprint.LoaderBounds

/-!
# Which address a name stands for

The loader keeps one function for each address: the first one with a name in
the order of the tables, `.symtab` before `.dynsym`, and a nameless one only
where no symbol has a name.  A name then stands for the highest address that
goes by it.
-/

namespace Fnprint

open StableSort KeyMap

/-! ## The two symbol tables -/

/-- A symbol as a function: of the right type, and with a body. -/
def symFunc (strtab : ℕ → Option String) (source : FuncSource) (sym : Sym) : Option Func :=
  if sym.stType != sttFunc || sym.stValue == 0 || sym.stSize == 0 then none
  else
    some
      { name := ((strtab sym.stName).map clampName).filter fun s ↦ s != ""
        entry := sym.stValue
        size := sym.stSize
        source := source }

/-- The function symbols of `.symtab`, then those of `.dynsym`, up to the cap. -/
def tableFuncs (elf : Elf) (syms : List Sym) : List Func :=
  (syms.filterMap (symFunc elf.strtab .symtab) ++
    elf.dynsyms.filterMap (symFunc elf.dynstrtab .dynSym)).take maxFuncs

theorem discoverSym_eq (strtab : ℕ → Option String) (source : FuncSource) (out : List Func)
    (sym : Sym) : discoverSym strtab source (out.take maxFuncs) sym =
      (out ++ (symFunc strtab source sym).toList).take maxFuncs := by
  unfold discoverSym
  rw [List.length_take]
  by_cases hcap : maxFuncs ≤ out.length
  · rw [if_pos (by omega), List.take_append_of_le_length hcap]
  · have hlt : out.length < maxFuncs := Nat.lt_of_not_le hcap
    rw [if_neg (by omega), List.take_of_length_le hlt.le]
    unfold symFunc
    by_cases htype : (sym.stType != sttFunc) = true
    · rw [if_pos htype, htype, Bool.true_or, Bool.true_or, if_pos rfl, Option.toList_none,
        List.append_nil, List.take_of_length_le hlt.le]
    · rw [if_neg htype, Bool.not_eq_true] at *
      rw [htype, Bool.false_or]
      by_cases hbody : (sym.stValue == 0 || sym.stSize == 0) = true
      · rw [if_pos hbody, if_pos hbody, Option.toList_none, List.append_nil,
          List.take_of_length_le hlt.le]
      · rw [if_neg hbody, if_neg hbody, Option.toList_some, List.take_of_length_le]
        rw [List.length_append, List.length_singleton]
        exact hlt

theorem foldl_discoverSym (strtab : ℕ → Option String) (source : FuncSource) (syms : List Sym)
    (out : List Func) : syms.foldl (discoverSym strtab source) (out.take maxFuncs) =
      (out ++ syms.filterMap (symFunc strtab source)).take maxFuncs := by
  induction syms generalizing out with
  | nil => rw [List.filterMap_nil, List.append_nil, List.foldl_nil]
  | cons sym syms ih =>
      rw [List.foldl_cons, discoverSym_eq, ih, List.append_assoc]
      congr 2
      rw [List.filterMap_cons]
      cases symFunc strtab source sym <;> rfl

/-! ## The name of an address -/

/-- The first name that a table has for an address. -/
def nameOf (funcs : List Func) (x : UInt64) : Option String :=
  (funcs.filter fun f ↦ f.entry == x).findSome? Func.name

/-- The highest address that goes by a name. -/
def Resolves (funcs : List Func) (n : String) (x : UInt64) : Prop :=
  nameOf funcs x = some n ∧ ∀ y, x < y → nameOf funcs y ≠ some n

theorem nameOf_append_nameless {funcs fdes : List Func} (h : ∀ f ∈ fdes, f.name = none)
    (x : UInt64) : nameOf (funcs ++ fdes) x = nameOf funcs x := by
  have hnone : (fdes.filter fun f ↦ f.entry == x).findSome? Func.name = none :=
    List.findSome?_eq_none_iff.mpr fun f hf ↦ h f (List.mem_filter.mp hf).1
  rw [nameOf, List.filter_append, List.findSome?_append, hnone, Option.or_none, ← nameOf]

theorem exists_foldl_mergeFde (known : List UInt64) (plt : List (ℕ × ℕ)) {fdes : List Func}
    (h : ∀ f ∈ fdes, f.name = none) (out : List Func) :
    ∃ added, fdes.foldl (mergeFde known plt) out = out ++ added ∧ ∀ f ∈ added, f.name = none := by
  induction fdes generalizing out with
  | nil => exact ⟨[], (List.append_nil out).symm, by simp⟩
  | cons f fdes ih =>
      obtain ⟨hf, hrest⟩ := List.forall_mem_cons.mp h
      obtain ⟨added, heq, hadded⟩ := ih hrest (mergeFde known plt out f)
      rw [List.foldl_cons, heq]
      unfold mergeFde
      split
      · exact ⟨added, rfl, hadded⟩
      · split
        · exact ⟨added, rfl, hadded⟩
        · refine ⟨f :: added, by simp, fun g hg ↦ ?_⟩
          rcases List.mem_cons.mp hg with rfl | hg
          · exact hf
          · exact hadded g hg

/-- The unwind ranges have no names. -/
theorem nameOf_discover (p : Parsers) (elf : Elf) (raw : List UInt8) (x : UInt64) :
    nameOf (discover p elf raw) x = nameOf (tableFuncs elf elf.syms) x := by
  have htables : elf.dynsyms.foldl (discoverSym elf.dynstrtab .dynSym)
      (elf.syms.foldl (discoverSym elf.strtab .symtab) []) = tableFuncs elf elf.syms := by
    have hsyms := foldl_discoverSym elf.strtab .symtab elf.syms []
    rw [List.take_nil, List.nil_append] at hsyms
    rw [hsyms, foldl_discoverSym, tableFuncs]
  unfold discover
  dsimp only
  rw [htables]
  cases hfdes : ehFrameFuncs p elf raw with
  | none => rfl
  | some fdes =>
      obtain ⟨added, heq, hadded⟩ := exists_foldl_mergeFde
        ((tableFuncs elf elf.syms).map Func.entry) elf.pltRanges
        (name_eq_none_of_mem_ehFrameFuncs hfdes) (tableFuncs elf elf.syms)
      dsimp only
      rw [heq, nameOf_append_nameless hadded]

/-! ## What sorting and removing repeats keep -/

/-- At one address only having a name counts. -/
theorem funcCmp_of_entry_eq {f g : Func} (h : f.entry = g.entry) :
    funcCmp g f = compare f.name.isSome g.name.isSome := by
  have htie : byKey Func.entry compare g f = .eq := by
    rw [byKey, h]
    exact Std.ReflCmp.compare_self
  rw [funcCmp, compareLex, htie]
  rfl

/-- Among functions at one address the sort puts the first named one in front. -/
theorem name_head?_sortBy {funcs : List Func} {x : UInt64} (h : ∀ f ∈ funcs, f.entry = x) :
    (sortBy funcCmp funcs).head?.bind Func.name = funcs.findSome? Func.name := by
  cases hhead : (sortBy funcCmp funcs).head? with
  | none =>
      have hnil : funcs = [] := by
        have hsort := List.head?_eq_none_iff.mp hhead
        rw [← List.length_eq_zero_iff, ← length_sortBy funcCmp, hsort, List.length_nil]
      rw [hnil]
      rfl
  | some g =>
      obtain ⟨pre, suf, rfl, hpre, hsuf⟩ := (head?_sortBy_eq_some_iff funcCmp).mp hhead
      have hentry : ∀ f ∈ pre ++ g :: suf, f.entry = g.entry :=
        fun f hf ↦ (h f hf).trans (h g (by simp)).symm
      have hpre_name : ∀ f ∈ pre, f.name = none ∧ g.name.isSome = true := by
        intro f hf
        have hlt := hpre f hf
        rw [funcCmp_of_entry_eq (hentry f (by simp [hf]))] at hlt
        revert hlt
        cases hname : f.name <;> cases hg : g.name <;> simp
      have hsuf_name : g.name = none → ∀ f ∈ suf, f.name = none := by
        intro hg f hf
        have hle := hsuf f hf
        rw [funcCmp_of_entry_eq (hentry f (by simp [hf])), hg] at hle
        cases hname : f.name with
        | none => rfl
        | some n =>
            rw [hname, Option.isSome_some, Option.isSome_none] at hle
            exact absurd hle (by decide)
      rw [Option.bind_some, List.findSome?_append, List.findSome?_cons,
        List.findSome?_eq_none_iff.mpr fun f hf ↦ (hpre_name f hf).1, Option.none_or]
      cases hg : g.name with
      | some n => rfl
      | none => exact (List.findSome?_eq_none_iff.mpr (hsuf_name hg)).symm

/-- The name kept for an address is the first one of the list. -/
theorem name_find?_sortFuncs (funcs : List Func) (x : UInt64) :
    ((sortFuncs funcs).find? fun f ↦ f.entry == x).bind Func.name = nameOf funcs x := by
  rw [sortFuncs, find?_dedupBy, ← List.head?_filter, filter_sortBy,
    name_head?_sortBy fun f hf ↦ by simpa using (List.mem_filter.mp hf).2, nameOf]

theorem mem_sortFuncs_named_iff {funcs : List Func} {x : UInt64} {n : String} :
    (∃ f ∈ sortFuncs funcs, f.name = some n ∧ f.entry = x) ↔ nameOf funcs x = some n := by
  rw [← name_find?_sortFuncs, Option.bind_eq_some_iff]
  constructor
  · rintro ⟨f, hf, hname, rfl⟩
    cases hfind : (sortFuncs funcs).find? fun g ↦ g.entry == f.entry with
    | none => simpa using List.find?_eq_none.mp hfind f hf
    | some g =>
        have hentry : g.entry = f.entry := by simpa using List.find?_some hfind
        have hg := List.mem_of_find?_eq_some hfind
        have hkeys : ((sortFuncs funcs).map Func.entry).Nodup := by
          rw [List.Nodup, List.pairwise_map]
          exact (pairwise_sortFuncs funcs).imp UInt64.ne_of_lt
        rw [List.inj_on_of_nodup_map hkeys hg hf hentry]
        exact ⟨f, rfl, hname⟩
  · rintro ⟨f, hfind, hname⟩
    exact ⟨f, List.mem_of_find?_eq_some hfind, hname, by simpa using List.find?_some hfind⟩

/-- The map of the names of an image, read off the tables. -/
theorem lookup_localByName {funcs : List Func} {n : String} {x : UInt64} :
    (localByName (sortFuncs funcs)).lookup n = some x ↔ Resolves funcs n x := by
  have hmem : ∀ y, (n, y) ∈ (sortFuncs funcs).filterMap
      (fun f ↦ f.name.map fun m ↦ (m, f.entry)) ↔ nameOf funcs y = some n := by
    intro y
    rw [← mem_sortFuncs_named_iff, List.mem_filterMap]
    simp [Option.map_eq_some_iff, Prod.ext_iff]
  have hsorted : ((sortFuncs funcs).filterMap (fun f ↦ f.name.map fun m ↦ (m, f.entry))).Pairwise
      fun p q ↦ p.2 < q.2 := by
    rw [List.pairwise_filterMap]
    refine (pairwise_sortFuncs funcs).imp fun {f g} hlt p hp q hq ↦ ?_
    obtain ⟨m, -, rfl⟩ := Option.map_eq_some_iff.mp hp
    obtain ⟨m', -, rfl⟩ := Option.map_eq_some_iff.mp hq
    exact hlt
  rw [localByName, lookup_collect_eq_some_iff]
  constructor
  · rintro ⟨pre, suf, hsplit, hsuf⟩
    rw [hsplit] at hmem hsorted
    refine ⟨(hmem x).mp (by simp), fun y hxy hy ↦ ?_⟩
    obtain ⟨-, -, hpre⟩ := List.pairwise_append.mp hsorted
    rcases List.mem_append.mp ((hmem y).mpr hy) with hy | hy
    · exact UInt64.lt_asymm hxy (hpre _ hy (n, x) List.mem_cons_self)
    · rcases List.mem_cons.mp hy with hy | hy
      · exact UInt64.ne_of_lt hxy (congrArg Prod.snd hy).symm
      · exact hsuf _ hy rfl
  · rintro ⟨hx, hlast⟩
    obtain ⟨pre, suf, hsplit⟩ := List.append_of_mem ((hmem x).mpr hx)
    refine ⟨pre, suf, hsplit, fun q hq hqn ↦ ?_⟩
    rw [hsplit] at hmem hsorted
    have hlt := (List.pairwise_cons.mp (List.pairwise_append.mp hsorted).2.1).1 q hq
    refine hlast q.2 hlt ((hmem q.2).mp ?_)
    rw [← hqn]
    exact List.mem_append_right _ (List.mem_cons_of_mem _ hq)

/-- A name of a loaded file stands for the highest address that goes by it in
the symbol tables. -/
theorem lookup_localByName_load {p : Parsers} {bytes : List UInt8} {elf : Elf} {l : Loaded}
    (helf : p.elf bytes = some elf) (hl : load p bytes = .ok l) {n : String} {x : UInt64} :
    (localByName l.funcs).lookup n = some x ↔ Resolves (tableFuncs elf elf.syms) n x := by
  obtain ⟨elf', -, -, helf', -, -, -, hfuncs, -⟩ := load_ok hl
  obtain rfl : elf' = elf := Option.some.inj (helf'.symm.trans helf)
  rw [hfuncs, lookup_localByName]
  simp only [Resolves, nameOf_discover]

end Fnprint
