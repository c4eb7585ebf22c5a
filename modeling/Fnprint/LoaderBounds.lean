import Fnprint.Lib.Checked
import Fnprint.Layout
import Fnprint.Index

/-!
# What a crafted file can make the loader do

Every allocation is decided before anything is copied.  The first pass clamps
each file window and sums what the segments will hold; the second pass copies
the windows it was given, and no subtraction or slice in either can abort.
-/

namespace Fnprint

open StableSort Fallible KeyMap Checked

/-! ## The two passes -/

/-- Everything that is checked before a segment is copied. -/
def firstPass (p : Parsers) (bytes : List UInt8) : Except String (Elf × Arch × List Plan) :=
  match p.elf bytes with
  | none => .error "not a valid elf"
  | some elf => do
      let arch ← archOf elf.eMachine
      let plans ← plans bytes.length elf.programHeaders
      return (elf, arch, plans)

def secondPass (p : Parsers) (bytes : List UInt8) (first : Elf × Arch × List Plan) :
    Except String Loaded := do
  let (elf, arch, plans) := first
  let segments := sortBy (byKey Segment.vaddr compare) (plans.map (segmentOf bytes))
  checkOverlap segments
  return {
    image :=
      { segments := segments, entry := elf.eEntry, isPie := elf.eType == 3, arch := arch }
    funcs := sortFuncs (discover p elf bytes)
    imports := pltImports elf bytes arch }

theorem load_eq_passes (p : Parsers) (bytes : List UInt8) :
    load p bytes = firstPass p bytes >>= secondPass p bytes := by
  unfold load firstPass
  cases p.elf bytes with
  | none => rfl
  | some elf =>
      dsimp only
      cases archOf elf.eMachine with
      | error e => rfl
      | ok arch =>
          unfold loadSegments
          cases hplans : plans bytes.length elf.programHeaders with
          | error e => rfl
          | ok ps =>
              simp only [bind, Except.bind, pure, Except.pure, secondPass]
              cases checkOverlap (sortBy (byKey Segment.vaddr compare)
                (ps.map (segmentOf bytes))) <;> rfl

/-! ## Operations that could abort -/

/-- The length a plan allocates, by a subtraction that aborts below zero. -/
def Plan.checkedAllocLen (q : Plan) : Option ℕ :=
  (subSize q.stop q.start).map fun n ↦ max n q.memsz

/-- One copy, with the capacity and the slice the code computes. -/
def checkedSegmentOf (bytes : List UInt8) (q : Plan) : Option Segment := do
  let _ ← q.checkedAllocLen
  let data ← checkedRange bytes q.start q.stop
  return {
    vaddr := q.vaddr
    bytes := data ++ List.replicate (q.memsz - data.length) 0
    exec := q.exec
    write := q.write }

/-- A window that lies inside a file of some length. -/
def Plan.Clamped (len : ℕ) (q : Plan) : Prop := q.start ≤ q.stop ∧ q.stop ≤ len

theorem clamped_planOf (len : ℕ) (ph : ProgramHeader) : (planOf len ph).Clamped len := by
  refine ⟨?_, stop_planOf_le len ph⟩
  have hstart : min ph.pOffset.toNat len ≤ len := Nat.min_le_right _ _
  have hoffset := ph.pOffset.toNat_lt
  simp only [planOf, satAdd]
  omega

theorem Plan.Clamped.checkedAllocLen {len : ℕ} {q : Plan} (h : q.Clamped len) :
    q.checkedAllocLen = some q.allocLen := by
  unfold Plan.checkedAllocLen Plan.allocLen
  rw [subSize_of_le h.1]
  rfl

theorem Plan.Clamped.checkedSegmentOf {bytes : List UInt8} {q : Plan}
    (h : q.Clamped bytes.length) : checkedSegmentOf bytes q = some (segmentOf bytes q) := by
  unfold Fnprint.checkedSegmentOf
  rw [h.checkedAllocLen, checkedRange_of_le h.1 h.2]
  rfl

/-! ## The plans -/

/-- What the first pass promises the second. -/
structure BoundedPlans (len : ℕ) (ps : List Plan) : Prop where
  nonempty : 1 ≤ ps.length
  few : ps.length ≤ maxLoadSegs
  clamped : ∀ q ∈ ps, q.Clamped len
  total : (ps.map Plan.allocLen).sum ≤ maxTotalMem

/-- Midway, the running total is the exact sum of the plans so far: the
addition never saturates below the cap. -/
structure PlansSoFar (len : ℕ) (st : List Plan × ℕ) : Prop where
  few : st.1.length ≤ maxLoadSegs
  clamped : ∀ q ∈ st.1, q.Clamped len
  sum : st.2 = (st.1.map Plan.allocLen).sum
  total : st.2 ≤ maxTotalMem

theorem PlansSoFar.step {len : ℕ} {st st' : List Plan × ℕ} {ph : ProgramHeader}
    (h : PlansSoFar len st) (hstep : planStep len st ph = .ok st') : PlansSoFar len st' := by
  obtain ⟨ps, t⟩ := st
  obtain ⟨ps', t'⟩ := st'
  rcases planStep_ok hstep with ⟨-, rfl, rfl⟩ | ⟨-, rfl, rfl, -, -, htotal, hfew⟩
  · exact h
  · refine ⟨hfew, ?_, ?_, htotal⟩
    · intro q hq
      rcases List.mem_append.mp hq with hq | hq
      · exact h.clamped q hq
      · rw [List.mem_singleton.mp hq]
        exact clamped_planOf len ph
    · have hsum : t = (ps.map Plan.allocLen).sum := h.sum
      have hexact : satAdd t (extent len ph) = t + extent len ph := by
        unfold satAdd maxTotalMem at htotal
        unfold satAdd
        omega
      simp only [List.map_append, List.sum_append, List.map_singleton, List.sum_singleton]
      rw [hexact, hsum]
      rfl

theorem boundedPlans_of_plans {len : ℕ} {headers : List ProgramHeader} {ps : List Plan}
    (h : plans len headers = .ok ps) : BoundedPlans len ps := by
  obtain ⟨⟨ps', t'⟩, hfold, h⟩ := bind_eq_ok_iff.mp h
  have hinit : PlansSoFar len ([], 0) := ⟨Nat.zero_le _, by simp, rfl, Nat.zero_le _⟩
  have hend : PlansSoFar len (ps', t') :=
    foldlM_invariant (fun st ph st' hst hstep ↦ PlansSoFar.step hst hstep) hinit hfold
  dsimp only at h
  split at h
  · cases h
  · rename_i hne
    obtain rfl := Except.ok.inj h
    refine ⟨?_, hend.few, hend.clamped, ?_⟩
    · exact List.length_pos_iff.mpr fun hnil ↦ hne (by simp [hnil])
    · rw [← hend.sum]
      exact hend.total

/-! ## The copies -/

/-- A segment that holds the window of a plan and then zeros. -/
structure Copies (bytes : List UInt8) (q : Plan) (s : Segment) : Prop where
  place : s.vaddr = q.vaddr ∧ s.exec = q.exec ∧ s.write = q.write
  length : s.bytes.length = q.allocLen
  window : ∀ k < q.stop - q.start, s.bytes[k]? = bytes[q.start + k]?
  padding : ∀ k < q.allocLen, q.stop - q.start ≤ k → s.bytes[k]? = some 0

theorem copies_segmentOf {bytes : List UInt8} {q : Plan} (h : q.Clamped bytes.length) :
    Copies bytes q (segmentOf bytes q) := by
  obtain ⟨hstart, hstop⟩ := h
  have hlen : ((bytes.drop q.start).take (q.stop - q.start)).length = q.stop - q.start := by
    rw [List.length_take, List.length_drop]
    omega
  refine ⟨⟨rfl, rfl, rfl⟩, ?_, ?_, ?_⟩
  · unfold segmentOf Plan.allocLen
    simp only [List.length_append, hlen, List.length_replicate]
    omega
  · intro k hk
    unfold segmentOf
    rw [List.getElem?_append_left (by rw [hlen]; exact hk), List.getElem?_take_of_lt hk,
      List.getElem?_drop]
  · intro k hk hwindow
    unfold segmentOf
    rw [List.getElem?_append_right (by rw [hlen]; exact hwindow), hlen,
      List.getElem?_replicate, if_pos]
    unfold Plan.allocLen at hk
    omega

/-! ## Names -/

/-- The cut of a long name, stepped down from a byte offset to a boundary. -/
def clampEnd (s : String) : ℕ → ℕ
  | 0 => 0
  | n + 1 => if (String.Pos.Raw.mk (n + 1)).IsValid s then n + 1 else clampEnd s n

/-- The name kept of an original: its longest leading run of characters
within the cap. -/
structure CutName (original name : String) : Prop where
  short : name.utf8ByteSize ≤ maxName
  leads : name.toList <+: original.toList
  boundary : (String.Pos.Raw.mk name.utf8ByteSize).IsValid original
  longest : ∀ cs, cs <+: original.toList → (String.ofList cs).utf8ByteSize ≤ maxName →
    cs <+: name.toList

theorem utf8ByteSize_ofList_cons (c : Char) (cs : List Char) :
    (String.ofList (c :: cs)).utf8ByteSize = c.utf8Size + (String.ofList cs).utf8ByteSize := by
  rw [← List.singleton_append, String.ofList_append, String.utf8ByteSize_append,
    ← String.singleton_eq_ofList, String.utf8ByteSize_singleton]

theorem utf8ByteSize_takeBytes_le (budget : ℕ) (cs : List Char) :
    (String.ofList (takeBytes budget cs)).utf8ByteSize ≤ budget := by
  induction cs generalizing budget with
  | nil => simp [takeBytes]
  | cons c cs ih =>
      rw [takeBytes]
      split
      · rename_i hc
        have hrest := ih (budget - c.utf8Size)
        rw [utf8ByteSize_ofList_cons]
        omega
      · simp

theorem takeBytes_isPrefix (budget : ℕ) (cs : List Char) : takeBytes budget cs <+: cs := by
  induction cs generalizing budget with
  | nil => exact List.nil_prefix
  | cons c cs ih =>
      rw [takeBytes]
      split
      · exact (List.prefix_cons_inj c).mpr (ih _)
      · exact List.nil_prefix

/-- Whatever fits the budget is taken. -/
theorem isPrefix_takeBytes {budget : ℕ} {pre cs : List Char} (hpre : pre <+: cs)
    (hfit : (String.ofList pre).utf8ByteSize ≤ budget) : pre <+: takeBytes budget cs := by
  induction cs generalizing budget pre with
  | nil =>
      rw [List.prefix_nil.mp hpre]
      exact List.nil_prefix
  | cons c cs ih =>
      cases pre with
      | nil => exact List.nil_prefix
      | cons d pre =>
          obtain ⟨rfl, hrest⟩ := List.cons_prefix_cons.mp hpre
          rw [utf8ByteSize_ofList_cons] at hfit
          rw [takeBytes, if_pos (by omega)]
          exact (List.prefix_cons_inj d).mpr (ih hrest (by omega))

theorem isValid_iff_exists_prefix {s : String} {n : ℕ} :
    (String.Pos.Raw.mk n).IsValid s ↔
      ∃ cs, cs <+: s.toList ∧ (String.ofList cs).utf8ByteSize = n := by
  rw [← String.ofList_toList (s := s), String.Pos.Raw.isValid_ofList]
  constructor
  · rintro ⟨i, hi⟩
    rw [String.toList_ofList]
    exact ⟨s.toList.take i, List.take_prefix _ _, hi.symm⟩
  · rintro ⟨cs, hcs, rfl⟩
    rw [String.toList_ofList] at hcs
    refine ⟨cs.length, ?_⟩
    rw [← List.prefix_iff_eq_take.mp hcs]

theorem utf8ByteSize_mono {cs ds : List Char} (h : cs <+: ds) :
    (String.ofList cs).utf8ByteSize ≤ (String.ofList ds).utf8ByteSize := by
  obtain ⟨rest, rfl⟩ := h
  rw [String.ofList_append, String.utf8ByteSize_append]
  exact Nat.le_add_right _ _

theorem cutName_clampName (s : String) : CutName s (clampName s) := by
  unfold clampName
  split
  · rename_i hshort
    refine ⟨hshort, List.prefix_rfl, ?_, fun cs hcs _ ↦ hcs⟩
    exact isValid_iff_exists_prefix.mpr ⟨s.toList, List.prefix_rfl, by rw [String.ofList_toList]⟩
  · refine ⟨utf8ByteSize_takeBytes_le _ _, ?_, ?_, fun cs hcs hfit ↦ ?_⟩
    · rw [String.toList_ofList]
      exact takeBytes_isPrefix _ _
    · exact isValid_iff_exists_prefix.mpr ⟨_, takeBytes_isPrefix maxName s.toList, rfl⟩
    · rw [String.toList_ofList]
      exact isPrefix_takeBytes hcs hfit

/-- The loop stops at the last boundary it passes. -/
theorem clampEnd_eq {s : String} {n k : ℕ} (hk : k ≤ n) (hvalid : (String.Pos.Raw.mk k).IsValid s)
    (hlast : ∀ j ≤ n, (String.Pos.Raw.mk j).IsValid s → j ≤ k) : clampEnd s n = k := by
  induction n with
  | zero => exact (Nat.le_zero.mp hk).symm
  | succ n ih =>
      rw [clampEnd]
      split
      · rename_i hn
        exact Nat.le_antisymm (hlast _ le_rfl hn) hk
      · rename_i hn
        have hne : k ≠ n + 1 := by
          rintro rfl
          exact hn hvalid
        exact ih (by omega) fun j hj ↦ hlast j (by omega)

/-- The kept characters are the bytes before the cut the loop finds. -/
theorem utf8ByteSize_clampName (s : String) :
    (clampName s).utf8ByteSize = clampEnd s maxName := by
  have hcut := cutName_clampName s
  refine (clampEnd_eq hcut.short hcut.boundary fun j hj hvalid ↦ ?_).symm
  obtain ⟨cs, hcs, rfl⟩ := isValid_iff_exists_prefix.mp hvalid
  have hmono := utf8ByteSize_mono (hcut.longest cs hcs hj)
  rwa [String.ofList_toList] at hmono

/-! ## Names of functions -/

/-- A name some symbol table gives an address. -/
def Elf.SymbolName (elf : Elf) (entry : UInt64) (original : String) : Prop :=
  ∃ sym : Sym, sym.stValue = entry ∧
    (sym ∈ elf.syms ∧ elf.strtab sym.stName = some original ∨
      sym ∈ elf.dynsyms ∧ elf.dynstrtab sym.stName = some original)

/-- Every name in a list of functions is cut from one of a symbol there. -/
def Elf.CutFuncs (elf : Elf) (funcs : List Func) : Prop :=
  ∀ f ∈ funcs, ∀ name ∈ f.name, ∃ original, elf.SymbolName f.entry original ∧
    CutName original name

theorem Elf.CutFuncs.append_singleton {elf : Elf} {out : List Func} {f : Func}
    (h : elf.CutFuncs out) (hf : elf.CutFuncs [f]) : elf.CutFuncs (out ++ [f]) := by
  intro g hg
  rcases List.mem_append.mp hg with hg | hg
  · exact h g hg
  · exact hf g hg

theorem Elf.CutFuncs.discoverSym {elf : Elf} {strtab : ℕ → Option String} {source : FuncSource}
    {sym : Sym} {out : List Func} (h : elf.CutFuncs out)
    (hsym : ∀ original, strtab sym.stName = some original →
      elf.SymbolName sym.stValue original) :
    elf.CutFuncs (discoverSym strtab source out sym) := by
  unfold Fnprint.discoverSym
  split
  · exact h
  · split
    · exact h
    · split
      · exact h
      · refine h.append_singleton fun f hf name hname ↦ ?_
        obtain rfl := List.mem_singleton.mp hf
        obtain ⟨hmap, -⟩ := Option.filter_eq_some_iff.mp hname
        obtain ⟨original, horiginal, rfl⟩ := Option.map_eq_some_iff.mp hmap
        exact ⟨original, hsym original horiginal, cutName_clampName original⟩

theorem Elf.CutFuncs.foldl_discoverSym {elf : Elf} {strtab : ℕ → Option String}
    {source : FuncSource} {syms : List Sym} {out : List Func} (h : elf.CutFuncs out)
    (hsyms : ∀ sym ∈ syms, ∀ original, strtab sym.stName = some original →
      elf.SymbolName sym.stValue original) :
    elf.CutFuncs (syms.foldl (Fnprint.discoverSym strtab source) out) := by
  induction syms generalizing out with
  | nil => exact h
  | cons sym syms ih =>
      obtain ⟨hsym, hrest⟩ := List.forall_mem_cons.mp hsyms
      exact ih (h.discoverSym hsym) hrest

theorem name_eq_none_of_mem_fde {e : EhEntry} {out : List Func} (hout : ∀ f ∈ out, f.name = none) :
    ∀ f ∈ (match e with
      | .fde (some (entry, size)) =>
          if size > 0 then out ++ [Func.mk none entry size .ehFrame] else out
      | _ => out : List Func), f.name = none := by
  intro f hf
  split at hf
  · split at hf
    · rcases List.mem_append.mp hf with hf | hf
      · exact hout f hf
      · rw [List.mem_singleton.mp hf]
    · exact hout f hf
  · exact hout f hf

theorem name_eq_none_of_mem_collectFdes {entries : List EhEntry} {out : List Func}
    (hout : ∀ f ∈ out, f.name = none) : ∀ f ∈ collectFdes entries out, f.name = none := by
  fun_induction collectFdes entries out with
  | case1 out => exact hout
  | case2 e entries out out' hcap => exact name_eq_none_of_mem_fde hout
  | case3 e entries out out' hcap ih => exact ih (name_eq_none_of_mem_fde hout)

theorem name_eq_none_of_mem_ehFrameFuncs {p : Parsers} {elf : Elf} {raw : List UInt8}
    {fdes : List Func} (h : ehFrameFuncs p elf raw = some fdes) : ∀ f ∈ fdes, f.name = none := by
  unfold ehFrameFuncs at h
  obtain ⟨sh, -, h⟩ := Option.bind_eq_some_iff.mp h
  obtain ⟨data, -, h⟩ := Option.bind_eq_some_iff.mp h
  dsimp only at h
  split at h
  · cases h
  · rw [← Option.some.inj h]
    exact name_eq_none_of_mem_collectFdes (by simp)

theorem Elf.CutFuncs.foldl_mergeFde {elf : Elf} {known : List UInt64} {plt : List (ℕ × ℕ)}
    {fdes out : List Func} (h : elf.CutFuncs out) (hfdes : ∀ f ∈ fdes, f.name = none) :
    elf.CutFuncs (fdes.foldl (mergeFde known plt) out) := by
  induction fdes generalizing out with
  | nil => exact h
  | cons f fdes ih =>
      obtain ⟨hf, hrest⟩ := List.forall_mem_cons.mp hfdes
      refine ih ?_ hrest
      unfold mergeFde
      split
      · exact h
      · split
        · exact h
        · refine h.append_singleton fun g hg name hname ↦ ?_
          rw [List.mem_singleton.mp hg, hf] at hname
          cases hname

theorem cutFuncs_discover (p : Parsers) (elf : Elf) (raw : List UInt8) :
    elf.CutFuncs (discover p elf raw) := by
  have hsyms : elf.CutFuncs (elf.syms.foldl (discoverSym elf.strtab .symtab) []) :=
    Elf.CutFuncs.foldl_discoverSym (by intro f hf; cases hf)
      fun sym hsym original h ↦ ⟨sym, rfl, Or.inl ⟨hsym, h⟩⟩
  have hdyn : elf.CutFuncs (elf.dynsyms.foldl (discoverSym elf.dynstrtab .dynSym)
      (elf.syms.foldl (discoverSym elf.strtab .symtab) [])) :=
    hsyms.foldl_discoverSym fun sym hsym original h ↦ ⟨sym, rfl, Or.inr ⟨hsym, h⟩⟩
  unfold discover
  dsimp only
  split
  · rename_i fdes hfdes
    exact hdyn.foldl_mergeFde (name_eq_none_of_mem_ehFrameFuncs hfdes)
  · exact hdyn

theorem mem_of_mem_sortFuncs {funcs : List Func} {f : Func} (h : f ∈ sortFuncs funcs) :
    f ∈ funcs :=
  (mem_sortBy funcCmp).mp ((dedupBy_sublist Func.entry (sortBy funcCmp funcs)).subset h)

/-! ## Names of imports -/

/-- A name cut from that of a dynamic symbol. -/
def Elf.CutImport (elf : Elf) (name : String) : Prop :=
  ∃ sym ∈ elf.dynsyms, ∃ original, elf.dynstrtab sym.stName = some original ∧
    CutName original name

def Elf.CutImports (elf : Elf) (m : Map UInt64 String) : Prop :=
  ∀ slot name, m.lookup slot = some name → elf.CutImport name

theorem Elf.CutImports.insert {elf : Elf} {m : Map UInt64 String} {slot : UInt64} {name : String}
    (h : elf.CutImports m) (hname : elf.CutImport name) :
    elf.CutImports (m.insert slot name) := by
  intro k v hk
  rcases lookup_insert_eq_some_iff.mp hk with ⟨-, rfl⟩ | ⟨-, hk⟩
  · exact hname
  · exact h k v hk

theorem Elf.CutImports.relocImport {elf : Elf} {m : Map UInt64 String} (h : elf.CutImports m)
    (r : Reloc) : elf.CutImports (relocImport elf m r) := by
  unfold Fnprint.relocImport
  split
  · exact h
  · split
    · rename_i name hname
      obtain ⟨sym, hsym, hname⟩ := Option.bind_eq_some_iff.mp hname
      split
      · exact h
      · exact h.insert ⟨sym, List.mem_of_getElem? hsym, name, hname, cutName_clampName name⟩
    · exact h

theorem Elf.CutImports.foldl_relocImport {elf : Elf} {m : Map UInt64 String}
    (h : elf.CutImports m) (relocs : List Reloc) :
    elf.CutImports (relocs.foldl (Fnprint.relocImport elf) m) := by
  induction relocs generalizing m with
  | nil => exact h
  | cons r relocs ih => exact ih (h.relocImport r)

/-- A stub is named by the slot it goes through. -/
theorem cutImport_stubImports {elf : Elf} {m : Map UInt64 String} (h : elf.CutImports m)
    {arch : Arch} {addr : UInt64} {data : List UInt8} {stubs : List (UInt64 × String)}
    (hstubs : ∀ s ∈ stubs, elf.CutImport s.2) :
    ∀ s ∈ stubImports arch m addr data stubs, elf.CutImport s.2 := by
  unfold stubImports
  induction List.range (data.length / 16) generalizing stubs with
  | nil => exact hstubs
  | cons k ks ih =>
      refine ih ?_
      dsimp only
      split
      · exact hstubs
      · split
        · rename_i name hname
          obtain ⟨slot, -, hslot⟩ := Option.bind_eq_some_iff.mp hname
          intro s hs
          rcases List.mem_append.mp hs with hs | hs
          · exact hstubs s hs
          · rw [List.mem_singleton.mp hs]
            exact h slot name hslot
        · exact hstubs

theorem Elf.CutImports.foldl_insert {elf : Elf} {m : Map UInt64 String} (h : elf.CutImports m)
    {stubs : List (UInt64 × String)} (hstubs : ∀ s ∈ stubs, elf.CutImport s.2) :
    elf.CutImports (stubs.foldl (fun m s ↦ m.insert s.1 s.2) m) := by
  induction stubs generalizing m with
  | nil => exact h
  | cons s stubs ih =>
      obtain ⟨hs, hrest⟩ := List.forall_mem_cons.mp hstubs
      exact ih (h.insert hs) hrest

theorem cutImports_pltImports (elf : Elf) (raw : List UInt8) (arch : Arch) :
    elf.CutImports (pltImports elf raw arch) := by
  have hempty : elf.CutImports ∅ := fun slot name h ↦ by
    rw [AList.lookup_empty] at h
    cases h
  unfold pltImports
  set out := (elf.pltrelocs ++ elf.dynrelas ++ elf.dynrels).foldl (relocImport elf) ∅
  have hout : elf.CutImports out := hempty.foldl_relocImport _
  dsimp only
  split
  · exact hout
  · refine hout.foldl_insert ?_
    have hstubs : ∀ s ∈ ([] : List (UInt64 × String)), elf.CutImport s.2 := by simp
    revert hstubs
    generalize ([] : List (UInt64 × String)) = stubs
    intro hstubs
    induction elf.sectionHeaders generalizing stubs with
    | nil => exact hstubs
    | cons sh headers ih =>
        refine ih _ ?_
        dsimp only
        split
        · split
          · exact cutImport_stubImports hout hstubs
          · exact hstubs
        · exact hstubs

/-! ## Bounded loading -/

/-- What an accepted file is loaded as, from its plans. -/
structure LoadedWithin (elf : Elf) (bytes : List UInt8) (ps : List Plan) (l : Loaded) :
    Prop where
  segments : ∃ copies, List.Forall₂ (Copies bytes) ps copies ∧ l.image.segments.Perm copies
  entries : l.funcs.Pairwise fun f g ↦ f.entry < g.entry
  names : elf.CutFuncs l.funcs
  imports : elf.CutImports l.imports

theorem loadedWithin_of_secondPass {p : Parsers} {bytes : List UInt8} {elf : Elf} {arch : Arch}
    {ps : List Plan} (hps : BoundedPlans bytes.length ps) {l : Loaded}
    (h : secondPass p bytes (elf, arch, ps) = .ok l) : LoadedWithin elf bytes ps l := by
  obtain ⟨u, -, h⟩ := bind_eq_ok_iff.mp h
  obtain rfl := Except.ok.inj h
  refine ⟨⟨ps.map (segmentOf bytes), ?_, perm_sortBy _ _⟩, pairwise_sortFuncs _, ?_,
    cutImports_pltImports elf bytes arch⟩
  · refine List.forall₂_map_right_iff.mpr (List.forall₂_same.mpr fun q hq ↦ ?_)
    exact copies_segmentOf (hps.clamped q hq)
  · intro f hf
    exact cutFuncs_discover p elf bytes f (mem_of_mem_sortFuncs hf)

theorem boundedPlans_of_firstPass {p : Parsers} {bytes : List UInt8} {elf : Elf} {arch : Arch}
    {ps : List Plan} (h : firstPass p bytes = .ok (elf, arch, ps)) :
    BoundedPlans bytes.length ps := by
  unfold firstPass at h
  split at h
  · cases h
  · obtain ⟨a, -, h⟩ := bind_eq_ok_iff.mp h
    obtain ⟨qs, hqs, h⟩ := bind_eq_ok_iff.mp h
    obtain ⟨rfl, rfl, rfl⟩ : _ = elf ∧ a = arch ∧ qs = ps := by
      simpa using pure_eq_ok_iff.mp h
    exact boundedPlans_of_plans hqs

/-- For every file and whatever headers it is parsed to, nothing is copied
unless the plans are bounded, and then neither pass aborts and each segment is
the window of its plan. -/
theorem load_bounded (p : Parsers) (bytes : List UInt8) :
    load p bytes = firstPass p bytes >>= secondPass p bytes ∧
    (∀ ph, (planOf bytes.length ph).checkedAllocLen = some (planOf bytes.length ph).allocLen) ∧
    ((∃ e, firstPass p bytes = .error e ∧ load p bytes = .error e) ∨
      ∃ elf arch ps, firstPass p bytes = .ok (elf, arch, ps) ∧
        BoundedPlans bytes.length ps ∧
        ps.mapM (checkedSegmentOf bytes) = some (ps.map (segmentOf bytes)) ∧
        ((∃ e, load p bytes = .error e) ∨
          ∃ l, load p bytes = .ok l ∧ LoadedWithin elf bytes ps l)) := by
  have hload := load_eq_passes p bytes
  refine ⟨hload, fun ph ↦ (clamped_planOf _ ph).checkedAllocLen, ?_⟩
  cases hfirst : firstPass p bytes with
  | error e =>
      rw [hfirst] at hload
      exact Or.inl ⟨e, rfl, hload⟩
  | ok first =>
      obtain ⟨elf, arch, ps⟩ := first
      have hps := boundedPlans_of_firstPass hfirst
      rw [hfirst] at hload
      refine Or.inr ⟨elf, arch, ps, rfl, hps, mapM_eq_some_map fun q hq ↦
        (hps.clamped q hq).checkedSegmentOf, ?_⟩
      cases hl : load p bytes with
      | error e => exact Or.inl ⟨e, rfl⟩
      | ok l =>
          rw [hl] at hload
          exact Or.inr ⟨l, rfl, loadedWithin_of_secondPass hps hload.symm⟩

end Fnprint
