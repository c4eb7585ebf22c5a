import Fnprint.SymbolNames

/-!
# A binary and its stripped twin

Stripping removes the symbol table and keeps the segments, the dynamic symbols,
the relocations and the unwind info.  The prints do not see the difference.
The call edges do where an import name is resolved in the image: which address
it stands for is read off both tables in the one file and off the dynamic
symbols alone in the other.
-/

namespace Fnprint

open StableSort KeyMap

/-- Two files that agree on everything the loader reads, except that the second
has no symbol table. -/
structure StripTwin (p : Parsers) (bytes bytes' : List UInt8) (elf elf' : Elf) : Prop where
  parsed : p.elf bytes = some elf
  parsed' : p.elf bytes' = some elf'
  machine : elf'.eMachine = elf.eMachine
  type : elf'.eType = elf.eType
  entry : elf'.eEntry = elf.eEntry
  segments : loadSegments bytes' elf'.programHeaders = loadSegments bytes elf.programHeaders
  sections : elf'.pltRanges = elf.pltRanges
  dynsyms : elf'.dynsyms = elf.dynsyms
  dynstrtab : elf'.dynstrtab = elf.dynstrtab
  relocations : ∀ arch, pltImports elf' bytes' arch = pltImports elf bytes arch
  unwind : ehFrameFuncs p elf' bytes' = ehFrameFuncs p elf bytes
  stripped : elf'.syms = []

theorem StripTwin.image_eq {p : Parsers} {bytes bytes' : List UInt8} {elf elf' : Elf}
    (twin : StripTwin p bytes bytes' elf elf') {l l' : Loaded} (hl : load p bytes = .ok l)
    (hl' : load p bytes' = .ok l') : l'.image = l.image ∧ l'.imports = l.imports := by
  obtain ⟨elf₁, arch, segments, h₁, harch, hseg, himage, -, himports⟩ := load_ok hl
  obtain ⟨elf₂, arch', segments', h₂, harch', hseg', himage', -, himports'⟩ := load_ok hl'
  obtain rfl : elf₁ = elf := Option.some.inj (h₁.symm.trans twin.parsed)
  obtain rfl : elf₂ = elf' := Option.some.inj (h₂.symm.trans twin.parsed')
  rw [twin.machine, harch] at harch'
  rw [twin.segments, hseg] at hseg'
  obtain rfl := Except.ok.inj harch'
  obtain rfl := Except.ok.inj hseg'
  exact ⟨by rw [himage', himage, twin.entry, twin.type], by
    rw [himports', himports, twin.relocations]⟩

/-! ## Prints and edges over two function lists -/

/-- The prints and the callees of the functions found in both loads agree. -/
def StripInvariant (e : Emulator) (l l' : Loaded) : Prop :=
  ∀ f ∈ l.funcs, ∀ f' ∈ l'.funcs, f'.entry = f.entry → f'.size = f.size →
    ∀ g g', indexFunc e l f = some g → indexFunc e l' f' = some g' →
      g'.fp = g.fp ∧ g'.callees = g.callees

/-- A function calls an import name that stands for `x` in some symbols. -/
def CallsLocal (e : Emulator) (l : Loaded) (syms : List Func) (f : Func) (x : UInt64) : Prop :=
  ∃ n ∈ importNames e l f, Resolves syms n x

/-- What one table resolves, other than the function itself, is a direct callee
or is resolved by the other table too. -/
def EdgesBacked (e : Emulator) (l : Loaded) (syms syms' : List Func) (f : Func) : Prop :=
  ∀ x, x ≠ f.entry → CallsLocal e l syms f x →
    x ∈ directCallees e l f ∨ CallsLocal e l syms' f x

/-- A function with code that both loads find, with the same entry and size. -/
structure FoundInBoth (l l' : Loaded) (f : Func) : Prop where
  mem : f ∈ l.funcs
  mem' : ∃ f' ∈ l'.funcs, f'.entry = f.entry ∧ f'.size = f.size
  size_pos : 0 < f.size
  code : (l.image.codeAt f.entry 1).isSome

/-- Every edge recovered by name is backed on the other side. -/
def EdgesKept (e : Emulator) (elf : Elf) (l l' : Loaded) : Prop :=
  ∀ f, FoundInBoth l l' f →
    EdgesBacked e l (tableFuncs elf elf.syms) (tableFuncs elf []) f ∧
      EdgesBacked e l (tableFuncs elf []) (tableFuncs elf elf.syms) f

/-- The emulator takes the import names it reports from a set of names. -/
def ReportsFrom (names : Set String) (e : Emulator) (l : Loaded) : Prop :=
  ∀ f, ∀ n ∈ importNames e l f, n ∈ names

/-- Every name of a set stands for the same address with and without `.symtab`,
unless the address is the function's own. -/
def NamesKept (names : Set String) (elf : Elf) (l l' : Loaded) : Prop :=
  ∀ f, FoundInBoth l l' f → ∀ n ∈ names, ∀ x, x ≠ f.entry →
    (Resolves (tableFuncs elf elf.syms) n x ↔ Resolves (tableFuncs elf []) n x)

theorem mem_calleesOf {locals : Map String UInt64} {entry x : UInt64} {direct : List UInt64}
    {names : List String} :
    x ∈ calleesOf locals entry direct names ↔
      x ≠ entry ∧ (x ∈ direct ∨ ∃ n ∈ names, locals.lookup n = some x) := by
  simp only [calleesOf, mem_sortDedup, List.mem_filter, List.mem_append, List.mem_filterMap,
    bne_iff_ne]
  exact and_comm

theorem calleesOf_eq_iff (e : Emulator) (l : Loaded) {locals locals' : Map String UInt64}
    {syms syms' : List Func} (hlocals : ∀ n x, locals.lookup n = some x ↔ Resolves syms n x)
    (hlocals' : ∀ n x, locals'.lookup n = some x ↔ Resolves syms' n x) (f : Func) :
    calleesOf locals' f.entry (directCallees e l f) (importNames e l f) =
        calleesOf locals f.entry (directCallees e l f) (importNames e l f) ↔
      EdgesBacked e l syms syms' f ∧ EdgesBacked e l syms' syms f := by
  have hcalls : ∀ x, CallsLocal e l syms f x ↔
      ∃ n ∈ importNames e l f, locals.lookup n = some x :=
    fun x ↦ exists_congr fun n ↦ and_congr_right fun _ ↦ (hlocals n x).symm
  have hcalls' : ∀ x, CallsLocal e l syms' f x ↔
      ∃ n ∈ importNames e l f, locals'.lookup n = some x :=
    fun x ↦ exists_congr fun n ↦ and_congr_right fun _ ↦ (hlocals' n x).symm
  constructor
  · intro heq
    have hmem : ∀ x, x ≠ f.entry →
        ((x ∈ directCallees e l f ∨ CallsLocal e l syms' f x) ↔
          (x ∈ directCallees e l f ∨ CallsLocal e l syms f x)) := by
      intro x hx
      have hiff := congrArg (x ∈ ·) heq
      simp only [mem_calleesOf, ne_eq, hx, not_false_eq_true, true_and, eq_iff_iff] at hiff
      rw [hcalls, hcalls']
      exact hiff
    exact ⟨fun x hx h ↦ (hmem x hx).mpr (Or.inr h), fun x hx h ↦ (hmem x hx).mp (Or.inr h)⟩
  · rintro ⟨hback, hback'⟩
    apply eq_of_mem_iff compare (pairwise_sortDedup compare _) (pairwise_sortDedup compare _)
    intro x
    rw [← calleesOf, ← calleesOf, mem_calleesOf, mem_calleesOf, ← hcalls, ← hcalls']
    refine and_congr_right fun hx ↦ ⟨?_, ?_⟩
    · rintro (h | h)
      · exact Or.inl h
      · exact hback' x hx h
    · rintro (h | h)
      · exact Or.inl h
      · exact hback x hx h

/-- Over one image and import map, a function's print and direct calls are fixed
by its body. -/
theorem indexFunc_eq_some_iff {e : Emulator} {l : Loaded} {f : Func} {g : IndexedFunc} :
    indexFunc e l f = some g ↔ (0 < f.size ∧ (l.image.codeAt f.entry 1).isSome) ∧
      g = { name := f.name, entry := f.entry, source := f.source,
            fp := Fingerprint.fromTraces (tracesOf e l f),
            coverage := ((tracesOf e l f).map EffectTrace.coverage).foldl maxNum32 0.0,
            callees := calleesOf (localByName l.funcs) f.entry (directCallees e l f)
              (importNames e l f) } := by
  unfold indexFunc
  split
  · rename_i h
    simp [h, eq_comm]
  · rename_i h
    simp [h]

section Twins

variable {p : Parsers} {e : Emulator} {bytes bytes' : List UInt8} {elf elf' : Elf} {l l' : Loaded}

/-- Without `.symtab` only the dynamic symbols have names. -/
theorem StripTwin.tableFuncs_eq (twin : StripTwin p bytes bytes' elf elf') :
    tableFuncs elf' elf'.syms = tableFuncs elf [] := by
  rw [tableFuncs, tableFuncs, twin.stripped, twin.dynsyms, twin.dynstrtab]
  rfl

theorem stripInvariant_iff_edgesKept (twin : StripTwin p bytes bytes' elf elf')
    (hl : load p bytes = .ok l) (hl' : load p bytes' = .ok l') :
    StripInvariant e l l' ↔ EdgesKept e elf l l' := by
  obtain ⟨himage, himports⟩ := twin.image_eq hl hl'
  have hbody : ∀ f f' : Func, f'.entry = f.entry → f'.size = f.size →
      tracesOf e l' f' = tracesOf e l f ∧ directCallees e l' f' = directCallees e l f ∧
        importNames e l' f' = importNames e l f := by
    intro f f' hentry hsize
    have htraces : tracesOf e l' f' = tracesOf e l f := by
      rw [tracesOf, himage, himports, hentry, hsize, ← tracesOf]
    refine ⟨htraces, ?_, ?_⟩
    · rw [directCallees, htraces, himage, himports, hentry, hsize, ← directCallees]
    · rw [importNames, htraces, himage, himports, hentry, hsize, ← importNames]
  have hlocals : ∀ n x, (localByName l.funcs).lookup n = some x ↔
      Resolves (tableFuncs elf elf.syms) n x :=
    fun _ _ ↦ lookup_localByName_load twin.parsed hl
  have hlocals' : ∀ n x, (localByName l'.funcs).lookup n = some x ↔
      Resolves (tableFuncs elf []) n x := by
    intro n x
    rw [lookup_localByName_load twin.parsed' hl', twin.tableFuncs_eq]
  constructor
  · rintro h f ⟨hf, ⟨f', hf', hentry, hsize⟩, hpos, hcode⟩
    obtain ⟨htraces, hdirect, hnames⟩ := hbody f f' hentry hsize
    have hg := (@indexFunc_eq_some_iff e l f _).mpr ⟨⟨hpos, hcode⟩, rfl⟩
    have hg' := (@indexFunc_eq_some_iff e l' f' _).mpr
      ⟨⟨by rwa [hsize], by rwa [himage, hentry]⟩, rfl⟩
    have hcallees := (h f hf f' hf' hentry hsize _ _ hg hg').2
    dsimp only at hcallees
    rw [hdirect, hnames, hentry] at hcallees
    exact (calleesOf_eq_iff e l hlocals hlocals' f).mp hcallees
  · intro h f hf f' hf' hentry hsize g g' hg hg'
    obtain ⟨htraces, hdirect, hnames⟩ := hbody f f' hentry hsize
    obtain ⟨⟨hpos, hcode⟩, rfl⟩ := indexFunc_eq_some_iff.mp hg
    obtain ⟨-, rfl⟩ := indexFunc_eq_some_iff.mp hg'
    have hcallees := (calleesOf_eq_iff e l hlocals hlocals' f).mpr
      (h f ⟨hf, ⟨f', hf', hentry, hsize⟩, hpos, hcode⟩)
    refine ⟨by rw [htraces], ?_⟩
    rw [hdirect, hnames, hentry]
    exact hcallees

/-- An emulator that reports one import name of every function and runs none. -/
def reportName (n : String) : Emulator :=
  { runExplore := fun _ _ _ _ _ ↦ [], staticCalls := fun _ _ _ _ ↦ ([], [n]) }

@[simp] theorem importNames_reportName (n : String) (l : Loaded) (f : Func) :
    importNames (reportName n) l f = [n] := rfl

@[simp] theorem directCallees_reportName (n : String) (l : Loaded) (f : Func) :
    directCallees (reportName n) l f = [] := rfl

/-- Every emulator keeps its edges exactly when every name keeps its address. -/
theorem edgesKept_iff_namesKept (names : Set String) (elf : Elf) (l l' : Loaded) :
    (∀ e, ReportsFrom names e l → EdgesKept e elf l l') ↔ NamesKept names elf l l' := by
  constructor
  · intro h f hf n hn x hx
    have hreports : ReportsFrom names (reportName n) l := by
      intro g m hm
      rw [importNames_reportName, List.mem_singleton] at hm
      rwa [hm]
    obtain ⟨hback, hback'⟩ := h (reportName n) hreports f hf
    have hcalls : ∀ syms, CallsLocal (reportName n) l syms f x ↔ Resolves syms n x := by
      intro syms
      simp [CallsLocal]
    constructor
    · intro hfull
      have hdyn := hback x hx ((hcalls _).mpr hfull)
      rw [directCallees_reportName, hcalls] at hdyn
      exact hdyn.resolve_left List.not_mem_nil
    · intro hdyn
      have hfull := hback' x hx ((hcalls _).mpr hdyn)
      rw [directCallees_reportName, hcalls] at hfull
      exact hfull.resolve_left List.not_mem_nil
  · intro h e hreports f hf
    constructor
    · rintro x hx ⟨n, hn, hfull⟩
      exact Or.inr ⟨n, hn, (h f hf n (hreports f n hn) x hx).mp hfull⟩
    · rintro x hx ⟨n, hn, hdyn⟩
      exact Or.inr ⟨n, hn, (h f hf n (hreports f n hn) x hx).mpr hdyn⟩

/-- A binary and its stripped twin agree on prints and edges under one emulator
exactly when every edge recovered by name is backed in the other table, and
under every emulator that reports names of some set exactly when these names
stand for the same addresses with and without `.symtab`. -/
theorem strip_invariant_iff (twin : StripTwin p bytes bytes' elf elf')
    (hl : load p bytes = .ok l) (hl' : load p bytes' = .ok l') :
    (∀ e, StripInvariant e l l' ↔ EdgesKept e elf l l') ∧
      ∀ names : Set String, (∀ e, ReportsFrom names e l → StripInvariant e l l') ↔
        NamesKept names elf l l' := by
  refine ⟨fun e ↦ stripInvariant_iff_edgesKept twin hl hl', fun names ↦ ?_⟩
  rw [← edgesKept_iff_namesKept]
  exact forall_congr' fun e ↦ imp_congr_right fun _ ↦ stripInvariant_iff_edgesKept twin hl hl'

end Twins

/-! ## An exported alias -/

/-- A little-endian field of `n` bytes. -/
def field (n v : ℕ) : List UInt8 := (List.range n).map fun i ↦ UInt8.ofNat (v / 256 ^ i)

/-- The bytes of a string table. -/
def strings (names : List String) : List UInt8 :=
  0 :: names.flatMap fun s ↦ s.toList.map (fun c ↦ UInt8.ofNat c.toNat) ++ [0]

/-- The name at an offset of a string table. -/
def nameAt (table : List UInt8) (k : ℕ) : Option String :=
  if k < table.length then
    some (String.ofList (((table.drop k).takeWhile (· != 0)).map fun b ↦ Char.ofNat b.toNat))
  else none

def symBytes (name info section' value size : ℕ) : List UInt8 :=
  field 4 name ++ field 1 info ++ field 1 0 ++ field 2 section' ++ field 8 value ++ field 8 size

def programBytes (type flags off size align : ℕ) : List UInt8 :=
  field 4 type ++ field 4 flags ++ field 8 off ++ field 8 (0x1000 + off) ++
    field 8 (0x1000 + off) ++ field 8 size ++ field 8 size ++ field 8 align

def sectionBytes (name type flags addr off size link info align entsize : ℕ) : List UInt8 :=
  field 4 name ++ field 4 type ++ field 8 flags ++ field 8 addr ++ field 8 off ++ field 8 size ++
    field 4 link ++ field 4 info ++ field 8 align ++ field 8 entsize

/-- The file header and the two program headers, which end at 0xb0. -/
def aliasHeaders (shoff shnum shstrndx : ℕ) : List UInt8 :=
  [0x7f, 0x45, 0x4c, 0x46, 2, 1, 1] ++ List.replicate 9 0 ++ field 2 3 ++ field 2 62 ++
    field 4 1 ++ field 8 0 ++ field 8 64 ++ field 8 shoff ++ field 4 0 ++ field 2 64 ++
    field 2 56 ++ field 2 2 ++ field 2 64 ++ field 2 shnum ++ field 2 shstrndx ++
    programBytes 1 7 0xb0 0x140 0x1000 ++ programBytes 2 6 0x138 0x90 8

def aliasDynstr : List UInt8 := strings ["api", "caller"]

/-- The one segment: the dynamic symbols at 0xb0, their strings, the hash table,
the relocation of the slot at 0x1c8 and the dynamic table, then the stub of `api`
at 0x1d0, the body of `api` at 0x1e0, and a caller at 0x1e8 that calls the stub. -/
def aliasImage : List UInt8 :=
  symBytes 0 0 0 0 0 ++ symBytes 1 0x12 2 0x11e0 8 ++ symBytes 5 0x12 2 0x11e8 8 ++
    aliasDynstr ++ field 4 0 ++ [1, 3, 2, 0, 0, 1].flatMap (field 4) ++
    field 8 0x11c8 ++ field 8 0x100000007 ++ field 8 0 ++
    [4, 0x1108, 5, 0x10f8, 6, 0x10b0, 10, 12, 11, 24, 2, 24, 20, 7, 23, 0x1120, 0, 0].flatMap
      (field 8) ++
    field 8 0 ++ [0xff, 0x25, 0xf2, 0xff, 0xff, 0xff] ++ List.replicate 10 0x90 ++
    [0x31, 0xc0, 0xc3, 0x90, 0x90, 0x90, 0x90, 0x90] ++
    [0xe8, 0xe3, 0xff, 0xff, 0xff, 0xc3, 0x90, 0x90]

def aliasStrtab : List UInt8 := strings ["impl", "api", "caller"]

def aliasShstrtab : List UInt8 := strings [".plt", ".text", ".symtab", ".strtab", ".shstrtab"]

def aliasSections : List UInt8 :=
  List.replicate 64 0 ++ sectionBytes 1 1 6 0x11d0 0x1d0 16 0 0 16 16 ++
    sectionBytes 6 1 6 0x11e0 0x1e0 16 0 0 16 0

/-- A shared object whose export `api` is an alias of the static `impl`. -/
def aliasFile : List UInt8 :=
  aliasHeaders 0x288 6 5 ++ aliasImage ++ symBytes 0 0 0 0 0 ++ symBytes 1 0x02 2 0x11e0 8 ++
    symBytes 6 0x12 2 0x11e0 8 ++ symBytes 10 0x12 2 0x11e8 8 ++ aliasStrtab ++ aliasShstrtab ++
    field 1 0 ++ aliasSections ++ sectionBytes 12 2 0 0 0x1f0 96 4 2 8 24 ++
    sectionBytes 20 3 0 0 0x250 17 0 0 1 0 ++ sectionBytes 28 3 0 0 0x261 38 0 0 1 0

/-- The same file without its symbol table. -/
def aliasStripped : List UInt8 :=
  aliasHeaders 0x218 4 3 ++ aliasImage ++ aliasShstrtab ++ field 2 0 ++ aliasSections ++
    sectionBytes 28 3 0 0 0x1f0 38 0 0 1 0

/-- What a parser reports of the two files, up to the symbol and section tables. -/
def aliasElf (syms : List Sym) (strtab : List UInt8) (sections : List SectionHeader) : Elf :=
  { eMachine := 62, eType := 3, eEntry := 0
    programHeaders := [⟨ptLoad, 7, 0xb0, 0x10b0, 0x140, 0x140⟩, ⟨2, 6, 0x138, 0x1138, 0x90, 0x90⟩]
    sectionHeaders := [⟨0, 0, 0, 0⟩, ⟨1, 0x11d0, 0x1d0, 16⟩, ⟨6, 0x11e0, 0x1e0, 16⟩] ++ sections
    syms := syms
    dynsyms := [⟨0, 0, 0, 0⟩, ⟨1, 0x12, 0x11e0, 8⟩, ⟨5, 0x12, 0x11e8, 8⟩]
    strtab := nameAt strtab, dynstrtab := nameAt aliasDynstr, shdrStrtab := nameAt aliasShstrtab
    pltrelocs := [⟨0x11c8, 1⟩], dynrelas := [], dynrels := [] }

def aliasFull : Elf :=
  aliasElf [⟨0, 0, 0, 0⟩, ⟨1, 0x02, 0x11e0, 8⟩, ⟨6, 0x12, 0x11e0, 8⟩, ⟨10, 0x12, 0x11e8, 8⟩]
    aliasStrtab [⟨12, 0, 0x1f0, 96⟩, ⟨20, 0, 0x250, 17⟩, ⟨28, 0, 0x261, 38⟩]

def aliasTwinElf : Elf := aliasElf [] [] [⟨28, 0, 0x1f0, 38⟩]

def aliasParsers : Parsers :=
  { elf := fun bytes ↦
      if bytes = aliasFile then some aliasFull
      else if bytes = aliasStripped then some aliasTwinElf
      else none
    ehEntries := fun _ _ ↦ [] }

/-- The sweep of the caller finds its call of the stub among the imports. -/
def aliasEmulator : Emulator :=
  { runExplore := fun _ _ _ _ _ ↦ []
    staticCalls := fun _ entry _ imports ↦
      ([], if entry = 0x11e8 then (imports.lookup 0x11d0).toList else []) }


theorem aliasStripped_ne : aliasStripped ≠ aliasFile := by decide

theorem aliasParsers_elf : aliasParsers.elf aliasFile = some aliasFull := by
  simp only [aliasParsers, if_true]

theorem aliasParsers_elf_stripped : aliasParsers.elf aliasStripped = some aliasTwinElf := by
  simp only [aliasParsers, if_neg aliasStripped_ne, if_true]

theorem loadSegments_aliasTwin : loadSegments aliasStripped aliasTwinElf.programHeaders =
    loadSegments aliasFile aliasFull.programHeaders := by
  decide +kernel

theorem pltRanges_aliasTwin : aliasTwinElf.pltRanges = aliasFull.pltRanges := by
  decide

theorem pltImports_aliasTwin (arch : Arch) :
    pltImports aliasTwinElf aliasStripped arch = pltImports aliasFull aliasFile arch := by
  have hentries : (pltImports aliasTwinElf aliasStripped arch).entries =
      (pltImports aliasFull aliasFile arch).entries := by
    cases arch <;> decide +kernel
  exact AList.ext hentries

theorem ehFrameFuncs_aliasTwin : ehFrameFuncs aliasParsers aliasTwinElf aliasStripped =
    ehFrameFuncs aliasParsers aliasFull aliasFile := by
  decide

theorem aliasTwin : StripTwin aliasParsers aliasFile aliasStripped aliasFull aliasTwinElf where
  parsed := aliasParsers_elf
  parsed' := aliasParsers_elf_stripped
  machine := rfl
  type := rfl
  entry := rfl
  segments := loadSegments_aliasTwin
  sections := pltRanges_aliasTwin
  dynsyms := rfl
  dynstrtab := rfl
  relocations := pltImports_aliasTwin
  unwind := ehFrameFuncs_aliasTwin
  stripped := rfl

/-- What both files load to, up to the function list. -/
def aliasLoaded (funcs : List Func) : Loaded :=
  { image := ⟨[⟨0x10b0, aliasImage, true, true⟩], 0, true, .x86_64⟩
    funcs := funcs
    imports := pltImports aliasFull aliasFile .x86_64 }

def aliasFuncs : List Func :=
  [⟨some "impl", 0x11e0, 8, .symtab⟩, ⟨some "caller", 0x11e8, 8, .symtab⟩]

def aliasTwinFuncs : List Func :=
  [⟨some "api", 0x11e0, 8, .dynSym⟩, ⟨some "caller", 0x11e8, 8, .dynSym⟩]

theorem loadSegments_alias :
    loadSegments aliasFile aliasFull.programHeaders = .ok (aliasLoaded []).image.segments := by
  decide +kernel

theorem discover_alias : sortFuncs (discover aliasParsers aliasFull aliasFile) = aliasFuncs := by
  decide

theorem discover_aliasTwin :
    sortFuncs (discover aliasParsers aliasTwinElf aliasStripped) = aliasTwinFuncs := by
  decide

theorem load_aliasFile : load aliasParsers aliasFile = .ok (aliasLoaded aliasFuncs) := by
  have harch : archOf aliasFull.eMachine = .ok .x86_64 := rfl
  unfold load
  rw [aliasParsers_elf]
  dsimp only
  rw [harch, loadSegments_alias, discover_alias]
  rfl

theorem load_aliasStripped :
    load aliasParsers aliasStripped = .ok (aliasLoaded aliasTwinFuncs) := by
  have harch : archOf aliasTwinElf.eMachine = .ok .x86_64 := rfl
  unfold load
  rw [aliasParsers_elf_stripped]
  dsimp only
  rw [harch, loadSegments_aliasTwin, loadSegments_alias, discover_aliasTwin]
  dsimp only [bind, Except.bind]
  rw [pltImports_aliasTwin]
  rfl

theorem strip_invariant_iff_alias : ∃ l l', load aliasParsers aliasFile = .ok l ∧
    load aliasParsers aliasStripped = .ok l' ∧
    (∀ e, StripInvariant e l l' ↔ EdgesKept e aliasFull l l') ∧
      ∀ names : Set String, (∀ e, ReportsFrom names e l → StripInvariant e l l') ↔
        NamesKept names aliasFull l l' :=
  ⟨_, _, load_aliasFile, load_aliasStripped,
    strip_invariant_iff aliasTwin load_aliasFile load_aliasStripped⟩

/-- The symbol table hides the export behind the static's name, so the edge of
the caller is there only in the stripped twin. -/
theorem alias_edge_only_when_stripped :
    StripTwin aliasParsers aliasFile aliasStripped aliasFull aliasTwinElf ∧
    ∃ l l', load aliasParsers aliasFile = .ok l ∧ load aliasParsers aliasStripped = .ok l' ∧
      ¬StripInvariant aliasEmulator l l' := by
  refine ⟨aliasTwin, _, _, load_aliasFile, load_aliasStripped, fun hinv ↦ ?_⟩
  have hkept := (stripInvariant_iff_edgesKept aliasTwin load_aliasFile load_aliasStripped).mp hinv
  have himport : (aliasLoaded aliasFuncs).imports.lookup 0x11d0 = some "api" := by decide +kernel
  have hnames : importNames aliasEmulator (aliasLoaded aliasFuncs)
      ⟨some "caller", 0x11e8, 8, .symtab⟩ = ["api"] := by
    simp [importNames, tracesOf, aliasEmulator, himport]
  have hcode : ((aliasLoaded aliasFuncs).image.codeAt 0x11e8 1).isSome := by decide +kernel
  have hfound : FoundInBoth (aliasLoaded aliasFuncs) (aliasLoaded aliasTwinFuncs)
      ⟨some "caller", 0x11e8, 8, .symtab⟩ :=
    { mem := by simp [aliasLoaded, aliasFuncs]
      mem' := ⟨⟨some "caller", 0x11e8, 8, .dynSym⟩, by simp [aliasLoaded, aliasTwinFuncs], rfl, rfl⟩
      size_pos := by decide
      code := hcode }
  have hbacked := (hkept _ hfound).2
  have hstripped : Resolves (tableFuncs aliasFull []) "api" 0x11e0 := by
    rw [← aliasTwin.tableFuncs_eq, ← lookup_localByName_load aliasTwin.parsed' load_aliasStripped]
    decide
  rcases hbacked 0x11e0 (by decide) ⟨"api", by simp [hnames], hstripped⟩ with
    hdirect | ⟨n, hn, hfull⟩
  · simp [directCallees, tracesOf, aliasEmulator] at hdirect
  · obtain rfl : n = "api" := by simpa [hnames] using hn
    rw [← lookup_localByName_load aliasTwin.parsed load_aliasFile] at hfull
    revert hfull
    decide

end Fnprint
