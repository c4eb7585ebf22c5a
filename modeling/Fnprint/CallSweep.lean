import Fnprint.Decode
import Fnprint.Frame
import Fnprint.SweepSafe

/-!
# The call sweep of an aarch64 body

The sweep tells calls apart by masks of its own, and strides over the words of
the body.  It finds the targets of the words that the run-time decoder takes for
direct calls, and of the jumps that leave the body.
-/

namespace Fnprint

open StableSort KeyMap Checked

/-! ## What is to be found -/

/-- An unconditional jump, which the decoder steers nothing by. -/
def isB : UInt32 → Bool := hasBits 0xfc000000 0x14000000

/-- The addresses a segment spans; its end saturates. -/
def Segment.Spans (s : Segment) (t : UInt64) : Prop :=
  s.vaddr ≤ t ∧ t < satAdd64 s.vaddr (UInt64.ofNat s.bytes.length)

instance (s : Segment) (t : UInt64) : Decidable (s.Spans t) := inferInstanceAs (Decidable (_ ∧ _))

/-- The addresses of a body; its end saturates. -/
def Func.Spans (f : Func) (t : UInt64) : Prop := f.entry ≤ t ∧ t < satAdd64 f.entry f.size

instance (f : Func) (t : UInt64) : Decidable (f.Spans t) := inferInstanceAs (Decidable (_ ∧ _))

/-- The address of a word of the body. -/
def Func.wordAddr (f : Func) (i : ℕ) : UInt64 := f.entry + UInt64.ofNat (4 * i)

/-- A word of the body is decoded as a direct call of the target. -/
def Func.Calls (f : Func) (code : List UInt8) (t : UInt64) : Prop :=
  ∃ i, 4 * i + 4 ≤ f.size.toNat ∧
    (decodeA64 (f.wordAddr i) (code.drop (4 * i))).1 = .call (some t) true

/-- A word of the body jumps to the target, outside the body. -/
def Func.TailCalls (f : Func) (code : List UInt8) (t : UInt64) : Prop :=
  ∃ i w, 4 * i + 4 ≤ f.size.toNat ∧ wordAt code (4 * i) = some w ∧ isB w = true ∧
    t = a64Rel (f.wordAddr i) (w &&& 0x03ffffff) 26 ∧ ¬f.Spans t

/-! ## One word -/

/-- The target the sweep takes a word for. -/
def sweptTarget (lo hi a : UInt64) (w : UInt32) : Option UInt64 :=
  let t := a64Rel a (w &&& 0x03ffffff) 26
  if isBl w then some t else if isB w then if lo ≤ t ∧ t < hi then none else some t else none

section Targets

variable (image : Image) (imports : Map UInt64 String) (lo hi : UInt64)

theorem a64Call_eq (a : UInt64) (w : UInt32) (c : Calls) :
    a64Call image imports lo hi a w c = match sweptTarget lo hi a w with
      | some t => c.addTarget image imports t
      | none => c := by
  unfold a64Call sweptTarget
  dsimp only [isBl, isB, hasBits]
  simp only [beq_iff_eq]
  split_ifs with hbl hb hin
  · rfl
  · rw [Calls.addTail, if_pos hin]
  · rw [Calls.addTail, if_neg hin]
  · rfl

/-- Many targets: the imports among them by name, the entries inside the image. -/
theorem foldl_addTarget (ts : List UInt64) (c : Calls) :
    ts.foldl (Calls.addTarget image imports) c =
      { callees := c.callees ++ ts.filter fun t ↦ imports.lookup t = none ∧ image.holds t
        names := c.names ++ ts.filterMap imports.lookup } := by
  induction ts generalizing c with
  | nil => simp
  | cons t ts ih =>
      rw [List.foldl_cons, ih, Calls.addTarget]
      cases hname : imports.lookup t with
      | some n => simp [hname]
      | none => by_cases hheld : image.holds t <;> simp [hname, hheld]

end Targets

theorem a64Kind_eq_direct_iff {a t : UInt64} {w : UInt32} :
    a64Kind a w = .call (some t) true ↔ isBl w = true ∧ t = a64Rel a (w &&& 0x03ffffff) 26 := by
  unfold a64Kind
  split_ifs with hbl <;> simp [hbl, eq_comm]

theorem decodeA64_drop {a : UInt64} {code : List UInt8} {i : ℕ} {w : UInt32}
    (h : wordAt code i = some w) : (decodeA64 a (code.drop i)).1 = a64Kind a w := by
  have hdrop : wordAt (code.drop i) 0 = wordAt code i := by
    simp only [wordAt, List.getElem?_drop, Nat.add_zero, Nat.zero_add]
  rw [decodeA64, hdrop, h]

/-! ## The whole body -/

section Sweep

variable {image : Image} {func : Func} {code : List UInt8}

/-- The target of each word of the body. -/
def Func.wordTarget (f : Func) (code : List UInt8) (i : ℕ) : Option UInt64 :=
  (wordAt code (4 * i)).bind (sweptTarget f.entry (satAdd64 f.entry f.size) (f.wordAddr i))

/-- The targets of a body, in the order of its words. -/
def Func.targets (f : Func) (code : List UInt8) : List UInt64 :=
  (List.range (code.length / 4)).filterMap (f.wordTarget code)

theorem scan_a64Step (image : Image) (imports : Map UInt64 String) (f : Func)
    (hlen : code.length + 4 ≤ 2 ^ 64) (c : Calls) :
    Resync.scan code.length
        (a64Step image imports f.entry (satAdd64 f.entry f.size) code) 0 c =
      some ((f.targets code).foldl (Calls.addTarget image imports) c) := by
  have hstep : ∀ i c, i < code.length →
      a64Step image imports f.entry (satAdd64 f.entry f.size) code i c =
        if i + 4 ≤ code.length then
          some (some (((wordAt code i).map fun w ↦ a64Call image imports f.entry
            (satAdd64 f.entry f.size) (f.entry + UInt64.ofNat i) w c).getD c, 4))
        else some none := by
    intro i c hi
    have hnext : addSize i 4 = some (i + 4) := if_pos (by omega)
    rw [a64Step, hnext, Option.bind_eq_bind, Option.bind_some]
    by_cases hfit : i + 4 ≤ code.length
    · obtain ⟨w, hw⟩ := Option.isSome_iff_exists.mp (wordAt_isSome hfit)
      rw [if_pos hfit, if_pos hfit, hw]
      rfl
    · rw [if_neg hfit, if_neg hfit]
      rfl
  rw [Resync.scan_stride (by decide) hlen hstep, Func.targets, List.foldl_filterMap, Nat.sub_zero]
  congr 2
  funext c i
  rw [Nat.zero_add, Func.wordTarget]
  cases hw : wordAt code (4 * i) with
  | none => rfl
  | some w =>
      rw [Option.map_some, Option.getD_some, Option.bind_some, ← Func.wordAddr, a64Call_eq]
      cases sweptTarget f.entry (satAdd64 f.entry f.size) (f.wordAddr i) w <;> rfl

theorem sweptTarget_eq_some_iff {f : Func} {a t : UInt64} {w : UInt32} :
    sweptTarget f.entry (satAdd64 f.entry f.size) a w = some t ↔
      a64Kind a w = .call (some t) true ∨
        isB w = true ∧ t = a64Rel a (w &&& 0x03ffffff) 26 ∧ ¬f.Spans t := by
  rw [a64Kind_eq_direct_iff]
  unfold sweptTarget
  dsimp only
  split_ifs with hbl hb hin
  · have hb : isB w = false := by
      have hbits : w &&& 0xfc000000 = 0x94000000 := beq_iff_eq.mp hbl
      rw [isB, hasBits, hbits]
      rfl
    simp [hbl, hb, eq_comm]
  · refine iff_of_false (fun h ↦ nomatch h) ?_
    rintro (⟨h, -⟩ | ⟨-, rfl, hout⟩)
    · exact hbl h
    · exact hout hin
  · constructor
    · intro h
      obtain rfl := Option.some.inj h
      exact Or.inr ⟨hb, rfl, hin⟩
    · rintro (⟨h, -⟩ | ⟨-, rfl, -⟩)
      · exact absurd h hbl
      · rfl
  · refine iff_of_false (fun h ↦ nomatch h) ?_
    rintro (⟨h, -⟩ | ⟨h, -⟩)
    · exact hbl h
    · exact hb h

theorem mem_targets_iff (hlen : code.length = func.size.toNat) {t : UInt64} :
    t ∈ func.targets code ↔ func.Calls code t ∨ func.TailCalls code t := by
  rw [Func.targets, List.mem_filterMap]
  constructor
  · rintro ⟨i, hi, ht⟩
    have hfit : 4 * i + 4 ≤ func.size.toNat := by
      have hlt := List.mem_range.mp hi
      omega
    obtain ⟨w, hw, ht⟩ := Option.bind_eq_some_iff.mp ht
    rcases sweptTarget_eq_some_iff.mp ht with hcall | ⟨hb, hrel, hout⟩
    · exact Or.inl ⟨i, hfit, by rwa [decodeA64_drop hw]⟩
    · exact Or.inr ⟨i, w, hfit, hw, hb, hrel, hout⟩
  · have hrange : ∀ {i}, 4 * i + 4 ≤ func.size.toNat → i ∈ List.range (code.length / 4) :=
      fun hi ↦ List.mem_range.mpr (by omega)
    rintro (⟨i, hfit, hcall⟩ | ⟨i, w, hfit, hw, htail⟩)
    · obtain ⟨w, hw⟩ := Option.isSome_iff_exists.mp (wordAt_isSome (hlen ▸ hfit))
      rw [decodeA64_drop hw] at hcall
      refine ⟨i, hrange hfit, ?_⟩
      rw [Func.wordTarget, hw]
      exact sweptTarget_eq_some_iff.mpr (Or.inl hcall)
    · refine ⟨i, hrange hfit, ?_⟩
      rw [Func.wordTarget, hw]
      exact sweptTarget_eq_some_iff.mpr (Or.inr htail)

theorem holds_iff {t : UInt64} : image.holds t = true ↔ ∃ s ∈ image.segments, s.Spans t := by
  rw [Image.holds, Image.segRanges, List.any_map, List.any_eq_true]
  simp [Segment.Spans]

theorem staticCalls_eq (capstone : Option Disasm) (imports : Map UInt64 String)
    (harch : image.arch = .aarch64) (hsize : func.size.toNat ≤ 2 ^ 20)
    (hcode : image.codeAt func.entry func.size.toNat = some code) :
    staticCalls capstone image func imports =
      some (sortDedup compare
          ((func.targets code).filter fun t ↦ imports.lookup t = none ∧ image.holds t),
        sortDedup compare ((func.targets code).filterMap imports.lookup)) := by
  have hcap : func.sweepLen = func.size.toNat := min_eq_left hsize
  have hlen := length_of_codeAt hcode
  unfold staticCalls
  dsimp only
  rw [hcap, hcode]
  dsimp only
  rw [harch]
  dsimp only
  rw [scan_a64Step image imports func (by omega), Option.map_some, foldl_addTarget,
    List.nil_append, List.nil_append]
  rfl

end Sweep

/-! ## What a run records -/

namespace Rec

section Hooks

variable {r r' : Rec} {out : List Command}

theorem callees_noteCallee (r : Rec) (target : Option UInt64) (direct : Bool) :
    ∀ t ∈ (r.noteCallee target direct).callees, t ∈ r.callees ∨
      target = some t ∧ direct = true ∧ r.symbols.lookup t = none ∧
        (r.segs.any fun s ↦ s.1 ≤ t ∧ t < s.2) = true := by
  unfold noteCallee
  intro t ht
  split at ht
  · split at ht
    · next hedge =>
        obtain rfl | ht := Finset.mem_insert.mp ht
        · exact Or.inr ⟨rfl, hedge⟩
        · exact Or.inl ht
    · exact Or.inl ht
  · exact Or.inl ht

/-- What a run never changes of the recorder. -/
def fixed (r : Rec) : Map UInt64 String × List (UInt64 × UInt64) := (r.symbols, r.segs)

theorem fixed_steer {addr ilen retval : UInt64} {kind : Kind} {nr : UInt32}
    (h : r.steer addr kind ilen nr retval = some (r', out)) : r'.fixed = r.fixed :=
  keeps_steer (fun _ _ ↦ rfl) (fun _ _ ↦ rfl)
    (fun target direct _ ↦ keeps_noteCallee (fun _ _ ↦ rfl) r target direct)
    (fun target _ ↦ keeps_passBranch (fun _ _ ↦ rfl) (fun _ _ ↦ rfl) _ addr ilen target) h

theorem callees_steer_of_ne {addr ilen retval : UInt64} {kind : Kind} {nr : UInt32}
    (hkind : ∀ target direct, kind ≠ .call target direct)
    (h : r.steer addr kind ilen nr retval = some (r', out)) : r'.callees = r.callees :=
  keeps_steer (fun _ _ ↦ rfl) (fun _ _ ↦ rfl)
    (fun target direct heq ↦ absurd heq (hkind target direct))
    (fun target _ ↦ keeps_passBranch (fun _ _ ↦ rfl) (fun _ _ ↦ rfl) _ addr ilen target) h

theorem callees_steer {addr ilen retval : UInt64} {kind : Kind} {nr : UInt32}
    (h : r.steer addr kind ilen nr retval = some (r', out)) :
    ∀ t ∈ r'.callees, t ∈ r.callees ∨ kind = .call (some t) true ∧
      r.symbols.lookup t = none ∧ (r.segs.any fun s ↦ s.1 ≤ t ∧ t < s.2) = true := by
  intro t ht
  cases kind with
  | call target direct =>
      obtain ⟨ctr, -, h⟩ := Option.bind_eq_some_iff.mp h
      rw [← (Prod.mk.inj (Option.some.inj h)).1] at ht
      rcases callees_noteCallee r target direct t ht with ht | ⟨rfl, rfl, hedge⟩
      · exact Or.inl ht
      · exact Or.inr ⟨rfl, hedge⟩
  | syscall => exact Or.inl (callees_steer_of_ne (fun _ _ ↦ Kind.noConfusion) h ▸ ht)
  | ret => exact Or.inl (callees_steer_of_ne (fun _ _ ↦ Kind.noConfusion) h ▸ ht)
  | branch target => exact Or.inl (callees_steer_of_ne (fun _ _ ↦ Kind.noConfusion) h ▸ ht)
  | plain => exact Or.inl (callees_steer_of_ne (fun _ _ ↦ Kind.noConfusion) h ▸ ht)

theorem edges_visited (r : Rec) (addr instret : UInt64) (visits : UInt32) :
    (r.visited addr instret visits).fixed = r.fixed ∧
      (r.visited addr instret visits).callees = r.callees := by
  unfold visited settleBranch
  split <;> exact ⟨rfl, rfl⟩

theorem edges_cover (r : Rec) (addr ilen : UInt64) :
    (r.cover addr ilen).fixed = r.fixed ∧ (r.cover addr ilen).callees = r.callees := by
  unfold cover
  split <;> exact ⟨rfl, rfl⟩

/-- A code hook records at most the direct target of its instruction. -/
theorem edges_codeHook {addr ilen retval : UInt64} {kind : Kind} {nr : UInt32}
    (h : r.codeHook addr kind ilen nr retval = some (r', out)) :
    r'.fixed = r.fixed ∧ ∀ t ∈ r'.callees, t ∈ r.callees ∨ kind = .call (some t) true ∧
      r.symbols.lookup t = none ∧ (r.segs.any fun s ↦ s.1 ≤ t ∧ t < s.2) = true := by
  obtain ⟨instret, visits, -, -, h⟩ := codeHook_cases h
  obtain ⟨hfixed, hcallees⟩ := r.edges_visited addr instret visits
  rcases h with ⟨-, rfl, -⟩ | ⟨-, h⟩
  · refine ⟨hfixed, fun t ht ↦ Or.inl ?_⟩
    rw [← hcallees]
    exact ht
  · obtain ⟨hfixed', hcallees'⟩ := (r.visited addr instret visits).edges_cover addr ilen
    have hkept := hfixed'.trans hfixed
    refine ⟨(fixed_steer h).trans hkept, fun t ht ↦ ?_⟩
    have hsymbols := congrArg Prod.fst hkept
    have hsegs := congrArg Prod.snd hkept
    dsimp only [fixed] at hsymbols hsegs
    rw [← hsymbols, ← hsegs, ← hcallees, ← hcallees']
    exact callees_steer h t ht

theorem fixed_step {c : Callback} (h : r.step c = some (r', out)) : r'.fixed = r.fixed := by
  rcases step_cases h with ⟨-, hstate⟩ | ⟨addr, kind, ilen, nr, retval, -, hcode⟩
  · exact Prod.ext (congrArg CodeState.symbols hstate) (congrArg CodeState.segs hstate)
  · exact (edges_codeHook hcode).1

end Hooks

theorem fixed_record {cfg : Config} {image : Image} {func : Func} {symbols : Map UInt64 String}
    {force : List Bool} {callbacks : List Callback} {r : Rec} {out : List Command}
    (h : record cfg image func symbols force callbacks = some (r, out)) :
    r.symbols = symbols ∧ r.segs = image.segRanges := by
  have hfixed := @Machine.run_invariant _ _ _ _
    (fun s _ ↦ s.fixed = (Rec.start cfg image func symbols force).fixed)
    (fun s _ c t _ hs hstep ↦ (fixed_step hstep).trans hs) _ _ [] _ _ rfl h
  exact Prod.mk.inj hfixed

end Rec

/-! ## The sweep against the decoder -/

/-- The sweep of an aarch64 body names the imports among the targets of its
direct calls and of its tail calls, and lists those in the segments.  The code
hook finds no callee at a word of the body that the sweep has not listed. -/
theorem staticCalls_a64 (capstone : Option Disasm) {image : Image} {func : Func}
    (imports : Map UInt64 String) {code : List UInt8} (harch : image.arch = .aarch64)
    (hsize : func.size.toNat ≤ 2 ^ 20)
    (hcode : image.codeAt func.entry func.size.toNat = some code) :
    ∃ callees names, staticCalls capstone image func imports = some (callees, names) ∧
      callees.Pairwise (fun s t ↦ compare s t = .lt) ∧
      names.Pairwise (fun m n ↦ compare m n = .lt) ∧
      (∀ t, t ∈ callees ↔ (func.Calls code t ∨ func.TailCalls code t) ∧
        imports.lookup t = none ∧ ∃ s ∈ image.segments, s.Spans t) ∧
      (∀ n, n ∈ names ↔ ∃ t, (func.Calls code t ∨ func.TailCalls code t) ∧
        imports.lookup t = some n) ∧
      ∀ cfg force callbacks r out,
        record cfg image func imports force callbacks = some (r, out) →
        ∀ i (buf : Window) nr retval r' out', 4 * i + 4 ≤ func.size.toNat →
          wordAt buf.toList 0 = wordAt code (4 * i) →
          r.codeHook (func.wordAddr i) (decode none (func.wordAddr i) buf).1
            (decode none (func.wordAddr i) buf).2 nr retval = some (r', out') →
          ∀ t ∈ r'.callees, t ∉ r.callees → t ∈ callees := by
  have hlen := length_of_codeAt hcode
  have hcalls := staticCalls_eq capstone imports harch hsize hcode
  have hcallees : ∀ t, t ∈ sortDedup compare
      ((func.targets code).filter fun t ↦ imports.lookup t = none ∧ image.holds t) ↔
        (func.Calls code t ∨ func.TailCalls code t) ∧
          imports.lookup t = none ∧ ∃ s ∈ image.segments, s.Spans t := by
    intro t
    rw [mem_sortDedup, List.mem_filter, mem_targets_iff hlen, decide_eq_true_iff, holds_iff]
  refine ⟨_, _, hcalls, pairwise_sortDedup compare _, pairwise_sortDedup compare _, hcallees,
    fun n ↦ ?_, ?_⟩
  · rw [mem_sortDedup, List.mem_filterMap]
    simp only [mem_targets_iff hlen]
  · intro cfg force callbacks r out hrun i buf nr retval r' out' hfit hword hhook t ht hnew
    obtain ⟨hsymbols, hsegs⟩ := Rec.fixed_record hrun
    rcases (Rec.edges_codeHook hhook).2 t ht with hold | ⟨hkind, hname, hheld⟩
    · exact absurd hold hnew
    · obtain ⟨w, hw⟩ := Option.isSome_iff_exists.mp (wordAt_isSome (hlen ▸ hfit))
      rw [decode, decodeA64, hword, hw] at hkind
      rw [hsymbols] at hname
      rw [hsegs] at hheld
      refine (hcallees t).mpr ⟨Or.inl ⟨i, hfit, ?_⟩, hname, ?_⟩
      · rwa [decodeA64_drop hw]
      · rw [← holds_iff, Image.holds]
        simpa using hheld

/-! ## Two bodies -/

/-- A call and a tail call out of a body of three words, in one segment. -/
def twoCallsBody : List UInt8 := [4, 0, 0, 0x94, 5, 0, 0, 0x14, 0xc0, 3, 0x5f, 0xd6]

def twoCallsImage : Image :=
  { segments := [⟨0x401000, twoCallsBody ++ List.replicate 20 0, true, false⟩]
    entry := 0x401000, isPie := false, arch := .aarch64 }

def twoCallsFunc : Func := ⟨none, 0x401000, 12, .symtab⟩

def twoCallsImports : Map UInt64 String := (∅ : Map UInt64 String).insert 0x401018 "memcpy"

theorem staticCalls_a64_twoCalls : ∃ callees names,
    staticCalls none twoCallsImage twoCallsFunc twoCallsImports = some (callees, names) ∧
      0x401010 ∈ callees ∧ "memcpy" ∈ names := by
  obtain ⟨callees, names, hcalls, -, -, hcallees, hnames, -⟩ :=
    staticCalls_a64 none twoCallsImports (show twoCallsImage.arch = .aarch64 from rfl)
      (show twoCallsFunc.size.toNat ≤ 2 ^ 20 by decide)
      (show twoCallsImage.codeAt 0x401000 12 = some twoCallsBody by decide)
  refine ⟨callees, names, hcalls, (hcallees _).mpr ⟨Or.inl ⟨0, by decide, by decide⟩, ?_⟩,
    (hnames _).mpr ⟨0x401018, Or.inr ⟨1, 0x14000005, ?_⟩, by decide⟩⟩
  · exact ⟨by decide, _, List.mem_cons_self, by decide⟩
  · exact ⟨by decide, by decide, by decide, by decide, by decide⟩

/-- The last bytes of the address space, and a body in them whose first word
calls the very last address. -/
def lastCallBody : List UInt8 := [3, 0, 0, 0x94] ++ List.replicate 9 0

def lastCallImage : Image :=
  { segments := [⟨0xfffffffffffffff0, [0, 0, 0] ++ lastCallBody, true, false⟩]
    entry := 0, isPie := false, arch := .aarch64 }

def lastCallFunc : Func := ⟨none, 0xfffffffffffffff3, 13, .symtab⟩

/-- A call of the last address, inside the segment, is not listed. -/
theorem staticCalls_a64_misses_last :
    lastCallImage.arch = .aarch64 ∧ lastCallFunc.size.toNat ≤ 2 ^ 20 ∧
      lastCallImage.codeAt lastCallFunc.entry lastCallFunc.size.toNat = some lastCallBody ∧
      lastCallFunc.Calls lastCallBody 0xffffffffffffffff ∧
      (∃ s ∈ lastCallImage.segments, s.vaddr.toNat ≤ (0xffffffffffffffff : UInt64).toNat ∧
        (0xffffffffffffffff : UInt64).toNat < s.vaddr.toNat + s.bytes.length) ∧
      (∅ : Map UInt64 String).lookup 0xffffffffffffffff = none ∧
      staticCalls none lastCallImage lastCallFunc ∅ = some ([], []) := by
  refine ⟨rfl, by decide, by decide, ⟨0, by decide, by decide⟩, ?_, rfl, ?_⟩
  · exact ⟨_, List.mem_cons_self, by decide⟩
  · have hcode : lastCallImage.codeAt lastCallFunc.entry lastCallFunc.size.toNat =
        some lastCallBody := by decide
    rw [staticCalls_eq none ∅ rfl (by decide) hcode]
    decide

end Fnprint
