import Fnprint.Lib.Scramble
import Fnprint.MemorySetup

/-!
# Lazy memory is flat memory

A guest cannot tell the memory that is paged in around it from one that was
complete before the run: a page comes in with the bytes it is then read to have
held all along.  The recorder can tell the two apart, but only where its code hook
reads past the last mapped page.
-/

namespace Fnprint

open Paging Checked Fallible

variable {e : MemEngine} {cs : Option Disasm}

/-! ## Pages that come in -/

theorem requested_page {page : UInt64} (hpage : PageAligned page) :
    requested page pageSize = {page} := by
  have hsize : pageSize.toNat = 4096 := rfl
  have hmod := pageAligned_iff.mp hpage
  ext q
  rw [requested, Set.mem_ofPred_eq, hsize, Set.mem_singleton_iff]
  constructor
  · rintro ⟨hq, hlow, hhigh⟩
    rw [pageAligned_iff] at hq
    exact UInt64.toNat_inj.mp (by omega)
  · rintro rfl
    exact ⟨hpage, le_rfl, by omega⟩

/-- The fill of a page covers the page, with the junk of each address. -/
theorem window_fill {page : UInt64} (seed a : UInt64) (hpage : PageAligned page) :
    window page (fillBytes pageSize.toNat page seed) a =
      if pageOf a = page then some (junkByte seed a) else none := by
  have hsize : pageSize.toNat = 4096 := rfl
  have hmod := pageAligned_iff.mp hpage
  have hiff : pageOf a = page ↔ page.toNat ≤ a.toNat ∧ a.toNat - page.toNat < 4096 := by
    rw [← UInt64.toNat_inj, toNat_pageOf]
    omega
  unfold window
  by_cases hle : page ≤ a
  · have hsub := UInt64.toNat_sub_of_le a page hle
    have hle' := UInt64.le_iff_toNat_le.mp hle
    rw [if_pos hle, hsub]
    by_cases ha : pageOf a = page
    · obtain ⟨-, hlt⟩ := hiff.mp ha
      have hback : page + UInt64.ofNat (a.toNat - page.toNat) = a := by
        rw [← hsub, UInt64.ofNat_toNat, UInt64.add_comm, UInt64.sub_add_cancel]
      have hfit : page.toNat + (a.toNat - page.toNat) < 2 ^ 64 := by
        have hlt := a.toNat_lt
        omega
      rw [if_pos ha, getElem?_fillBytes seed rfl (by omega) (by omega) hfit, hback]
    · rw [if_neg ha, List.getElem?_eq_none]
      rw [length_fillBytes, hsize]
      by_contra hlt
      exact ha (hiff.mpr ⟨hle', not_le.mp hlt⟩)
  · rw [if_neg hle, if_neg]
    intro ha
    exact hle (UInt64.le_iff_toNat_le.mpr (hiff.mp ha).1)

/-- A page that comes in is not seen. -/
theorem pageIn_ok {seed page : UInt64} {s s₁ : e.State} (hpage : PageAligned page)
    (hmap : e.memMap s page pageSize = .ok s₁) :
    complete (e.read (pageIn e seed s page)) (junkByte seed) =
      complete (e.read s) (junkByte seed) ∧
    e.pages (pageIn e seed s page) = e.pages s ∪ {page} := by
  have hpages : e.pages s₁ = e.pages s ∪ {page} := by
    rw [e.pages_memMap hmap, requested_page hpage]
  have hfit : page.toNat + (fillBytes pageSize.toNat page seed).length ≤ 2 ^ 64 := by
    have hlt := page.toNat_lt
    have hmod := pageAligned_iff.mp hpage
    rw [length_fillBytes]
    change page.toNat + 4096 ≤ 2 ^ 64
    omega
  have hreached : ∀ a, (window page (fillBytes pageSize.toNat page seed) a).isSome = true →
      pageOf a ∈ e.pages s₁ := by
    intro a ha
    rw [window_fill seed a hpage] at ha
    rw [hpages]
    split at ha
    · next heq => exact Or.inr heq
    · cases ha
  obtain ⟨s₂, hwrite⟩ := e.memWrite_ok_iff.mpr ⟨hfit, hreached⟩
  have hfree : page ∉ e.pages s := by
    have hdisjoint := e.disjoint_memMap hmap
    rw [requested_page hpage] at hdisjoint
    exact Set.disjoint_singleton_right.mp hdisjoint
  have hin : pageIn e seed s page = s₂ := by
    rw [pageIn, hmap]
    dsimp only
    rw [hwrite, okOr_ok]
  rw [hin]
  refine ⟨complete_eq_of_filled fun a ↦ ?_, by rw [e.pages_memWrite hwrite, hpages]⟩
  have hread := e.read_memMap hmap a
  rw [requested_page hpage, Set.mem_singleton_iff] at hread
  rw [e.read_memWrite hwrite, onto, window_fill seed a hpage]
  by_cases ha : pageOf a = page
  · rw [if_pos ha, Option.some_or]
    exact Or.inr ⟨e.read_eq_none (ha ▸ hfree), rfl⟩
  · rw [if_neg ha, Option.none_or]
    exact Or.inl (hread.2 ha)

/-- Asking for a page is not seen, and adds that page at most. -/
theorem pageIn_spec {seed page : UInt64} (s : e.State) (hpage : PageAligned page) :
    complete (e.read (pageIn e seed s page)) (junkByte seed) =
      complete (e.read s) (junkByte seed) ∧
    ∃ fresh : Finset UInt64, fresh.card ≤ 1 ∧
      e.pages (pageIn e seed s page) = e.pages s ∪ fresh := by
  cases hmap : e.memMap s page pageSize with
  | error err =>
      have hsame : pageIn e seed s page = s := by rw [pageIn, hmap]
      rw [hsame]
      exact ⟨rfl, ∅, by simp, by simp⟩
  | ok s₁ =>
      obtain ⟨hview, hpages⟩ := @pageIn_ok e seed page s s₁ hpage hmap
      exact ⟨hview, {page}, by simp, by rw [hpages, Finset.coe_singleton]⟩

theorem notMem_map_of_steer {r r' : Rec} {addr : UInt64} {kind : Kind} {ilen : UInt64}
    {nr : UInt32} {retval : UInt64} {out : List Command} {page : UInt64}
    (h : r.steer addr kind ilen nr retval = some (r', out)) : .map page ∉ out := by
  cases kind with
  | call target direct =>
      obtain ⟨ctr, -, h⟩ := Option.bind_eq_some_iff.mp h
      obtain ⟨-, rfl⟩ := Prod.mk.inj (Option.some.inj h)
      simp
  | syscall =>
      obtain ⟨ctr, -, h⟩ := Option.bind_eq_some_iff.mp h
      obtain ⟨-, rfl⟩ := Prod.mk.inj (Option.some.inj h)
      simp
  | ret =>
      obtain ⟨-, rfl⟩ := Prod.mk.inj (Option.some.inj h)
      simp
  | branch target =>
      have hpair : (r.push .branch).passBranch addr ilen target = (r', out) := Option.some.inj h
      unfold Rec.passBranch at hpair
      dsimp only at hpair
      split at hpair
      all_goals
        obtain ⟨-, rfl⟩ := Prod.mk.inj hpair
        simp
  | plain =>
      obtain ⟨-, rfl⟩ := Prod.mk.inj (Option.some.inj h)
      simp

/-- Only the page of a touched address is asked for. -/
theorem aligned_of_map {r r' : Rec} {c : Callback} {out : List Command} {page : UInt64}
    (h : r.step c = some (r', out)) (hmap : .map page ∈ out) : PageAligned page := by
  cases c with
  | unmapped fetch addr mapOk =>
      have heq : r.unmappedHook fetch addr mapOk = (r', out) := Option.some.inj h
      have hout : out = [.refuse] ∨ out = [.map (pageOf addr)] := by
        unfold Rec.unmappedHook at heq
        split_ifs at heq
        all_goals
          obtain ⟨-, rfl⟩ := Prod.mk.inj heq
          simp
      rcases hout with rfl | rfl
      · simp at hmap
      · rw [List.mem_singleton, Command.map.injEq] at hmap
        rw [hmap]
        exact pageAligned_pageOf addr
  | read addr =>
      obtain ⟨n, -, h⟩ := Option.bind_eq_some_iff.mp h
      dsimp only at h
      split at h
      all_goals
        obtain ⟨-, rfl⟩ := Prod.mk.inj (Option.some.inj h)
        simp at hmap
  | write addr size val =>
      obtain ⟨n, -, h⟩ := Option.bind_eq_some_iff.mp h
      dsimp only at h
      split at h
      all_goals
        obtain ⟨-, rfl⟩ := Prod.mk.inj (Option.some.inj h)
        simp at hmap
  | code addr kind ilen nr retval =>
      obtain ⟨instret, -, h⟩ := Option.bind_eq_some_iff.mp h
      obtain ⟨visits, -, h⟩ := Option.bind_eq_some_iff.mp h
      dsimp only at h
      split at h
      · obtain ⟨-, rfl⟩ := Prod.mk.inj (Option.some.inj h)
        simp at hmap
      · exact (notMem_map_of_steer h hmap).elim

theorem obey_spec {seed : UInt64} {commands : List Command}
    (hpages : ∀ page, .map page ∈ commands → PageAligned page) (s : e.State) :
    complete (e.read (commands.foldl (obey e seed) s)) (junkByte seed) =
      complete (e.read s) (junkByte seed) ∧
    ∃ fresh : Finset UInt64, fresh.card ≤ commands.countP Command.isMap ∧
      e.pages (commands.foldl (obey e seed) s) = e.pages s ∪ fresh := by
  induction commands generalizing s with
  | nil => exact ⟨rfl, ∅, by simp, by simp⟩
  | cons c commands ih =>
      obtain ⟨hview, fresh, hcard, hfresh⟩ :=
        ih (fun page hpage ↦ hpages page (List.mem_cons_of_mem c hpage)) (obey e seed s c)
      rw [List.foldl_cons]
      cases c with
      | map page =>
          obtain ⟨hview', fresh', hcard', hfresh'⟩ :=
            @pageIn_spec e seed page s (hpages page List.mem_cons_self)
          refine ⟨hview.trans hview', fresh' ∪ fresh, ?_, ?_⟩
          · have hunion := Finset.card_union_le fresh' fresh
            rw [List.countP_cons_of_pos rfl]
            omega
          · rw [hfresh, Finset.coe_union, ← Set.union_assoc]
            exact congrArg (· ∪ _) hfresh'
      | _ => exact ⟨hview, fresh, hcard, hfresh⟩

/-! ## Runs -/

theorem guestStep_cases {g g' : Guest e} {i : GuestEvent} {out : List GuestOutput}
    (h : guestStep e cs g i = some (g', out)) :
    (∃ c r' commands, (i = .callback c ∧ c.codeAddr = none ∨ ∃ addr nr retval,
        i = .code addr nr retval ∧ c = codeCallback cs (e.read g.engine) addr nr retval) ∧
      g.recorder.step c = some (r', commands) ∧
      g' = ⟨r', commands.foldl (obey e g.recorder.cfg.seed) g.engine⟩ ∧
      out = commands.map .command) ∨
    (∃ a v, i = .load a ∧ e.read g.engine a = some v ∧ g' = g ∧ out = [.loaded v]) ∨
    ∃ a v s, i = .store a v ∧ e.memWrite g.engine a [v] = .ok s ∧ g' = { g with engine := s } ∧
      out = [] := by
  cases i with
  | callback c =>
      obtain ⟨hhonest, h⟩ := Option.ite_none_right_eq_some.mp h
      obtain ⟨⟨r', commands⟩, hrec, heq⟩ := Option.map_eq_some_iff.mp h
      obtain ⟨rfl, rfl⟩ := Prod.mk.inj heq
      have hmemory : c.codeAddr = none := by
        cases c with
        | code addr kind ilen nr retval => cases hhonest
        | _ => rfl
      exact Or.inl ⟨c, r', commands, Or.inl ⟨rfl, hmemory⟩, hrec, rfl, rfl⟩
  | code addr nr retval =>
      obtain ⟨-, h⟩ := Option.ite_none_right_eq_some.mp h
      obtain ⟨⟨r', commands⟩, hrec, heq⟩ := Option.map_eq_some_iff.mp h
      obtain ⟨rfl, rfl⟩ := Prod.mk.inj heq
      exact Or.inl ⟨_, r', commands, Or.inr ⟨addr, nr, retval, rfl, rfl⟩, hrec, rfl, rfl⟩
  | load a =>
      obtain ⟨v, hread, heq⟩ := Option.map_eq_some_iff.mp h
      obtain ⟨rfl, rfl⟩ := Prod.mk.inj heq
      exact Or.inr (Or.inl ⟨a, v, rfl, hread, rfl, rfl⟩)
  | store a v =>
      obtain ⟨s, hwrite, heq⟩ := Option.map_eq_some_iff.mp h
      obtain ⟨rfl, rfl⟩ := Prod.mk.inj heq
      exact Or.inr (Or.inr ⟨a, v, s, rfl, eq_ok_of_toOption hwrite, rfl, rfl⟩)

/-- A window in mapped pages is what a complete memory has there. -/
theorem codeWindow_complete {read : UInt64 → Option UInt8} {fill : UInt64 → UInt8} {addr : UInt64}
    (h : InView read addr) :
    codeWindow (fun a ↦ some (complete read fill a)) addr = codeWindow read addr := by
  rw [codeWindow, codeWindow, if_pos h, if_pos ⟨h.1, fun _ _ ↦ rfl⟩]
  congr 1
  funext i
  obtain ⟨v, hv⟩ := Option.isSome_iff_exists.mp (h.2 i i.isLt)
  rw [complete_of_some hv, hv, Option.getD_some]

/-- Every command to map a page was counted. -/
theorem mapCount_step {cfg : Config} {r r' : Rec} {c : Callback} {out : List Command}
    (h : r.Inv cfg) (hstep : r.step c = some (r', out)) :
    r'.Inv cfg ∧ r.mapCount + out.countP Command.isMap ≤ r'.mapCount := by
  have hcount : (List.replicate r.mapCount (Command.map 0)).countP Command.isMap = r.mapCount := by
    rw [List.countP_replicate]
    exact if_pos rfl
  obtain ⟨hinv, hmaps⟩ := Rec.bounded_step ⟨h, hcount.le⟩ hstep
  rw [List.countP_append, hcount] at hmaps
  exact ⟨hinv, hmaps⟩

/-- The recorders agree, and the paged memory, filled up, is the flat one. -/
structure Flattens (cfg : Config) (g : Guest e) (f : Rec × (UInt64 → UInt8)) : Prop where
  recorder : f.1 = g.recorder
  inv : g.recorder.Inv cfg
  memory : f.2 = complete (e.read g.engine) (junkByte cfg.seed)

theorem Flattens.step {cfg : Config} {g g' : Guest e} {f : Rec × (UInt64 → UInt8)}
    {i : GuestEvent} {out : List GuestOutput} (h : Flattens cfg g f) (hsighted : Sighted e g i)
    (hstep : guestStep e cs g i = some (g', out)) :
    ∃ f', flatStep cs f i = some (f', out) ∧ Flattens cfg g' f' := by
  obtain ⟨r, m⟩ := f
  obtain ⟨rfl, hinv, rfl⟩ := h
  rcases guestStep_cases hstep with ⟨c, r', commands, hi, hrec, rfl, rfl⟩ |
    ⟨a, v, rfl, hread, rfl, rfl⟩ | ⟨a, v, s, rfl, hwrite, rfl, rfl⟩
  · have hview := (@obey_spec e cfg.seed commands
      (fun page hpage ↦ aligned_of_map hrec hpage) g.engine).1
    refine ⟨(r', complete (e.read g.engine) (junkByte cfg.seed)), ?_,
      ⟨rfl, (mapCount_step hinv hrec).1, ?_⟩⟩
    · rcases hi with ⟨rfl, hmemory⟩ | ⟨addr, nr, retval, rfl, rfl⟩
      · rw [flatStep, if_pos hmemory, hrec, Option.map_some]
      · have hsame : codeCallback cs
            (fun a ↦ some (complete (e.read g.engine) (junkByte cfg.seed) a)) addr nr retval =
              codeCallback cs (e.read g.engine) addr nr retval := by
          rw [codeCallback, codeCallback, codeWindow_complete hsighted]
        rw [flatStep, hsame, hrec, Option.map_some]
    · rw [hinv.cfg_eq]
      exact hview.symm
  · refine ⟨(g'.recorder, complete (e.read g'.engine) (junkByte cfg.seed)), ?_, ⟨rfl, hinv, rfl⟩⟩
    change some (_, [GuestOutput.loaded (complete (e.read g'.engine) (junkByte cfg.seed) a)]) = _
    rw [complete_of_some hread]
  · refine ⟨_, rfl, ⟨rfl, hinv, ?_⟩⟩
    rw [e.read_memWrite hwrite, complete_onto]

/-- The pages of a run: those of the setup, and one at most for each counted. -/
structure Paged (cfg : Config) (first : Finset UInt64) (g : Guest e) : Prop where
  inv : g.recorder.Inv cfg
  pages : ∃ fresh : Finset UInt64, fresh.card ≤ g.recorder.mapCount ∧
    e.pages g.engine = ↑first ∪ ↑fresh

theorem Paged.step {cfg : Config} {first : Finset UInt64} {g g' : Guest e} {i : GuestEvent}
    {out : List GuestOutput} (h : Paged cfg first g)
    (hstep : guestStep e cs g i = some (g', out)) : Paged cfg first g' := by
  obtain ⟨hinv, fresh, hcard, hpages⟩ := h
  rcases guestStep_cases hstep with ⟨c, r', commands, -, hrec, rfl, rfl⟩ |
    ⟨a, v, rfl, hread, rfl, rfl⟩ | ⟨a, v, s, rfl, hwrite, rfl, rfl⟩
  · obtain ⟨hinv', hmaps⟩ := mapCount_step hinv hrec
    obtain ⟨-, fresh', hcard', hpages'⟩ := @obey_spec e g.recorder.cfg.seed commands
      (fun page hpage ↦ aligned_of_map hrec hpage) g.engine
    refine ⟨hinv', fresh ∪ fresh', ?_, ?_⟩
    · have hunion := Finset.card_union_le fresh fresh'
      dsimp only
      omega
    · rw [hpages', hpages, Finset.coe_union, Set.union_assoc]
  · exact ⟨hinv, fresh, hcard, hpages⟩
  · exact ⟨hinv, fresh, hcard, (e.pages_memWrite hwrite).trans hpages⟩

theorem guestStep_pages {g g' : Guest e} {i : GuestEvent} {out : List GuestOutput}
    (h : guestStep e cs g i = some (g', out)) : e.pages g.engine ⊆ e.pages g'.engine := by
  rcases guestStep_cases h with ⟨c, r', commands, -, hrec, rfl, rfl⟩ |
    ⟨a, v, rfl, -, rfl, rfl⟩ | ⟨a, v, s, rfl, hwrite, rfl, rfl⟩
  · obtain ⟨-, fresh, -, hpages⟩ := @obey_spec e g.recorder.cfg.seed commands
      (fun page hpage ↦ aligned_of_map hrec hpage) g.engine
    rw [hpages]
    exact Set.subset_union_left
  · exact subset_rfl
  · exact (e.pages_memWrite hwrite).ge

/-- What is mapped stays mapped, so a run whose code lies inside pages that are
mapped when it starts reads mapped pages only. -/
theorem sighted_of_mapped {g : Guest e} {events : List GuestEvent}
    (h : ∀ addr nr retval, .code addr nr retval ∈ events → addr.toNat + 16 ≤ 2 ^ 64 ∧
      ∀ i < 16, pageOf (addr + UInt64.ofNat i) ∈ e.pages g.engine) :
    Machine.Along (guestStep e cs) (Sighted e) g events := by
  refine @Machine.along_of_preserved _ _ _ (guestStep e cs) (Sighted e)
    (fun g' ↦ e.pages g.engine ⊆ e.pages g'.engine)
    (fun _ _ _ _ hgrown hstep ↦ hgrown.trans (guestStep_pages hstep)) g events ?_ subset_rfl
  intro g' hgrown i hi
  cases i with
  | code addr nr retval =>
      obtain ⟨hfit, hin⟩ := h addr nr retval hi
      exact ⟨hfit, fun i hi ↦ e.isSome_read.mpr (hgrown (hin i hi))⟩
  | callback c => trivial
  | load a => trivial
  | store a v => trivial

/-- A run over memory that is paged in around it, whose code hook reads mapped
pages only, is the same run over the complete initial memory: the same callbacks,
instructions, commands and loaded bytes, and in the end the same bytes, with junk
where nothing was paged in.  No more pages come in than the run may map. -/
theorem guest_memory_flat (e : MemEngine) (cs : Option Disasm) {s : e.State}
    (hs : e.pages s = ∅) (cfg : Config) (image : Image) (func : Func)
    (symbols : KeyMap.Map UInt64 String) (force : List Bool)
    {st : Setup e.toEngine} (hsetup : setupMemory e cfg.seed image s = .ok st)
    {events : List GuestEvent} {g : Guest e} {out : List GuestOutput}
    (hsighted : Machine.Along (guestStep e cs) (Sighted e)
      ⟨Rec.start cfg image func symbols force, st.engine⟩ events)
    (h : Machine.run (guestStep e cs) ⟨Rec.start cfg image func symbols force, st.engine⟩ events =
      some (g, out)) :
    (∃ m, Machine.run (flatStep cs)
        (Rec.start cfg image func symbols force, initialMemory cfg.seed image) events =
          some ((g.recorder, m), out) ∧
      ∀ a, e.read g.engine a = some (m a) ∨
        e.read g.engine a = none ∧ m a = junkByte cfg.seed a) ∧
    ∃ fresh : Finset UInt64, fresh.card ≤ maxRuntimeMaps ∧
      e.pages g.engine = ↑(setupPages image) ∪ ↑fresh := by
  obtain ⟨hpages, hmemory⟩ := complete_setupMemory hs hsetup
  have hinv := Rec.inv_start cfg image func symbols force
  constructor
  · have hstart : Flattens cfg
        (⟨Rec.start cfg image func symbols force, st.engine⟩ : Guest e)
        (Rec.start cfg image func symbols force, initialMemory cfg.seed image) :=
      ⟨rfl, hinv, hmemory.symm⟩
    have hsim : ∀ (g : Guest e) f i g' out, Flattens cfg g f → Sighted e g i →
        guestStep e cs g i = some (g', out) →
        ∃ f', flatStep cs f i = some (f', out) ∧ Flattens cfg g' f' :=
      fun _ _ _ _ _ hflat hsees hstep ↦ hflat.step hsees hstep
    obtain ⟨⟨r, m⟩, hrun, hflat⟩ := Machine.run_simulates hsim hstart hsighted h
    obtain ⟨hr, -, hm⟩ := hflat
    dsimp only at hr hm
    subst hr hm
    refine ⟨_, hrun, fun a ↦ ?_⟩
    cases hread : e.read g.engine a with
    | none => exact Or.inr ⟨rfl, complete_of_none hread⟩
    | some v => exact Or.inl (congrArg some (complete_of_some hread).symm)
  · have hstart : Paged cfg (setupPages image)
        (⟨Rec.start cfg image func symbols force, st.engine⟩ : Guest e) :=
      ⟨hinv, ∅, by simp, by rw [hpages]; simp⟩
    obtain ⟨hinv', fresh, hcard, hfresh⟩ :=
      Machine.run_preserves (fun _ _ _ _ hpaged hstep ↦ Paged.step hpaged hstep) hstart h
    exact ⟨fresh, hcard.trans hinv'.maps, hfresh⟩

/-! ## At the end of a page -/

/-- The bytes of a return. -/
def retWord : List UInt8 := [0xc0, 0x03, 0x5f, 0xd6]

/-- A load of four bytes from far below it, and a return. -/
def loadCode : List UInt8 := [0x80, 0x00, 0x80, 0x18] ++ retWord

/-- A load and a return at the start of a page, and a return at its end, with
nothing after it. -/
def pageEndImage : Image :=
  ⟨[⟨0x401000, loadCode, true, true⟩, ⟨0x401ffc, retWord, true, true⟩], 0x401000, false, .aarch64⟩

def pageEndFunc : Func := ⟨none, 0x401000, 4096, .symtab⟩

theorem exists_setup_pageEnd (seed : UInt64) : ∃ st,
    setupMemory tableMem seed pageEndImage emptyMem = .ok st := by
  have hrest : ∀ st : Setup tableMem.toEngine, Steady st →
      ∃ st', ((List.range nargs).map SetupRegion.argBuffer ++ [SetupRegion.stack]).foldlM
        (setRegion tableMem seed) st = .ok st' :=
    fun st hst ↦ exists_setup_argBuffers tableMem_exact seed (fun k hk ↦ List.mem_range.mp hk) hst
  have hplaced : ∀ t ∈ pageEndImage.segments, t.Placed := by
    simp only [pageEndImage, Segment.Placed]
    decide
  exact exists_setup_segments tableMem_exact seed hrest (by decide) (by decide) hplaced
    (steady_fresh pages_emptyMem) fun t _ q hq ↦ (Finset.notMem_empty q hq).elim

theorem setupPages_pageEnd :
    (0x401000 : UInt64) ∈ setupPages pageEndImage ∧ (0x402000 : UInt64) ∉ setupPages pageEndImage ∧
      (0x301000 : UInt64) ∉ setupPages pageEndImage := by
  simp only [setupPages, List.mem_toFinset]
  decide

theorem window_eq_none {addr a : UInt64} {bytes : List UInt8} (h : ¬addr ≤ a) :
    window addr bytes a = none := if_neg h

/-- The code of both segments is in the initial memory; the buffers and the
stack lie above it. -/
theorem initialMemory_pageEnd (seed : UInt64) :
    (∀ i < 8, initialMemory seed pageEndImage (0x401000 + UInt64.ofNat i) = loadCode.getD i 0) ∧
      ∀ i < 4, initialMemory seed pageEndImage (0x401ffc + UInt64.ofNat i) = retWord.getD i 0 := by
  have hrest : ∀ a, (∀ k < nargs, ¬argBase k ≤ a) → ¬rsp0 ≤ a →
      ((List.range nargs).map SetupRegion.argBuffer ++ [SetupRegion.stack]).reverse.findSome?
        (fun r ↦ window (r.contents seed).1 (r.contents seed).2 a) = none := by
    intro a hargs hstack
    rw [List.findSome?_eq_none_iff]
    intro r hr
    rw [List.mem_reverse, List.mem_append, List.mem_singleton, List.mem_map] at hr
    rcases hr with ⟨k, hk, rfl⟩ | rfl
    · exact window_eq_none (hargs k (List.mem_range.mp hk))
    · exact window_eq_none hstack
  have hbelow : ∀ i < 8, (∀ k < nargs, ¬argBase k ≤ 0x401000 + UInt64.ofNat i) ∧
      ¬rsp0 ≤ 0x401000 + UInt64.ofNat i := by decide
  have hbelow' : ∀ i < 4, (∀ k < nargs, ¬argBase k ≤ 0x401ffc + UInt64.ofNat i) ∧
      ¬rsp0 ≤ 0x401ffc + UInt64.ofNat i := by decide
  have hfirst : ∀ i < 8, window 0x401ffc retWord (0x401000 + UInt64.ofNat i) = none ∧
      window 0x401000 loadCode (0x401000 + UInt64.ofNat i) = some (loadCode.getD i 0) := by decide
  have hlast : ∀ i < 4, window 0x401ffc retWord (0x401ffc + UInt64.ofNat i) =
      some (retWord.getD i 0) := by decide
  constructor
  all_goals
    intro i hi
    refine complete_of_some ?_
    rw [setupByte, regions, List.reverse_append, List.findSome?_append]
  · rw [hrest _ (hbelow i hi).1 (hbelow i hi).2, Option.none_or]
    simp [pageEndImage, SetupRegion.contents, hfirst i hi]
  · rw [hrest _ (hbelow' i hi).1 (hbelow' i hi).2, Option.none_or]
    simp [pageEndImage, SetupRegion.contents, hlast i hi]

/-- The hook makes out the word it finds. -/
theorem decode_word {read : UInt64 → Option UInt8} {addr : UInt64} {word : List UInt8}
    (hview : InView read addr)
    (hword : ∀ i < 4, read (addr + UInt64.ofNat i) = some (word.getD i 0)) :
    decode none addr (codeWindow read addr) = (a64Kind addr (le32 word), 4) := by
  have hbytes : ∀ i < 4, (codeWindow read addr).toList[i]? = some (word.getD i 0) := by
    intro i hi
    have hfit : i < 16 := by omega
    simp [codeWindow, if_pos hview, hfit, hword i hi]
  have hfound : wordAt (codeWindow read addr).toList 0 = some (le32 word) := by
    simp only [wordAt, hbytes 0 (by decide), hbytes 1 (by decide), hbytes 2 (by decide),
      hbytes 3 (by decide)]
    rfl
  simp only [decode, decodeA64, hfound]

theorem a64Kind_ret (addr : UInt64) : a64Kind addr (le32 retWord) = .ret := by
  have hret : isBl (le32 retWord) = false ∧ isBlr (le32 retWord) = false ∧
      isRet (le32 retWord) = true := by decide
  simp [a64Kind, hret]

/-- The hook takes the return at the end of the last mapped page for a plain
instruction, where a complete memory has a return: the recorder tells the two
memories apart. -/
theorem blind_at_pageEnd {s : e.State} (hs : e.pages s = ∅) {seed : UInt64}
    {st : Setup e.toEngine} (hsetup : setupMemory e seed pageEndImage s = .ok st) :
    decode none 0x401ffc (codeWindow (e.read st.engine) 0x401ffc) = (.plain, 4) ∧
      decode none 0x401ffc
        (codeWindow (fun a ↦ some (initialMemory seed pageEndImage a)) 0x401ffc) = (.ret, 4) := by
  constructor
  · have hnone : e.read st.engine (0x401ffc + UInt64.ofNat 4) = none := by
      refine e.read_eq_none ?_
      rw [(complete_setupMemory hs hsetup).1]
      exact setupPages_pageEnd.2.1
    have hblind : ¬InView (e.read st.engine) 0x401ffc := by
      intro h
      have hsome := h.2 4 (by decide)
      rw [hnone] at hsome
      cases hsome
    rw [codeWindow, if_neg hblind]
    decide
  · rw [← a64Kind_ret 0x401ffc]
    refine decode_word ⟨by decide, fun _ _ ↦ rfl⟩ fun i hi ↦ ?_
    rw [(initialMemory_pageEnd seed).2 i hi]

/-! ## A run -/

/-- The word that the load finds in the junk of a seed. -/
def loadedWord (seed : UInt64) : UInt64 :=
  (le32 ((List.range 4).map fun i ↦ junkByte seed (0x301010 + UInt64.ofNat i))).toUInt64

/-- The load touches a page that is not mapped and reads it, and the function
returns what it read. -/
def pageEndRun (seed : UInt64) : List GuestEvent :=
  [.code 0x401000 0 (argBase 0), .callback (.read 0x301010),
    .callback (.unmapped false 0x301010 true), .load 0x301010, .load 0x301011, .load 0x301012,
    .load 0x301013, .code 0x401004 0 (loadedWord seed)]

/-- The hook's windows at the load and at the return lie in the page of the code. -/
theorem pageOf_pageEnd {addr : UInt64} (haddr : addr = 0x401000 ∨ addr = 0x401004) :
    addr.toNat + 16 ≤ 2 ^ 64 ∧ ∀ i < 16, pageOf (addr + UInt64.ofNat i) = 0x401000 := by
  rcases haddr with rfl | rfl
  · exact ⟨by decide, by decide⟩
  · exact ⟨by decide, by decide⟩

/-- As long as the page of the code is mapped, the hook makes out the load and
the return. -/
theorem codeCallback_pageEnd {s : e.State} {seed : UInt64} (hpage : 0x401000 ∈ e.pages s)
    (hmemory : complete (e.read s) (junkByte seed) = initialMemory seed pageEndImage)
    (nr : UInt32) (retval : UInt64) :
    codeCallback none (e.read s) 0x401000 nr retval = .code 0x401000 .plain 4 nr retval ∧
      codeCallback none (e.read s) 0x401004 nr retval = .code 0x401004 .ret 4 nr retval := by
  have hread : ∀ i < 8, e.read s (0x401000 + UInt64.ofNat i) = some (loadCode.getD i 0) := by
    intro i hi
    have hsame := (pageOf_pageEnd (Or.inl rfl)).2 i (by omega)
    obtain ⟨v, hv⟩ := Option.isSome_iff_exists.mp (e.isSome_read.mpr (hsame.symm ▸ hpage))
    rw [hv, ← (initialMemory_pageEnd seed).1 i hi, ← hmemory, complete_of_some hv]
  have hview : ∀ addr : UInt64, addr = 0x401000 ∨ addr = 0x401004 → InView (e.read s) addr := by
    intro addr haddr
    obtain ⟨hfit, hin⟩ := pageOf_pageEnd haddr
    exact ⟨hfit, fun i hi ↦ e.isSome_read.mpr ((hin i hi).symm ▸ hpage)⟩
  constructor
  · have hplain : a64Kind 0x401000 (le32 loadCode) = .plain := by decide
    have hdecode := @decode_word (e.read s) 0x401000 loadCode (hview _ (by simp))
      fun i hi ↦ hread i (by omega)
    rw [codeCallback, hdecode, hplain]
  · have hdecode := @decode_word (e.read s) 0x401004 retWord (hview _ (by simp)) fun i hi ↦ by
      have hsum : ∀ i < 4, (0x401004 : UInt64) + UInt64.ofNat i =
          0x401000 + UInt64.ofNat (4 + i) ∧ loadCode.getD (4 + i) 0 = retWord.getD i 0 := by decide
      rw [(hsum i hi).1, hread (4 + i) (by omega), (hsum i hi).2]
    rw [codeCallback, hdecode, a64Kind_ret]

theorem guestStep_callback {g : Guest e} {c : Callback} {r : Rec} {commands : List Command}
    (hhonest : honest e g.engine c = true) (hstep : g.recorder.step c = some (r, commands)) :
    guestStep e cs g (.callback c) =
      some (⟨r, commands.foldl (obey e g.recorder.cfg.seed) g.engine⟩,
        commands.map .command) := by
  rw [guestStep, if_pos hhonest, hstep, Option.map_some]

theorem guestStep_code {g : Guest e} {addr : UInt64} {nr : UInt32} {retval : UInt64} {r : Rec}
    {commands : List Command} (hmapped : (e.read g.engine addr).isSome = true)
    (hstep : g.recorder.step (codeCallback cs (e.read g.engine) addr nr retval) =
      some (r, commands)) :
    guestStep e cs g (.code addr nr retval) =
      some (⟨r, commands.foldl (obey e g.recorder.cfg.seed) g.engine⟩,
        commands.map .command) := by
  rw [guestStep, if_pos hmapped, hstep, Option.map_some]

theorem guestStep_load {g : Guest e} {a : UInt64} {v : UInt8} (h : e.read g.engine a = some v) :
    guestStep e cs g (.load a) = some (g, [.loaded v]) := by
  rw [guestStep, h, Option.map_some]

theorem exists_run_loads {g : Guest e} {as : List UInt64} {events : List GuestEvent}
    (has : ∀ a ∈ as, pageOf a ∈ e.pages g.engine)
    (h : ∃ g' out, Machine.run (guestStep e cs) g events = some (g', out)) :
    ∃ g' out, Machine.run (guestStep e cs) g (as.map .load ++ events) = some (g', out) := by
  induction as with
  | nil => exact h
  | cons a as ih =>
      obtain ⟨v, hv⟩ :=
        Option.isSome_iff_exists.mp (e.isSome_read.mpr (has a List.mem_cons_self))
      exact Machine.exists_run_cons (guestStep_load hv)
        (ih fun b hb ↦ has b (List.mem_cons_of_mem a hb))

theorem exists_pageEndRun (he : e.Exact) {s : e.State} (hs : e.pages s = ∅)
    {st : Setup e.toEngine} (hst : setupMemory e Config.default.seed pageEndImage s = .ok st) :
    ∃ g out, Machine.run (guestStep e none)
      ⟨Rec.start Config.default pageEndImage pageEndFunc ∅ [], st.engine⟩
      (pageEndRun Config.default.seed) = some (g, out) := by
  obtain ⟨hpages, hmemory⟩ := complete_setupMemory hs hst
  generalize hv : loadedWord Config.default.seed = v
  obtain ⟨r₁, hr₁, r₂, hr₂, r₃, hr₃, r₄, hr₄⟩ :
      ∃ r₁, (Rec.start Config.default pageEndImage pageEndFunc ∅ []).step
          (.code 0x401000 .plain 4 0 (argBase 0)) = some (r₁, []) ∧
        ∃ r₂, r₁.step (.read 0x301010) = some (r₂, []) ∧
          ∃ r₃, r₂.step (.unmapped false 0x301010 true) = some (r₃, [.map 0x301000]) ∧
            ∃ r₄, r₃.step (.code 0x401004 .ret 4 0 v) = some (r₄, []) :=
    ⟨_, rfl, _, rfl, _, rfl, _, rfl⟩
  have hcode : (0x401000 : UInt64) ∈ e.pages st.engine := hpages ▸ setupPages_pageEnd.1
  have hal : PageAligned 0x301000 := by decide
  have hfree : Disjoint (e.pages st.engine) (requested 0x301000 pageSize) := by
    rw [hpages, requested_page hal, Set.disjoint_singleton_right, Finset.mem_coe]
    exact setupPages_pageEnd.2.2
  obtain ⟨s₁, hmap⟩ := (he st.engine 0x301000 pageSize hal (by decide) (by decide)
    (by decide)).mpr hfree
  have hpage : pageOf 0x301010 = 0x301000 := by decide
  have hhonest : honest e st.engine (.unmapped false 0x301010 true) = true := by
    rw [honest, hpage, hmap]
    rfl
  have hseed : r₂.cfg.seed = Config.default.seed := by
    have hinv := Rec.inv_start Config.default pageEndImage pageEndFunc ∅ []
    rw [(mapCount_step (mapCount_step hinv hr₁).1 hr₂).1.cfg_eq]
  obtain ⟨hview, hgrown⟩ := @pageIn_ok e r₂.cfg.seed 0x301000 st.engine s₁ hal hmap
  have hfirst := @guestStep_code e none
    ⟨Rec.start Config.default pageEndImage pageEndFunc ∅ [], st.engine⟩ 0x401000 0 (argBase 0) r₁ []
    (e.isSome_read.mpr hcode) ((codeCallback_pageEnd hcode hmemory 0 (argBase 0)).1 ▸ hr₁)
  have hsecond := @guestStep_callback e none ⟨r₁, st.engine⟩ _ r₂ _ rfl hr₂
  have hthird := @guestStep_callback e none ⟨r₂, st.engine⟩ _ r₃ _ hhonest hr₃
  rw [List.foldl_cons, List.foldl_nil, obey, hseed] at hthird
  rw [hseed, hmemory] at hview
  rw [hseed] at hgrown
  generalize pageIn e _ st.engine 0x301000 = t at hthird hview hgrown
  have hcode' : (0x401000 : UInt64) ∈ e.pages t := hgrown ▸ Or.inl hcode
  have hlast := @guestStep_code e none ⟨r₃, t⟩ 0x401004 0 v r₄ []
    (e.isSome_read.mpr hcode') ((codeCallback_pageEnd hcode' hview 0 v).2 ▸ hr₄)
  have hloads : ∀ a ∈ [(0x301010 : UInt64), 0x301011, 0x301012, 0x301013],
      pageOf a ∈ e.pages t := by
    intro a ha
    simp only [List.mem_cons, List.not_mem_nil, or_false] at ha
    rw [hgrown]
    refine Or.inr (Set.mem_singleton_iff.mpr ?_)
    rcases ha with rfl | rfl | rfl | rfl
    all_goals decide
  have hrun := exists_run_loads hloads (Machine.exists_run_cons hlast ⟨_, _, Machine.run_nil _⟩)
  rw [pageEndRun, hv]
  exact Machine.exists_run_cons hfirst (Machine.exists_run_cons hsecond
    (Machine.exists_run_cons hthird hrun))

theorem guest_memory_flat_pageEnd : ∃ st, ∃ (g : Guest tableMem) (out : List GuestOutput),
    setupMemory tableMem Config.default.seed pageEndImage emptyMem = .ok st ∧
    Machine.run (guestStep tableMem none)
      ⟨Rec.start Config.default pageEndImage pageEndFunc ∅ [], st.engine⟩
      (pageEndRun Config.default.seed) = some (g, out) ∧
    (∃ m, Machine.run (flatStep none)
        (Rec.start Config.default pageEndImage pageEndFunc ∅ [],
          initialMemory Config.default.seed pageEndImage) (pageEndRun Config.default.seed) =
          some ((g.recorder, m), out) ∧
      ∀ a, tableMem.read g.engine a = some (m a) ∨
        tableMem.read g.engine a = none ∧ m a = junkByte Config.default.seed a) ∧
    ∃ fresh : Finset UInt64, fresh.card ≤ maxRuntimeMaps ∧
      tableMem.pages g.engine = ↑(setupPages pageEndImage) ∪ ↑fresh := by
  obtain ⟨st, hst⟩ := exists_setup_pageEnd Config.default.seed
  obtain ⟨g, out, hrun⟩ := exists_pageEndRun tableMem_exact pages_emptyMem hst
  have hpage : (0x401000 : UInt64) ∈ tableMem.pages st.engine :=
    (complete_setupMemory pages_emptyMem hst).1 ▸ setupPages_pageEnd.1
  have hinside : ∀ addr nr retval, .code addr nr retval ∈ pageEndRun Config.default.seed →
      addr.toNat + 16 ≤ 2 ^ 64 ∧
        ∀ i < 16, pageOf (addr + UInt64.ofNat i) ∈ tableMem.pages st.engine := by
    intro addr nr retval hmem
    have haddr : addr = 0x401000 ∨ addr = 0x401004 := by
      simp only [pageEndRun, List.mem_cons, GuestEvent.code.injEq, reduceCtorEq, false_or,
        List.not_mem_nil, or_false] at hmem
      exact hmem.imp And.left And.left
    obtain ⟨hfit, hin⟩ := pageOf_pageEnd haddr
    exact ⟨hfit, fun i hi ↦ (hin i hi).symm ▸ hpage⟩
  exact ⟨st, g, out, hst, hrun, guest_memory_flat tableMem none pages_emptyMem Config.default
    pageEndImage pageEndFunc ∅ [] hst (sighted_of_mapped hinside) hrun⟩

/-! ## Words of junk -/

theorem splitmix_injective : Function.Injective splitmix := by
  have hfirst := Scramble.xorShift_injective (s := 30) (by decide)
  have hsecond := Scramble.xorShift_injective (s := 27) (by decide)
  have hthird := Scramble.xorShift_injective (s := 31) (by decide)
  have hmul := Scramble.mul_odd_injective (a := 0xbf58476d1ce4e5b9) (by decide)
  have hmul' := Scramble.mul_odd_injective (a := 0x94d049bb133111eb) (by decide)
  exact hthird.comp (hmul'.comp (hsecond.comp (hmul.comp hfirst)))

/-- Eight bytes of a memory, least significant first. -/
def readWord (m : UInt64 → UInt8) (a : UInt64) : UInt64 :=
  leWord ((List.range 8).map fun i ↦ m (a + UInt64.ofNat i))

theorem junkByte_word {a : UInt64} (seed : UInt64) (ha : a.toNat % 8 = 0) {i : ℕ} (hi : i < 8) :
    junkByte seed (a + UInt64.ofNat i) = (Fnv.leBytes (splitmix (a + seed * golden))).getD i 0 := by
  have hfit : a.toNat + i < 2 ^ 64 := by
    have hlt := a.toNat_lt
    omega
  have hmod : ((a + UInt64.ofNat i) % (8 : UInt64)).toNat = i := by
    rw [UInt64.toNat_mod, UInt64.toNat_add, toNat_ofNat64 (by omega), Nat.mod_eq_of_lt hfit]
    change (a.toNat + i) % 8 = i
    omega
  have hzero : UInt64.ofNat (i / 8) <<< 3 = 0 := by
    rw [Nat.div_eq_of_lt hi]
    rfl
  rw [junkByte, hmod, word_base ha hfit, hzero, UInt64.add_zero]

theorem pageOf_add {a : UInt64} (ha : a.toNat % 8 = 0) {i : ℕ} (hi : i < 8) :
    pageOf (a + UInt64.ofNat i) = pageOf a := by
  have hlt := a.toNat_lt
  rw [← UInt64.toNat_inj, toNat_pageOf, toNat_pageOf, UInt64.toNat_add, toNat_ofNat64 (by omega),
    Nat.mod_eq_of_lt (by omega)]
  omega

/-- A word outside the pages of the setup. -/
theorem readWord_initialMemory {seed : UInt64} {image : Image} {s : e.State}
    (hs : e.pages s = ∅) {st : Setup e.toEngine} (h : setupMemory e seed image s = .ok st)
    {a : UInt64} (ha : a.toNat % 8 = 0) (hfree : pageOf a ∉ setupPages image) :
    readWord (initialMemory seed image) a = splitmix (a + seed * golden) := by
  obtain ⟨hpages, hmemory⟩ := complete_setupMemory hs h
  have hbyte : ∀ i < 8, initialMemory seed image (a + UInt64.ofNat i) =
      (Fnv.leBytes (splitmix (a + seed * golden))).getD i 0 := by
    intro i hi
    have hnone : e.read st.engine (a + UInt64.ofNat i) = none :=
      e.read_eq_none (by rw [hpages, pageOf_add ha hi]; exact hfree)
    rw [← hmemory, complete_of_none hnone, junkByte_word seed ha hi]
  have hbytes : ((List.range 8).map fun i ↦ initialMemory seed image (a + UInt64.ofNat i)) =
      Fnv.leBytes (splitmix (a + seed * golden)) := by
    apply List.ext_getElem?
    intro i
    by_cases hi : i < 8
    · rw [List.getElem?_map, List.getElem?_range hi, Option.map_some, hbyte i hi,
        getElem?_leBytes _ hi]
    · rw [List.getElem?_eq_none (by simpa using hi),
        List.getElem?_eq_none (by rw [length_leBytes]; omega)]
  rw [readWord, hbytes, leWord_leBytes]

/-- Two words of junk, of two runs or of one, are equal only where the seeds
make up for the addresses: within a run every word differs from every other,
and two seeds differ everywhere. -/
theorem junk_words_eq_iff (e : MemEngine) {s s' : e.State} (hs : e.pages s = ∅)
    (hs' : e.pages s' = ∅) {seed seed' : UInt64} {image : Image} {st st' : Setup e.toEngine}
    (h : setupMemory e seed image s = .ok st) (h' : setupMemory e seed' image s' = .ok st')
    {a b : UInt64} (ha : a.toNat % 8 = 0) (hb : b.toNat % 8 = 0)
    (hfree : pageOf a ∉ setupPages image) (hfree' : pageOf b ∉ setupPages image) :
    (readWord (initialMemory seed image) a = readWord (initialMemory seed' image) b ↔
      a + seed * golden = b + seed' * golden) ∧
    (seed = seed' → a ≠ b →
      readWord (initialMemory seed image) a ≠ readWord (initialMemory seed' image) b) ∧
    (seed ≠ seed' → a = b →
      readWord (initialMemory seed image) a ≠ readWord (initialMemory seed' image) b) := by
  have hiff : readWord (initialMemory seed image) a = readWord (initialMemory seed' image) b ↔
      a + seed * golden = b + seed' * golden := by
    rw [readWord_initialMemory hs h ha hfree, readWord_initialMemory hs' h' hb hfree']
    exact splitmix_injective.eq_iff
  refine ⟨hiff, ?_, ?_⟩
  · rintro rfl hne heq
    exact hne (Scramble.add_injective _ (hiff.mp heq))
  · rintro hne rfl heq
    have hsum := hiff.mp heq
    rw [UInt64.add_comm a, UInt64.add_comm a] at hsum
    exact hne (Scramble.mul_odd_injective (by decide) (Scramble.add_injective _ hsum))

theorem exists_setup_touches (seed : UInt64) : ∃ st,
    setupMemory tableMem seed touchesImage emptyMem = .ok st :=
  exists_setup_argBuffers tableMem_exact seed (fun _ hk ↦ List.mem_range.mp hk)
    (steady_fresh pages_emptyMem)

theorem notMem_setupPages_touches : (0x5000 : UInt64) ∉ setupPages touchesImage := by
  rw [setupPages, List.mem_toFinset]
  decide

theorem junk_words_eq_iff_touches : ∃ st st' : Setup tableMem.toEngine,
    setupMemory tableMem 0 touchesImage emptyMem = .ok st ∧
    setupMemory tableMem 0xdeadbeef touchesImage emptyMem = .ok st' ∧
    (readWord (initialMemory 0 touchesImage) 0x5000 =
        readWord (initialMemory 0xdeadbeef touchesImage) 0x5008 ↔
      0x5000 + 0 * golden = 0x5008 + 0xdeadbeef * golden) ∧
    ((0 : UInt64) = 0xdeadbeef → (0x5000 : UInt64) ≠ 0x5008 →
      readWord (initialMemory 0 touchesImage) 0x5000 ≠
        readWord (initialMemory 0xdeadbeef touchesImage) 0x5008) ∧
    ((0 : UInt64) ≠ 0xdeadbeef → (0x5000 : UInt64) = 0x5008 →
      readWord (initialMemory 0 touchesImage) 0x5000 ≠
        readWord (initialMemory 0xdeadbeef touchesImage) 0x5008) := by
  obtain ⟨st, hst⟩ := exists_setup_touches 0
  obtain ⟨st', hst'⟩ := exists_setup_touches 0xdeadbeef
  exact ⟨st, st', hst, hst', junk_words_eq_iff tableMem pages_emptyMem pages_emptyMem hst hst'
    (by decide) (by decide) notMem_setupPages_touches notMem_setupPages_touches⟩

end Fnprint
