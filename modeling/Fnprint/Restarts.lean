import Fnprint.Lib.Frontier
import Fnprint.Executed
import Fnprint.InsnStarts

/-!
# Blanket restarts

A seed restarts at the first instruction start outside the covered map, and
every restart adds where it was made: by what ran from there, or by a mark.  So
the restarts of a seed increase and there are at most as many of them as
starts.  What the natural run and the restarts executed is in the map, so no
restart repeats it.  What a forced run executed is not: its map is dropped.
-/

namespace Fnprint

open KeyMap Checked Binary32

/-! ## The runs of a seed -/

/-- A restart: where, what was covered before, and the run if it does not abort. -/
structure Restart where
  start : UInt64
  covered : Map UInt64 UInt64
  run : Option RunOut

/-- The runs of a seed: the natural one, those with a branch forced, the restarts. -/
structure SeedRuns where
  base : RunOut
  forced : List RunOut
  restarts : List Restart

section Runs

variable (emulate : Emulate) (image : Image) (func : Func) (symbols : Map UInt64 String)

/-- The restarts that `blanket` makes, whether or not a run of theirs aborts. -/
def restarts (cfg : Config) (starts : List UInt64) : ℕ → Map UInt64 UInt64 → List Restart
  | 0, _ => []
  | n + 1, covered =>
      match restartAt func starts covered with
      | some (some start) =>
          match runFrom emulate image func symbols cfg [] start with
          | some run =>
              ⟨start, covered, some run⟩ :: restarts cfg starts n (absorb covered start run.covered)
          | none => [⟨start, covered, none⟩]
      | _ => []

/-- The runs that `exploreSeed` makes. -/
def seedRuns (cfg : Config) (starts : List UInt64) (seed : UInt64) : Option SeedRuns := do
  let cfg := { cfg with seed := seed }
  let base ← runFrom emulate image func symbols cfg [] func.entry
  let forced ← (List.range (min base.dirs.length cfg.exploreDepth)).mapM fun i ↦
    runFrom emulate image func symbols cfg (forcePlan base.dirs i) func.entry
  return {
    base := base
    forced := forced
    restarts := restarts emulate image func symbols cfg starts cfg.blanketRestarts base.covered }

variable {emulate image func symbols}

/-- A trace of a restart: what survives of its run. -/
def Restart.Left (x : Explored) (s : Restart) : Prop :=
  ∃ run ∈ s.run, x.trace.effects = run.trace.effects.filter survives ∧
    x.trace.callees = run.trace.callees

theorem blanket_restarts {cfg : Config} {starts : List UInt64} {n : ℕ}
    {covered : Map UInt64 UInt64} {ran : List Ran} {out out' : List Explored}
    (h : blanket emulate image func symbols cfg starts n covered ran out = some out') :
    ∃ more, out' = out ++ more ∧
      List.Forall₂ Restart.Left more
        (restarts emulate image func symbols cfg starts n covered) := by
  induction n generalizing covered ran out with
  | zero =>
      rw [← Option.some.inj h]
      exact ⟨[], (List.append_nil out).symm, List.Forall₂.nil⟩
  | succ n ih =>
      obtain ⟨next, hnext, h⟩ := Option.bind_eq_some_iff.mp h
      rw [restarts, hnext]
      cases next with
      | none =>
          rw [← Option.some.inj h]
          exact ⟨[], (List.append_nil out).symm, List.Forall₂.nil⟩
      | some start =>
          obtain ⟨run, hrun, h⟩ := Option.bind_eq_some_iff.mp h
          obtain ⟨sum, -, h⟩ := Option.bind_eq_some_iff.mp h
          obtain ⟨more, hmore, hleft⟩ := ih h
          dsimp only
          rw [hrun]
          refine ⟨_ :: more, hmore.trans (List.append_assoc _ _ _), List.Forall₂.cons ?_ hleft⟩
          exact ⟨run, rfl, rfl, rfl⟩

/-- What a seed leaves behind, run by run. -/
theorem exploreSeed_runs {cfg : Config} {starts : List UInt64} {seed : UInt64}
    {out out' : List Explored}
    (h : exploreSeed emulate image func symbols cfg starts out seed = some out') :
    ∃ s more, seedRuns emulate image func symbols cfg starts seed = some s ∧
      out' = out ++ (s.base :: s.forced).map RunOut.explored ++ more ∧
        List.Forall₂ Restart.Left more s.restarts := by
  obtain ⟨base, hbase, h⟩ := Option.bind_eq_some_iff.mp h
  obtain ⟨forced, hforced, h⟩ := Option.bind_eq_some_iff.mp h
  obtain ⟨more, hmore, hleft⟩ := blanket_restarts h
  refine ⟨⟨base, forced, _⟩, more, ?_, hmore, hleft⟩
  rw [seedRuns]
  dsimp only
  rw [hbase, Option.bind_eq_bind, Option.bind_some, hforced]
  rfl

/-- Every seed of an exploration leaves its runs behind. -/
theorem explore_runs {capstone : Option Disasm} {cfg : Config} {seeds : List UInt64}
    {out : List Explored}
    (h : explore emulate image func symbols capstone cfg seeds = some out) :
    ∃ starts, restartStarts image func capstone cfg = some starts ∧ ∀ seed ∈ seeds,
      ∃ s front more back, seedRuns emulate image func symbols cfg starts seed = some s ∧
        out = front ++ (s.base :: s.forced).map RunOut.explored ++ more ++ back ∧
          List.Forall₂ Restart.Left more s.restarts := by
  obtain ⟨starts, hstarts, h⟩ := Option.bind_eq_some_iff.mp h
  refine ⟨starts, hstarts, ?_⟩
  have hruns : ∀ (l : List UInt64) (o : List Explored),
      l.foldlM (exploreSeed emulate image func symbols cfg starts) o = some out →
        o <+: out ∧ ∀ seed ∈ l, ∃ s front more back,
          seedRuns emulate image func symbols cfg starts seed = some s ∧
            out = front ++ (s.base :: s.forced).map RunOut.explored ++ more ++ back ∧
              List.Forall₂ Restart.Left more s.restarts := by
    intro l
    induction l with
    | nil =>
        intro o h
        rw [← Option.some.inj h]
        exact ⟨List.prefix_refl o, fun seed hseed ↦ absurd hseed List.not_mem_nil⟩
    | cons seed l ih =>
        intro o h
        rw [List.foldlM_cons] at h
        obtain ⟨o', ho', h⟩ := Option.bind_eq_some_iff.mp h
        obtain ⟨s, more, hs, rfl, hleft⟩ := exploreSeed_runs ho'
        obtain ⟨⟨back, hback⟩, hrest⟩ := ih _ h
        refine ⟨⟨_, by rw [← hback, List.append_assoc, List.append_assoc]⟩, ?_⟩
        exact List.forall_mem_cons.mpr ⟨⟨s, o, more, back, hs, hback.symm, hleft⟩, hrest⟩
  exact (hruns seeds [] h).2

end Runs

/-! ## What a restart adds -/

section Absorb

variable {covered more : Map UInt64 UInt64} {start a : UInt64}

theorem mem_absorb (h : a ∈ more ∨ a ∈ covered) : a ∈ absorb covered start more := by
  have hmerged : a ∈ more ∪ covered := AList.mem_union.mpr h
  unfold absorb
  dsimp only
  split
  · exact (AList.mem_insert _).mpr (Or.inr hmerged)
  · exact hmerged

/-- A restart is covered after it, by its run or by the mark. -/
theorem start_mem_absorb (h : start ∈ more ∨ ∀ b, b ∉ more) :
    start ∈ absorb covered start more := by
  rcases h with h | h
  · exact mem_absorb (Or.inl h)
  · have hsub : ∀ b ∈ more ∪ covered, b ∈ covered :=
      fun b hb ↦ (AList.mem_union.mp hb).resolve_left (h b)
    have hsame : (more ∪ covered).keys.length = covered.keys.length :=
      le_antisymm (length_keys_le hsub)
        (length_keys_le fun b hb ↦ AList.mem_union.mpr (Or.inr hb))
    rw [absorb, if_pos hsame]
    exact (AList.mem_insert _).mpr (Or.inl rfl)

theorem length_lt_absorb (h : start ∉ covered) :
    covered.keys.length < (absorb covered start more).keys.length := by
  have hsub : ∀ b ∈ covered, b ∈ more ∪ covered := fun b hb ↦ AList.mem_union.mpr (Or.inr hb)
  unfold absorb
  dsimp only
  split
  · refine length_keys_lt (fun b hb ↦ ?_) ((AList.mem_insert _).mpr (Or.inl rfl)) h
    exact (AList.mem_insert _).mpr (Or.inr (hsub b hb))
  · next hne => exact lt_of_le_of_ne (length_keys_le hsub) (Ne.symm hne)

end Absorb

/-! ## Progress -/

/-- A run executes the instruction at an address. -/
def RunOut.Executes (run : RunOut) (a : UInt64) : Prop := a ∈ run.ran.map Prod.fst

/-- The restarts behind a natural run increase along the start list.  Each runs
what neither that run nor a restart before it executed, and covers more. -/
structure Advances (starts : List UInt64) (base : RunOut) (restarts : List Restart) : Prop where
  increasing : (restarts.map Restart.start).Pairwise (· < ·)
  mem : ∀ x ∈ restarts, x.start ∈ starts
  fresh : ∀ x ∈ restarts, ¬base.Executes x.start
  fresh_later : restarts.Pairwise fun y x ↦ ∀ run ∈ y.run, ¬run.Executes x.start
  grows : ∀ x ∈ restarts, ∀ run ∈ x.run,
    (∀ a ∈ x.covered, a ∈ absorb x.covered x.start run.covered) ∧
      x.covered.keys.length < (absorb x.covered x.start run.covered).keys.length
  nodup : (restarts.map Restart.start).Nodup
  length_le : restarts.length ≤ starts.length

/-- No restart of a seed repeats what an earlier run of it executed. -/
structure Progress (starts : List UInt64) (s : SeedRuns) : Prop where
  advances : Advances starts s.base s.restarts
  unforced : ∀ x ∈ s.restarts, ∀ run ∈ s.forced, ¬run.Executes x.start

section Progress

variable {emulate : Emulate} {image : Image} {func : Func} {symbols : Map UInt64 String}
  {cfg : Config} {starts : List UInt64} {covered : Map UInt64 UInt64}

theorem Reported.start_covered {start : UInt64} {run : RunOut}
    (h : Reported func cfg start run) (hge : func.entry ≤ start)
    (hlt : start < satAdd64 func.entry func.size) :
    start ∈ run.covered ∨ ∀ a, a ∉ run.covered := by
  cases hran : run.ran with
  | nil =>
      refine Or.inr fun a ha ↦ ?_
      have hmem := h.covered a ha
      rw [hran] at hmem
      exact absurd hmem List.not_mem_nil
  | cons i ran =>
      have hstart : i.1 = start := h.head i (by rw [hran]; rfl)
      rw [← hstart] at hge hlt ⊢
      exact Or.inl (h.executed i (by rw [hran]; exact List.mem_cons_self ..) hge hlt)

theorem Reported.covered_of_executes {start a : UInt64} {run : RunOut}
    (h : Reported func cfg start run) (ha : run.Executes a) (hge : func.entry ≤ a)
    (hlt : a < satAdd64 func.entry func.size) : a ∈ run.covered := by
  obtain ⟨i, hi, rfl⟩ := List.mem_map.mp ha
  exact h.executed i hi hge hlt

theorem isNext_restartAt (hstarts : starts.Pairwise (· < ·)) {start : UInt64}
    (h : restartAt func starts covered = some (some start)) :
    Frontier.IsNext starts {a | a ∈ covered} start := by
  obtain ⟨n, -, h⟩ := Option.bind_eq_some_iff.mp h
  split at h
  · cases h
  · refine Frontier.isNext_of_find? hstarts (fun b ↦ ?_) (Option.some.inj h)
    rw [← Option.not_isSome, Bool.not_eq_false', AList.lookup_isSome]
    rfl

/-- Restarts from a covered map on, each at the next start, the last maybe aborted. -/
inductive Restarting (func : Func) (cfg : Config) (starts : List UInt64) :
    Map UInt64 UInt64 → List Restart → Prop where
  | done (covered : Map UInt64 UInt64) : Restarting func cfg starts covered []
  | abort {covered : Map UInt64 UInt64} {start : UInt64}
      (hnext : Frontier.IsNext starts {a | a ∈ covered} start) :
      Restarting func cfg starts covered [⟨start, covered, none⟩]
  | step {covered : Map UInt64 UInt64} {start : UInt64} {run : RunOut} {rest : List Restart}
      (hnext : Frontier.IsNext starts {a | a ∈ covered} start)
      (hrun : Reported func cfg start run)
      (hrest : Restarting func cfg starts (absorb covered start run.covered) rest) :
      Restarting func cfg starts covered (⟨start, covered, some run⟩ :: rest)

theorem restarting_restarts (henter : EntersAtStart emulate)
    (hstarts : starts.Pairwise (· < ·)) (n : ℕ) (covered : Map UInt64 UInt64) :
    Restarting func cfg starts covered
      (restarts emulate image func symbols cfg starts n covered) := by
  induction n generalizing covered with
  | zero => exact Restarting.done covered
  | succ n ih =>
      unfold restarts
      split
      · next start hat =>
          have hnext := isNext_restartAt hstarts hat
          split
          · next run hrun =>
              exact Restarting.step hnext (reported_runFrom henter hrun) (ih _)
          · exact Restarting.abort hnext
      · exact Restarting.done covered

/-- Bodies that hold all of their instruction starts. -/
def Inside (func : Func) (starts : List UInt64) : Prop :=
  ∀ a ∈ starts, func.entry ≤ a ∧ a < satAdd64 func.entry func.size

namespace Restarting

variable {xs : List Restart}

theorem visits (h : Restarting func cfg starts covered xs) (hin : Inside func starts) :
    Frontier.Visits starts {a | a ∈ covered} (xs.map Restart.start) := by
  induction h with
  | done covered => exact Frontier.Visits.done _
  | @abort covered start hnext =>
      exact Frontier.Visits.step (t := {a | a ∈ covered ∨ a = start}) hnext
        (fun a ha ↦ Or.inl ha) (Or.inr rfl) (Frontier.Visits.done _)
  | step hnext hrun _ ih =>
      obtain ⟨hge, hlt⟩ := hin _ hnext.mem
      exact Frontier.Visits.step hnext (fun a ha ↦ mem_absorb (Or.inr ha))
        (start_mem_absorb (hrun.start_covered hge hlt)) ih

theorem covered_subset (h : Restarting func cfg starts covered xs) :
    ∀ x ∈ xs, ∀ a ∈ covered, a ∈ x.covered := by
  induction h with
  | done covered => exact fun x hx ↦ absurd hx List.not_mem_nil
  | abort hnext =>
      intro x hx a ha
      rwa [List.mem_singleton.mp hx]
  | step hnext hrun hrest ih =>
      intro x hx a ha
      rcases List.mem_cons.mp hx with rfl | hx
      · exact ha
      · exact ih x hx a (mem_absorb (Or.inr ha))

theorem notMem_covered (h : Restarting func cfg starts covered xs) :
    ∀ x ∈ xs, x.start ∈ starts ∧ x.start ∉ x.covered := by
  induction h with
  | done covered => exact fun x hx ↦ absurd hx List.not_mem_nil
  | abort hnext =>
      intro x hx
      rw [List.mem_singleton.mp hx]
      exact ⟨hnext.mem, hnext.notMem⟩
  | step hnext hrun hrest ih => exact List.forall_mem_cons.mpr ⟨⟨hnext.mem, hnext.notMem⟩, ih⟩

theorem executed_covered (h : Restarting func cfg starts covered xs) (hin : Inside func starts) :
    xs.Pairwise fun y x ↦ ∀ run ∈ y.run, ∀ a ∈ starts, run.Executes a → a ∈ x.covered := by
  induction h with
  | done covered => exact List.Pairwise.nil
  | abort hnext => exact List.pairwise_singleton _ _
  | step hnext hrun hrest ih =>
      refine List.pairwise_cons.mpr ⟨fun x hx run hrun' a ha hran ↦ ?_, ih⟩
      obtain rfl := Option.some.inj hrun'
      obtain ⟨hge, hlt⟩ := hin a ha
      exact hrest.covered_subset x hx a
        (mem_absorb (Or.inl (hrun.covered_of_executes hran hge hlt)))

theorem advances {start : UInt64} {base : RunOut}
    (h : Restarting func cfg starts base.covered xs) (hbase : Reported func cfg start base)
    (hin : Inside func starts) : Advances starts base xs := by
  have hvisits := h.visits hin
  have hstart := h.notMem_covered
  refine ⟨hvisits.pairwise_lt, fun x hx ↦ (hstart x hx).1, fun x hx hran ↦ ?_, ?_, ?_,
    hvisits.nodup, ?_⟩
  · obtain ⟨hmem, hout⟩ := hstart x hx
    obtain ⟨hge, hlt⟩ := hin _ hmem
    exact hout (h.covered_subset x hx _ (hbase.covered_of_executes hran hge hlt))
  · refine (h.executed_covered hin).imp_of_mem fun {y x} _ hx hcovered run hrun hran ↦ ?_
    obtain ⟨hmem, hout⟩ := hstart x hx
    exact hout (hcovered run hrun _ hmem hran)
  · intro x hx run _
    exact ⟨fun a ha ↦ mem_absorb (Or.inr ha), length_lt_absorb (hstart x hx).2⟩
  · rw [← List.length_map]
    exact hvisits.length_le

end Restarting

/-! ## Whole seeds -/

variable {seed : UInt64} {s : SeedRuns}

/-- The forced runs of a seed execute no start that the natural run does not. -/
def ForcedWithin (starts : List UInt64) (s : SeedRuns) : Prop :=
  ∀ run ∈ s.forced, ∀ a ∈ starts, run.Executes a → s.base.Executes a

theorem runs_of_seedRuns
    (h : seedRuns emulate image func symbols cfg starts seed = some s) :
    runFrom emulate image func symbols { cfg with seed := seed } [] func.entry = some s.base ∧
      (∀ run ∈ s.forced, s.base.dirs ≠ [] ∧ cfg.exploreDepth ≠ 0 ∧
        ∃ plan, runFrom emulate image func symbols { cfg with seed := seed } plan func.entry =
          some run) ∧
      s.restarts = restarts emulate image func symbols { cfg with seed := seed } starts
        cfg.blanketRestarts s.base.covered := by
  obtain ⟨base, hbase, h⟩ := Option.bind_eq_some_iff.mp h
  obtain ⟨forced, hforced, h⟩ := Option.bind_eq_some_iff.mp h
  obtain rfl := Option.some.inj h
  refine ⟨hbase, fun run hrun ↦ ?_, rfl⟩
  obtain ⟨i, hi, hplan⟩ := Fallible.exists_of_mem_mapM hforced hrun
  have hlt := lt_min_iff.mp (List.mem_range.mp hi)
  exact ⟨List.length_pos_iff.mp (Nat.zero_lt_of_lt hlt.1), Nat.ne_zero_of_lt hlt.2, _, hplan⟩

theorem advances_seedRuns (henter : EntersAtStart emulate) (hstarts : starts.Pairwise (· < ·))
    (hin : Inside func starts)
    (h : seedRuns emulate image func symbols cfg starts seed = some s) :
    Advances starts s.base s.restarts := by
  obtain ⟨hbase, -, hrestarts⟩ := runs_of_seedRuns h
  rw [hrestarts]
  exact (restarting_restarts henter hstarts _ _).advances (reported_runFrom henter hbase) hin

theorem Reported.executes_start {start : UInt64} {run : RunOut}
    (h : Reported func cfg start run) (hran : run.ran ≠ []) : run.Executes start := by
  obtain ⟨i, ran, hcons⟩ := List.exists_cons_of_ne_nil hran
  have hstart : i.1 = start := h.head i (by rw [hcons]; rfl)
  rw [RunOut.Executes, hcons, ← hstart]
  exact List.mem_cons_self ..

theorem Reported.eq_start_of_executes {start a : UInt64} {run : RunOut}
    (h : Reported func cfg start run) (hcap : cfg.instrCap ≤ 1) (ha : run.Executes a) :
    a = start := by
  have hone : cfg.instrCap.toNat ≤ 1 := UInt64.le_iff_toNat_le.mp hcap
  have hlength := h.length.trans hone
  have hhead := h.head
  rw [RunOut.Executes] at ha
  cases hran : run.ran with
  | nil =>
      rw [hran] at ha
      exact absurd ha List.not_mem_nil
  | cons i ran =>
      rw [hran, List.length_cons] at hlength
      have hnil : ran = [] := List.length_eq_zero_iff.mp (by omega)
      rw [hran, hnil] at ha
      rw [List.mem_singleton.mp ha]
      exact hhead i (by rw [hran]; rfl)

/-- Without forced runs, or when they or the starts do not go past the entry. -/
theorem forcedWithin_of_config (henter : EntersAtStart emulate)
    (h : seedRuns emulate image func symbols cfg starts seed = some s)
    (hcfg : cfg.exploreDepth = 0 ∨ cfg.instrCap ≤ 1 ∨ ∀ a ∈ starts, a = func.entry) :
    ForcedWithin starts s := by
  obtain ⟨hbase, hforced, -⟩ := runs_of_seedRuns h
  intro run hrun a ha hran
  obtain ⟨hdirs, hdepth, plan, hplan⟩ := hforced run hrun
  have hentry : s.base.Executes func.entry :=
    (reported_runFrom henter hbase).executes_start (ran_of_dirs hbase hdirs)
  rcases hcfg with hcfg | hcfg | hcfg
  · exact absurd hcfg hdepth
  · rwa [(reported_runFrom henter hplan).eq_start_of_executes hcfg hran]
  · rwa [hcfg a ha]

/-- What the natural run executed is out of the way of every restart. -/
theorem Advances.progress (h : Advances starts s.base s.restarts)
    (hforced : ForcedWithin starts s) : Progress starts s :=
  ⟨h, fun x hx run hrun hran ↦ h.fresh x hx (hforced run hrun _ (h.mem x hx) hran)⟩

end Progress

end Fnprint
