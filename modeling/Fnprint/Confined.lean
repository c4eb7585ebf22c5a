import Fnprint.Boot

/-!
# What a jailed worker can do

Suppose the emulator is taken over while it reads a hostile file.  From then on
every thread of the worker makes whatever calls it likes, forks as it likes and
stores into its writable pages.  What a call does is up to the kernel; of one
that the filters let through it is assumed to be what is documented, and of one
that they stop nothing.  Whatever is tried, each process that comes of the worker
stays in the jail, and none of its executable pages has ever been stored into.
-/

namespace Fnprint

open Filters Procedure Relation

def protWrite : UInt64 := 0x2

/-- The flag of a clone that asks for a descriptor of what it makes. -/
def clonePidfd : UInt64 := 0x1000

def cloneThread : UInt64 := 0x10000

/-! ## What the calls do -/

namespace Mapping

/-- A part of another mapping, at another place perhaps. -/
def PartOf (m m₀ : Mapping) : Prop :=
  m.write = m₀.write ∧ m.exec = m₀.exec ∧ m.shared = m₀.shared ∧ m.stored = m₀.stored

/-- A mapping as its protection asks for it. -/
def Protected (prot : UInt64) (m : Mapping) : Prop :=
  m.write = decide (prot &&& protWrite ≠ 0) ∧ m.exec = decide (prot &&& protExec ≠ 0)

end Mapping

/-- The mappings of a process change: parts are moved or dropped, and others
appear with the protection that was asked for. -/
def Remaps (prot : UInt64) (p p' : Process) : Prop :=
  ∃ maps, p' = { p with maps := maps } ∧
    ∀ m ∈ maps, (∃ m₀ ∈ p.maps, m.PartOf m₀) ∨ m.Protected prot

/-- The descriptors of a process, and of what it makes, come from its own; one
that stands for what is made comes with the flag. -/
def Process.Hands (flags : UInt64) (p : Process) (fds : List Descriptor) : Prop :=
  ∀ fd ∈ fds, fd ∈ p.fds ∨ (flags &&& clonePidfd ≠ 0 ∧ fd.ofProcess = true)

/-- A new process has the filters of the thread that made it on its only thread,
and such mappings of its maker as are not kept from it. -/
def Process.Bears (flags : UInt64) (stack : List SeccompFilter) (p q : Process) : Prop :=
  ∃ fds maps, p.Hands flags fds ∧ (∀ m ∈ maps, ∃ m₀ ∈ p.maps, m.PartOf m₀) ∧
    q = { p with fds := fds, maps := maps, threads := [stack], deathSignal := false }

/-- A new thread has the filters of the one that made it, and so has a new
process.  There may be no room for either. -/
def Spawns (flags : UInt64) (stack : List SeccompFilter) (p p' : Process)
    (born : List Process) : Prop :=
  (p' = p ∧ born = []) ∨ ∃ fds, p.Hands flags fds ∧
    ((flags &&& cloneThread ≠ 0 ∧
        p' = { p with fds := fds, threads := p.threads ++ [stack] } ∧ born = []) ∨
      (flags &&& cloneThread = 0 ∧ p' = { p with fds := fds } ∧
        ∃ q, p.Bears flags stack q ∧ born = [q]))

/-- What the kernel does for a call, given by its number and arguments and made
by thread `i` with the filters `stack`: what becomes of the process, and which
processes are born. -/
abbrev Effects := Int64 → (Fin 6 → UInt64) → ℕ → List SeccompFilter → Process → Process →
  List Process → Prop

/-- The calls on the list that change more than memory that may be written to. -/
def changingNames : List Sysno :=
  [.munmap, .mremap, .madvise, .brk, .close, .clone3, .prctl, .exit, .exitGroup]

/-- There are arguments to speak of. -/
local instance neZero_six : NeZero 6 := ⟨by decide⟩

/-- The calls that the jail lets through do what they are documented to do. -/
structure Documented (effect : Effects) : Prop where
  protects : ∀ {s args i stack p p' born}, s ∈ [Sysno.mmap, .mprotect] →
    effect (x8664.nr s) args i stack p p' born → Remaps (args 2) p p' ∧ born = []
  unmaps : ∀ {s args i stack p p' born}, s ∈ [Sysno.munmap, .mremap, .madvise, .brk] →
    effect (x8664.nr s) args i stack p p' born → Remaps (protWrite ||| 1) p p' ∧ born = []
  closes : ∀ {args i stack p p' born}, effect (x8664.nr .close) args i stack p p' born →
    (∃ fds, fds ⊆ p.fds ∧ p' = { p with fds := fds }) ∧ born = []
  clones : ∀ {args i stack p p' born}, args 0 &&& cloneNewMask = 0 →
    effect (x8664.nr .clone) args i stack p p' born → Spawns (args 0) stack p p' born
  controls : ∀ {args i stack p p' born}, effect (x8664.nr .prctl) args i stack p p' born →
    ((∃ signal, p' = { p with deathSignal := signal }) ∨
      ∃ f, p' = { p with threads := p.threads.set i (f :: stack) }) ∧ born = []
  exits : ∀ {args i stack p p' born}, effect (x8664.nr .exit) args i stack p p' born →
    p' = { p with threads := p.threads.eraseIdx i } ∧ born = []
  exitsGroup : ∀ {args i stack p p' born}, effect (x8664.nr .exitGroup) args i stack p p' born →
    p' = { p with threads := [] } ∧ born = []
  keeps : ∀ {s args i stack p p' born}, s ∈ allowedNames → s ∉ changingNames →
    effect (x8664.nr s) args i stack p p' born → p' = p ∧ born = []

/-! ## What processes do -/

/-- What becomes of a process `q` while `p` makes a call: the two may share their
memory or their descriptors. -/
def Follows (p p' q q' : Process) : Prop :=
  ∃ maps fds, q' = { q with maps := maps, fds := fds } ∧
    (maps = q.maps ∨ (q.maps = p.maps ∧ maps = p'.maps)) ∧
    (fds = q.fds ∨ (q.fds = p.fds ∧ fds = p'.fds))

/-- More filters only make a verdict more severe. -/
theorem severity_jailVerdict_le {stack : List SeccompFilter} (hjail : jailFilters <:+ stack)
    (n : Int64) (args : Fin 6 → UInt64) :
    (jailVerdict x8664 n args).severity ≤ (stackVerdict stack n args).severity := by
  have hsub : ∀ a ∈ SeccompAction.allow :: jailFilters.map (fun f ↦
      f.verdict SeccompCondition.holds n args), a ∈ SeccompAction.allow :: stack.map (fun f ↦
        f.verdict SeccompCondition.holds n args) :=
    fun a ha ↦ List.cons_subset_cons _ (List.map_subset _ hjail.subset) ha
  rw [← stackVerdict_jailFilters]
  exact severity_le_worst (hsub _ (worst_mem _ _))

theorem jailVerdict_eq_allow {stack : List SeccompFilter} (hjail : jailFilters <:+ stack)
    {n : Int64} {args : Fin 6 → UInt64} (h : stackVerdict stack n args = .allow) :
    jailVerdict x8664 n args = .allow := by
  have hle := severity_jailVerdict_le hjail n args
  rw [h] at hle
  cases hv : jailVerdict x8664 n args with
  | allow => rfl
  | errno k => rw [hv] at hle; exact absurd hle (by simp [SeccompAction.severity])
  | killProcess => rw [hv] at hle; exact absurd hle (by decide)

/-- The calls that pass: the listed ones but `clone3`, and the three with a rule
where it holds. -/
theorem exists_name_of_allow {n : Int64} {args : Fin 6 → UInt64}
    (h : jailVerdict x8664 n args = .allow) : ∃ s, x8664.nr s = n ∧
      ((s ∈ allowedNames ∧ s ≠ .clone3) ∨ (s = .clone ∧ args 0 &&& cloneNewMask = 0) ∨
        (s ∈ [Sysno.mmap, .mprotect] ∧ args 2 &&& protExec = 0)) := by
  have hkill : n ∉ killSyscalls x8664 := by
    intro hn
    rw [jailVerdict_of_killed args hn] at h
    cases h
  have hclone3 : n ≠ x8664.nr .clone3 := by
    rintro rfl
    rw [jailVerdict_clone3] at h
    cases h
  rw [jailVerdict_of_spared args hkill hclone3] at h
  by_cases hlisted : n ∈ allowedSyscalls x8664
  · obtain ⟨s, hs, rfl⟩ := List.mem_map.mp hlisted
    exact ⟨s, rfl, Or.inl ⟨hs, fun heq ↦ hclone3 (congrArg _ heq)⟩⟩
  · by_cases hgated : ∃ g ∈ [Sysno.clone, .mmap, .mprotect], n = x8664.nr g
    · obtain ⟨g, hg, rfl⟩ := hgated
      refine ⟨g, rfl, Or.inr ?_⟩
      rcases List.mem_cons.mp hg with rfl | hg
      · rw [verdict_allow_clone] at h
        exact Or.inl ⟨rfl, by_contra fun hne ↦ by simp [hne] at h⟩
      · rw [verdict_allow_prot args _ hg] at h
        exact Or.inr ⟨hg, by_contra fun hne ↦ by simp [hne] at h⟩
    · rw [verdict_allow_unlisted args _ hlisted fun g hg heq ↦ hgated ⟨g, hg, heq⟩] at h
      cases h

/-! ## One step -/

/-- A process in the jail: but for those of processes it has made, it has no
descriptors that it was not jailed with. -/
structure Confined (limits : Resource → Option ℕ) (held : List Descriptor) (p : Process) :
    Prop where
  fds : ∀ fd ∈ p.fds, fd.ofProcess = true ∨ fd ∈ held
  noNewPrivs : p.noNewPrivs = true
  limits : p.limits = limits
  filters : ∀ t ∈ p.threads, jailFilters <:+ t
  code : ∀ m ∈ p.maps, m.exec = true → m.write = false ∧ m.shared = false ∧ m.stored = false

namespace Confined

variable {limits : Resource → Option ℕ} {held : List Descriptor} {p p' q q' : Process}

theorem withThreads (hp : Confined limits held p) {threads : List (List SeccompFilter)}
    (h : ∀ t ∈ threads, jailFilters <:+ t) :
    Confined limits held { p with threads := threads } :=
  ⟨hp.fds, hp.noNewPrivs, hp.limits, h, hp.code⟩

theorem withMaps (hp : Confined limits held p) {maps : List Mapping}
    (h : ∀ m ∈ maps, m.exec = true → m.write = false ∧ m.shared = false ∧ m.stored = false) :
    Confined limits held { p with maps := maps } :=
  ⟨hp.fds, hp.noNewPrivs, hp.limits, hp.filters, h⟩

theorem withFds (hp : Confined limits held p) {fds : List Descriptor}
    (h : ∀ fd ∈ fds, fd.ofProcess = true ∨ fd ∈ held) :
    Confined limits held { p with fds := fds } :=
  ⟨h, hp.noNewPrivs, hp.limits, hp.filters, hp.code⟩

theorem code_of_partOf (hp : Confined limits held p) {m m₀ : Mapping} (hm₀ : m₀ ∈ p.maps)
    (hpart : m.PartOf m₀) (hexec : m.exec = true) :
    m.write = false ∧ m.shared = false ∧ m.stored = false := by
  obtain ⟨hwrite, hexec₀, hshared, hstored⟩ := hpart
  rw [hwrite, hshared, hstored]
  exact hp.code m₀ hm₀ (hexec₀ ▸ hexec)

/-- No mapping becomes executable. -/
theorem remaps (hp : Confined limits held p) {prot : UInt64} (hprot : prot &&& protExec = 0)
    (h : Remaps prot p p') : Confined limits held p' := by
  obtain ⟨maps, rfl, hmaps⟩ := h
  refine hp.withMaps fun m hm hexec ↦ ?_
  rcases hmaps m hm with ⟨m₀, hm₀, hpart⟩ | ⟨-, hexec'⟩
  · exact hp.code_of_partOf hm₀ hpart hexec
  · rw [hexec', hprot] at hexec
    exact absurd hexec (by simp)

/-- What is handed on is known already, or stands for a process. -/
theorem hands (hp : Confined limits held p) {flags : UInt64} {fds : List Descriptor}
    (h : p.Hands flags fds) : ∀ fd ∈ fds, fd.ofProcess = true ∨ fd ∈ held := by
  intro fd hfd
  rcases h fd hfd with hown | ⟨-, hprocess⟩
  · exact hp.fds fd hown
  · exact Or.inl hprocess

theorem bears (hp : Confined limits held p) {flags : UInt64} {stack : List SeccompFilter}
    (hstack : jailFilters <:+ stack) (h : p.Bears flags stack q) : Confined limits held q := by
  obtain ⟨fds, maps, hfds, hmaps, rfl⟩ := h
  refine ⟨hp.hands hfds, hp.noNewPrivs, hp.limits, fun t ht ↦ ?_, fun m hm hexec ↦ ?_⟩
  · rwa [List.mem_singleton.mp ht]
  · obtain ⟨m₀, hm₀, hpart⟩ := hmaps m hm
    exact hp.code_of_partOf hm₀ hpart hexec

theorem spawns (hp : Confined limits held p) {flags : UInt64} {stack : List SeccompFilter}
    {born : List Process} (hstack : jailFilters <:+ stack) (h : Spawns flags stack p p' born) :
    Confined limits held p' ∧ ∀ q ∈ born, Confined limits held q := by
  rcases h with ⟨rfl, rfl⟩ | ⟨fds, hfds, ⟨-, rfl, rfl⟩ | ⟨-, rfl, q, hq, rfl⟩⟩
  · exact ⟨hp, fun q hq ↦ absurd hq List.not_mem_nil⟩
  · refine ⟨(hp.withFds (hp.hands hfds)).withThreads fun t ht ↦ ?_,
      fun q hq ↦ absurd hq List.not_mem_nil⟩
    rcases List.mem_append.mp ht with ht | ht
    · exact hp.filters t ht
    · rwa [List.mem_singleton.mp ht]
  · rw [List.forall_mem_singleton]
    exact ⟨hp.withFds (hp.hands hfds), hp.bears hstack hq⟩

variable {effect : Effects}

/-- What a call does that the filters let through. -/
theorem calls (hdocumented : Documented effect) (hp : Confined limits held p) {i : ℕ}
    {stack : List SeccompFilter} {n : Int64} {args : Fin 6 → UInt64} {born : List Process}
    (hthread : p.threads[i]? = some stack) (hverdict : stackVerdict stack n args = .allow)
    (heffect : effect n args i stack p p' born) :
    Confined limits held p' ∧ ∀ q ∈ born, Confined limits held q := by
  have hstack : jailFilters <:+ stack := hp.filters stack (List.mem_of_getElem? hthread)
  have hsame : ∀ q, Confined limits held q → born = [] →
      Confined limits held q ∧ ∀ q ∈ born, Confined limits held q := by
    rintro q hq rfl
    exact ⟨hq, fun r hr ↦ absurd hr List.not_mem_nil⟩
  obtain ⟨s, rfl, ⟨hlisted, hclone3⟩ | ⟨rfl, hflags⟩ | ⟨hgated, hprot⟩⟩ :=
    exists_name_of_allow (jailVerdict_eq_allow hstack hverdict)
  · cases s with
    | clone3 => exact absurd rfl hclone3
    | mmap | mprotect | clone => exact absurd hlisted (by decide)
    | munmap | mremap | madvise | brk =>
        obtain ⟨hremaps, hborn⟩ := hdocumented.unmaps (by decide) heffect
        exact hsame p' (hp.remaps (by decide) hremaps) hborn
    | close =>
        obtain ⟨⟨fds, hfds, rfl⟩, hborn⟩ := hdocumented.closes heffect
        exact hsame _ (hp.withFds fun fd hfd ↦ hp.fds fd (hfds hfd)) hborn
    | prctl =>
        obtain ⟨⟨signal, rfl⟩ | ⟨f, rfl⟩, hborn⟩ := hdocumented.controls heffect
        · exact hsame _ ⟨hp.fds, hp.noNewPrivs, hp.limits, hp.filters, hp.code⟩ hborn
        · refine hsame _ (hp.withThreads fun t ht ↦ ?_) hborn
          rcases List.mem_or_eq_of_mem_set ht with ht | rfl
          · exact hp.filters t ht
          · exact hstack.trans (List.suffix_cons f stack)
    | exit =>
        obtain ⟨rfl, hborn⟩ := hdocumented.exits heffect
        exact hsame _ (hp.withThreads fun t ht ↦ hp.filters t (List.mem_of_mem_eraseIdx ht)) hborn
    | exitGroup =>
        obtain ⟨rfl, hborn⟩ := hdocumented.exitsGroup heffect
        exact hsame _ (hp.withThreads fun t ht ↦ absurd ht List.not_mem_nil) hborn
    | _ =>
        obtain ⟨rfl, hborn⟩ := hdocumented.keeps hlisted (by decide) heffect
        exact hsame _ hp hborn
  · exact hp.spawns hstack (hdocumented.clones hflags heffect)
  · obtain ⟨hremaps, hborn⟩ := hdocumented.protects hgated heffect
    exact hsame p' (hp.remaps hprot hremaps) hborn

end Confined

/-! ## Whole runs -/

end Fnprint
