import Fnprint.Lib.Filters

/-!
# The worker's jail

Three stacked filters decide what every system call of the worker does.  Their
lists overlap and their defaults differ; together they kill, answer with an
error number or let through exactly as intended.
-/

namespace Fnprint

open KeyMap Filters

/-- The system calls that the filters name. -/
inductive Sysno
  | read | write | readv | writev | close | lseek | munmap | mremap | madvise | brk | futex
  | clone3 | setRobustList | getRobustList | rseq | setTidAddress | schedYield
  | schedGetaffinity | getrandom | clockGettime | clockNanosleep | nanosleep | rtSigaction
  | rtSigprocmask | rtSigreturn | rtSigtimedwait | sigaltstack | getpid | gettid | exit
  | exitGroup | restartSyscall | prctl | membarrier | clone | mmap | mprotect | execve
  | execveat | ptrace | processVmReadv | processVmWritev | socket | socketpair | connect
  | accept | accept4 | bind | listen | sendto | sendmsg | sendmmsg | recvfrom | recvmsg
  | recvmmsg | initModule | finitModule | deleteModule | kexecLoad | kexecFileLoad | bpf
  | perfEventOpen | mount | umount2 | chroot | pivotRoot | unshare | setns | setuid | setgid
  | setreuid | setregid | setresuid | setresgid | setfsuid | setfsgid | setgroups | addKey
  | keyctl | requestKey | openByHandleAt | reboot | swapon | swapoff | iopl | ioperm
  | ioUringSetup | ioUringEnter | ioUringRegister | userfaultfd | pidfdGetfd
  deriving DecidableEq

inductive SeccompAction
  | allow
  | errno (n : UInt32)
  | killProcess
  deriving DecidableEq

namespace SeccompAction

def severity : SeccompAction → ℕ
  | allow => 0
  | errno _ => 1
  | killProcess => 2

theorem severity_lt_kill {a : SeccompAction} (h : a ≠ killProcess) :
    a.severity < severity killProcess := by
  cases a with
  | allow => decide
  | errno n => exact Nat.lt_succ_self 1
  | killProcess => exact absurd rfl h

theorem severity_allow_lt {a : SeccompAction} (h : a ≠ allow) :
    severity allow < a.severity := by
  cases a with
  | allow => exact absurd rfl h
  | errno n => exact Nat.zero_lt_one
  | killProcess => decide

end SeccompAction

/-- The bit that marks a call of the x32 ABI. -/
def x32Bit : Int64 := 0x40000000

/-- The new mount calls, which are listed by number. -/
def mountApi : List Int64 := [428, 429, 430, 431, 432, 433]

/-- The numbers of the named system calls.  Native numbers are distinct and
leave the x32 bit clear. -/
structure SyscallTable where
  nr : Sysno → Int64
  nr_injective : Function.Injective nr
  nr_native : ∀ s, nr s &&& x32Bit = 0
  nr_not_mem_mountApi : ∀ s, nr s ∉ mountApi

/-! ## The lists -/

def allowedNames : List Sysno :=
  [
    .read, .write, .readv, .writev, .close, .lseek, .munmap, .mremap, .madvise, .brk, .futex,
    .clone3, .setRobustList, .getRobustList, .rseq, .setTidAddress, .schedYield,
    .schedGetaffinity, .getrandom, .clockGettime, .clockNanosleep, .nanosleep, .rtSigaction,
    .rtSigprocmask, .rtSigreturn, .rtSigtimedwait, .sigaltstack, .getpid, .gettid, .exit,
    .exitGroup, .restartSyscall, .prctl, .membarrier]

def killNames : List Sysno :=
  [
    .execve, .execveat, .ptrace, .processVmReadv, .processVmWritev, .socket, .socketpair,
    .connect, .accept, .accept4, .bind, .listen, .sendto, .sendmsg, .sendmmsg, .recvfrom,
    .recvmsg, .recvmmsg, .initModule, .finitModule, .deleteModule, .kexecLoad, .kexecFileLoad,
    .bpf, .perfEventOpen, .mount, .umount2, .chroot, .pivotRoot, .unshare, .setns, .setuid,
    .setgid, .setreuid, .setregid, .setresuid, .setresgid, .setfsuid, .setfsgid, .setgroups,
    .addKey, .keyctl, .requestKey, .openByHandleAt, .reboot, .swapon, .swapoff, .iopl, .ioperm,
    .ioUringSetup, .ioUringEnter, .ioUringRegister, .userfaultfd, .pidfdGetfd]

def x32Dedicated : List Int64 := [520, 545, 521, 539, 540, 518, 538, 517, 519, 537, 528]

section Jail

variable (T : SyscallTable)

def allowedSyscalls : List Int64 := allowedNames.map T.nr

def killSyscalls : List Int64 :=
  let all := killNames.map T.nr ++ mountApi
  all ++ all.map (· ||| x32Bit) ++ x32Dedicated.map (· ||| x32Bit)

/-! ## The filters -/

/-- A masked comparison of the low half of one argument. -/
structure SeccompCondition where
  arg : Fin 6
  mask : UInt64
  value : UInt64

def SeccompCondition.holds (c : SeccompCondition) (args : Fin 6 → UInt64) : Bool :=
  (args c.arg).toUInt32 &&& c.mask.toUInt32 == c.value.toUInt32

abbrev SeccompFilter := Filters.Filter Int64 SeccompCondition SeccompAction

def cloneNewMask : UInt64 := 0x7E020000

def cloneFlagRule : List SeccompCondition := [⟨0, cloneNewMask, 0⟩]

def protExec : UInt64 := 0x4

def protNoExecRule : List SeccompCondition := [⟨2, protExec, 0⟩]

def buildFilter (syscalls : List Int64) (matched default : SeccompAction) : SeccompFilter :=
  { rules := listed syscalls, mismatch := default, matched := matched }

def buildAllowFilter (default : SeccompAction) : SeccompFilter :=
  let rules := listed (allowedSyscalls T)
  let rules := rules.insert (T.nr .clone) [cloneFlagRule]
  let rules := rules.insert (T.nr .mmap) [protNoExecRule]
  let rules := rules.insert (T.nr .mprotect) [protNoExecRule]
  { rules := rules, mismatch := default, matched := .allow }

def buildClone3EnosysFilter : SeccompFilter :=
  { rules := listed [T.nr .clone3], mismatch := .allow, matched := .errno 38 }

/-- The filters in the order they are installed. -/
def installSeccomp : List SeccompFilter :=
  let eperm := SeccompAction.errno 1
  let allow := buildAllowFilter T eperm
  let kill := buildFilter (killSyscalls T) .killProcess .allow
  [buildClone3EnosysFilter T, kill, allow]

/-- Every call runs through all filters, the last installed first. -/
def jailVerdict (n : Int64) (args : Fin 6 → UInt64) : SeccompAction :=
  worst SeccompAction.severity .allow
    ((installSeccomp T).reverse.map fun f ↦ f.verdict SeccompCondition.holds n args)

end Jail

/-! ## What is on the lists -/

theorem or_x32Bit_and (n : Int64) : (n ||| x32Bit) &&& x32Bit = x32Bit := by
  apply Int64.toBitVec_inj.mp
  ext i hi
  simp only [Int64.toBitVec_and, Int64.toBitVec_or, BitVec.getElem_and, BitVec.getElem_or]
  cases n.toBitVec[i] <;> cases x32Bit.toBitVec[i] <;> rfl

theorem x32Bit_ne_zero : x32Bit ≠ 0 := by decide

section Lists

variable {T : SyscallTable} {n : Int64} {s : Sysno}

theorem nr_mem_map_iff {l : List Sysno} : T.nr s ∈ l.map T.nr ↔ s ∈ l :=
  List.mem_map_of_injective T.nr_injective

theorem nr_ne_or_x32Bit (s : Sysno) (n : Int64) : T.nr s ≠ n ||| x32Bit := by
  intro h
  have hclear := T.nr_native s
  rw [h, or_x32Bit_and] at hclear
  exact x32Bit_ne_zero hclear

theorem mem_killSyscalls_iff : n ∈ killSyscalls T ↔
    (n ∈ killNames.map T.nr ++ mountApi ∨
      ∃ m ∈ killNames.map T.nr ++ mountApi, m ||| x32Bit = n) ∨
        ∃ m ∈ x32Dedicated, m ||| x32Bit = n := by
  simp only [killSyscalls, List.mem_append, List.mem_map]

/-- A named call is killed only under its own name. -/
theorem nr_mem_killSyscalls_iff : T.nr s ∈ killSyscalls T ↔ s ∈ killNames := by
  rw [mem_killSyscalls_iff]
  constructor
  · rintro ((h | ⟨m, -, hm⟩) | ⟨m, -, hm⟩)
    · rcases List.mem_append.mp h with h | h
      · exact nr_mem_map_iff.mp h
      · exact absurd h (T.nr_not_mem_mountApi s)
    · exact absurd hm.symm (nr_ne_or_x32Bit s m)
    · exact absurd hm.symm (nr_ne_or_x32Bit s m)
  · intro h
    exact Or.inl (Or.inl (List.mem_append_left _ (nr_mem_map_iff.mpr h)))

theorem or_x32Bit_mem_killSyscalls (h : n ∈ killSyscalls T) : n ||| x32Bit ∈ killSyscalls T := by
  have himage : ∀ m, (m ||| x32Bit) ||| x32Bit = m ||| x32Bit := fun m ↦ by
    rw [Int64.or_assoc, Int64.or_self]
  rcases mem_killSyscalls_iff.mp h with (hn | ⟨m, -, rfl⟩) | ⟨m, -, rfl⟩
  · exact mem_killSyscalls_iff.mpr (Or.inl (Or.inr ⟨n, hn, rfl⟩))
  · rwa [himage]
  · rwa [himage]

theorem not_mem_killNames : ∀ s ∈ allowedNames ++ [.clone, .mmap, .mprotect], s ∉ killNames := by
  decide

theorem nr_not_mem_killSyscalls (hs : s ∈ allowedNames ++ [.clone, .mmap, .mprotect]) :
    T.nr s ∉ killSyscalls T :=
  fun h ↦ not_mem_killNames s hs (nr_mem_killSyscalls_iff.mp h)

theorem gated_not_mem_allowedNames : ∀ s ∈ [Sysno.clone, .mmap, .mprotect], s ∉ allowedNames := by
  decide

end Lists

/-! ## The verdict of each filter -/

section Verdicts

variable {T : SyscallTable} {n : Int64} (args : Fin 6 → UInt64)

theorem verdict_buildFilter_of_mem {l : List Int64} (matched default : SeccompAction)
    (h : n ∈ l) :
    (buildFilter l matched default).verdict SeccompCondition.holds n args = matched := by
  have hlookup : (buildFilter l matched default).rules.lookup n = some [] :=
    lookup_listed_of_mem h
  exact verdict_of_no_rule hlookup args

theorem verdict_buildFilter_of_not_mem {l : List Int64} (matched default : SeccompAction)
    (h : n ∉ l) :
    (buildFilter l matched default).verdict SeccompCondition.holds n args = default := by
  have hlookup : (buildFilter l matched default).rules.lookup n = none :=
    lookup_listed_of_not_mem h
  exact verdict_of_unlisted hlookup args

theorem verdict_enosys_clone3 :
    (buildClone3EnosysFilter T).verdict SeccompCondition.holds (T.nr .clone3) args = .errno 38 :=
  verdict_of_no_rule (lookup_listed_of_mem List.mem_cons_self) args

theorem verdict_enosys_of_ne (h : n ≠ T.nr .clone3) :
    (buildClone3EnosysFilter T).verdict SeccompCondition.holds n args = .allow :=
  verdict_of_unlisted (lookup_listed_of_not_mem fun hn ↦ h (List.mem_singleton.mp hn)) args

/-- Away from the three calls with a rule the allow filter is a plain list. -/
theorem lookup_buildAllowFilter_of_ne (default : SeccompAction)
    (hclone : n ≠ T.nr .clone) (hmmap : n ≠ T.nr .mmap) (hmprotect : n ≠ T.nr .mprotect) :
    (buildAllowFilter T default).rules.lookup n =
      (listed (allowedSyscalls T) : Map Int64 (List (List SeccompCondition))).lookup n := by
  simp only [buildAllowFilter]
  rw [AList.lookup_insert_ne hmprotect, AList.lookup_insert_ne hmmap,
    AList.lookup_insert_ne hclone]

theorem lookup_buildAllowFilter_clone (default : SeccompAction) :
    (buildAllowFilter T default).rules.lookup (T.nr .clone) = some [cloneFlagRule] := by
  have hmmap : T.nr .clone ≠ T.nr .mmap := T.nr_injective.ne nofun
  have hmprotect : T.nr .clone ≠ T.nr .mprotect := T.nr_injective.ne nofun
  simp only [buildAllowFilter]
  rw [AList.lookup_insert_ne hmprotect, AList.lookup_insert_ne hmmap, AList.lookup_insert]

theorem lookup_buildAllowFilter_prot (default : SeccompAction) {s : Sysno}
    (hs : s ∈ [Sysno.mmap, .mprotect]) :
    (buildAllowFilter T default).rules.lookup (T.nr s) = some [protNoExecRule] := by
  simp only [buildAllowFilter]
  rcases List.mem_pair.mp hs with rfl | rfl
  · have hmprotect : T.nr .mmap ≠ T.nr .mprotect := T.nr_injective.ne nofun
    rw [AList.lookup_insert_ne hmprotect, AList.lookup_insert]
  · rw [AList.lookup_insert]

/-- A masked comparison with zero asks that all bits of the mask are clear. -/
theorem holds_mask_iff {i : Fin 6} {mask : UInt64} (hmask : mask.toNat < 2 ^ 32) :
    SeccompCondition.holds ⟨i, mask, 0⟩ args = true ↔ args i &&& mask = 0 := by
  rw [SeccompCondition.holds, beq_iff_eq]
  exact low_and_eq_zero_iff hmask (args i)

theorem verdict_allow_clone (default : SeccompAction) :
    (buildAllowFilter T default).verdict SeccompCondition.holds (T.nr .clone) args =
      if args 0 &&& cloneNewMask = 0 then .allow else default := by
  refine (verdict_of_one_condition (lookup_buildAllowFilter_clone default) args).trans ?_
  simp only [holds_mask_iff args (show cloneNewMask.toNat < 2 ^ 32 by decide)]
  rfl

theorem verdict_allow_prot (default : SeccompAction) {s : Sysno}
    (hs : s ∈ [Sysno.mmap, .mprotect]) :
    (buildAllowFilter T default).verdict SeccompCondition.holds (T.nr s) args =
      if args 2 &&& protExec = 0 then .allow else default := by
  refine (verdict_of_one_condition (lookup_buildAllowFilter_prot default hs) args).trans ?_
  simp only [holds_mask_iff args (show protExec.toNat < 2 ^ 32 by decide)]
  rfl

theorem verdict_allow_listed (default : SeccompAction) {s : Sysno} (hs : s ∈ allowedNames) :
    (buildAllowFilter T default).verdict SeccompCondition.holds (T.nr s) args = .allow := by
  have hgated : ∀ g ∈ [Sysno.clone, .mmap, .mprotect], T.nr s ≠ T.nr g := by
    intro g hg h
    exact gated_not_mem_allowedNames g hg (T.nr_injective h ▸ hs)
  have hlisted : T.nr s ∈ allowedSyscalls T := nr_mem_map_iff.mpr hs
  have hlookup := lookup_buildAllowFilter_of_ne default (hgated .clone (by simp))
    (hgated .mmap (by simp)) (hgated .mprotect (by simp))
  exact verdict_of_no_rule (hlookup.trans (lookup_listed_of_mem hlisted)) args

theorem verdict_allow_unlisted (default : SeccompAction) (h : n ∉ allowedSyscalls T)
    (hgated : ∀ g ∈ [Sysno.clone, .mmap, .mprotect], n ≠ T.nr g) :
    (buildAllowFilter T default).verdict SeccompCondition.holds n args = default := by
  have hlookup := lookup_buildAllowFilter_of_ne default (hgated .clone (by simp))
    (hgated .mmap (by simp)) (hgated .mprotect (by simp))
  exact verdict_of_unlisted (hlookup.trans (lookup_listed_of_not_mem h)) args

/-! ## The stack -/

theorem jailVerdict_eq (T : SyscallTable) (n : Int64) : jailVerdict T n args =
    worst SeccompAction.severity .allow
      [(buildAllowFilter T (.errno 1)).verdict SeccompCondition.holds n args,
        (buildFilter (killSyscalls T) .killProcess .allow).verdict SeccompCondition.holds n args,
        (buildClone3EnosysFilter T).verdict SeccompCondition.holds n args] := rfl

theorem jailVerdict_of_killed (h : n ∈ killSyscalls T) :
    jailVerdict T n args = .killProcess := by
  rw [jailVerdict_eq, verdict_buildFilter_of_mem args _ _ h]
  exact worst_eq_of_lt (by simp) fun a _ ha ↦ SeccompAction.severity_lt_kill ha

theorem jailVerdict_clone3 : jailVerdict T (T.nr .clone3) args = .errno 38 := by
  have hspared : T.nr .clone3 ∉ killSyscalls T := nr_not_mem_killSyscalls (by decide)
  rw [jailVerdict_eq, verdict_buildFilter_of_not_mem args _ _ hspared, verdict_enosys_clone3,
    verdict_allow_listed args _ (by decide)]
  rfl

/-- Where the other two filters have nothing to say, the allow filter decides. -/
theorem jailVerdict_of_spared (hkill : n ∉ killSyscalls T) (hclone3 : n ≠ T.nr .clone3) :
    jailVerdict T n args =
      (buildAllowFilter T (.errno 1)).verdict SeccompCondition.holds n args := by
  rw [jailVerdict_eq, verdict_buildFilter_of_not_mem args _ _ hkill,
    verdict_enosys_of_ne args hclone3]
  refine worst_eq_of_lt (by simp) fun a ha hne ↦ ?_
  have hallow : a = .allow := by
    simpa [hne] using ha
  subst hallow
  exact SeccompAction.severity_allow_lt hne.symm

end Verdicts

/-! ## The intended policy -/

/-- The flags of `clone` that create a namespace. -/
def cloneNewFlags : List UInt64 :=
  [0x00020000, 0x02000000, 0x04000000, 0x08000000, 0x10000000, 0x20000000, 0x40000000]

theorem foldr_cloneNewFlags : cloneNewFlags.foldr (· ||| ·) 0 = cloneNewMask := by decide

theorem and_foldr_eq_zero_iff (x : UInt64) (flags : List UInt64) :
    x &&& flags.foldr (· ||| ·) 0 = 0 ↔ ∀ flag ∈ flags, x &&& flag = 0 := by
  induction flags with
  | nil => simp
  | cons flag flags ih =>
      have hsplit : x &&& (flag ||| flags.foldr (· ||| ·) 0) =
          x &&& flag ||| x &&& flags.foldr (· ||| ·) 0 := by
        apply UInt64.toBitVec_inj.mp
        ext i hi
        simp [Bool.and_or_distrib_left]
      rw [List.foldr_cons, hsplit, UInt64.or_eq_zero_iff, ih, List.forall_mem_cons]

/-- What the three filters are to do together. -/
structure JailPolicy (T : SyscallTable) (verdict : Int64 → (Fin 6 → UInt64) → SeccompAction) :
    Prop where
  killed : ∀ n ∈ killSyscalls T, ∀ args, verdict n args = .killProcess
  image_killed : ∀ n ∈ killSyscalls T, ∀ args, verdict (n ||| x32Bit) args = .killProcess
  clone3 : ∀ args, verdict (T.nr .clone3) args = .errno 38
  mmap_mprotect : ∀ s ∈ [Sysno.mmap, .mprotect], ∀ args,
    verdict (T.nr s) args = if args 2 &&& protExec = 0 then .allow else .errno 1
  clone : ∀ args, verdict (T.nr .clone) args =
    if ∀ flag ∈ cloneNewFlags, args 0 &&& flag = 0 then .allow else .errno 1
  allowed : ∀ n ∈ allowedSyscalls T, n ≠ T.nr .clone3 → ∀ args, verdict n args = .allow
  denied : ∀ n, n ∉ killSyscalls T → n ∉ allowedSyscalls T →
    (∀ g ∈ [Sysno.clone, .mmap, .mprotect], n ≠ T.nr g) → ∀ args, verdict n args = .errno 1
  x32_denied : ∀ n, n &&& x32Bit ≠ 0 → n ∉ killSyscalls T → ∀ args, verdict n args = .errno 1

theorem allowed_cases {T : SyscallTable} {n : Int64} (h : n ∈ allowedSyscalls T) :
    ∃ s ∈ allowedNames, T.nr s = n :=
  List.mem_map.mp h

/-- The stacked filters carry out the policy. -/
theorem jailVerdict_policy (T : SyscallTable) : JailPolicy T (jailVerdict T) where
  killed n hn args := jailVerdict_of_killed args hn
  image_killed n hn args := jailVerdict_of_killed args (or_x32Bit_mem_killSyscalls hn)
  clone3 args := jailVerdict_clone3 args
  mmap_mprotect s hs args := by
    have hspared : T.nr s ∉ killSyscalls T :=
      nr_not_mem_killSyscalls (List.mem_append_right _ (List.mem_cons_of_mem _ hs))
    have hclone3 : s ≠ .clone3 := by
      rintro rfl
      exact absurd hs (by decide)
    rw [jailVerdict_of_spared args hspared (T.nr_injective.ne hclone3)]
    exact verdict_allow_prot args (.errno 1) hs
  clone args := by
    have hspared : T.nr .clone ∉ killSyscalls T := nr_not_mem_killSyscalls (by decide)
    rw [jailVerdict_of_spared args hspared (T.nr_injective.ne nofun), verdict_allow_clone,
      ← foldr_cloneNewFlags]
    simp only [and_foldr_eq_zero_iff]
  allowed n hn hclone3 args := by
    obtain ⟨s, hs, rfl⟩ := allowed_cases hn
    have hspared : T.nr s ∉ killSyscalls T := nr_not_mem_killSyscalls (List.mem_append_left _ hs)
    rw [jailVerdict_of_spared args hspared hclone3]
    exact verdict_allow_listed args (.errno 1) hs
  denied n hkill hallow hgated args := by
    have hclone3 : n ≠ T.nr .clone3 := by
      rintro rfl
      exact hallow (nr_mem_map_iff.mpr (by decide))
    rw [jailVerdict_of_spared args hkill hclone3]
    exact verdict_allow_unlisted args (.errno 1) hallow hgated
  x32_denied n hx32 hkill args := by
    -- No native number carries the bit, so the number is on neither of the other lists.
    have hne : ∀ s, n ≠ T.nr s := fun s h ↦ hx32 (h ▸ T.nr_native s)
    have hallow : n ∉ allowedSyscalls T := by
      intro h
      obtain ⟨s, -, rfl⟩ := allowed_cases h
      exact hne s rfl
    rw [jailVerdict_of_spared args hkill (hne .clone3)]
    exact verdict_allow_unlisted args (.errno 1) hallow fun g _ ↦ hne g

/-! ## The numbers of x86-64 -/

def x8664Nr : Sysno → Int64
  | .read => 0 | .write => 1 | .readv => 19 | .writev => 20 | .close => 3 | .lseek => 8
  | .munmap => 11 | .mremap => 25 | .madvise => 28 | .brk => 12 | .futex => 202
  | .clone3 => 435 | .setRobustList => 273 | .getRobustList => 274 | .rseq => 334
  | .setTidAddress => 218 | .schedYield => 24 | .schedGetaffinity => 204 | .getrandom => 318
  | .clockGettime => 228 | .clockNanosleep => 230 | .nanosleep => 35 | .rtSigaction => 13
  | .rtSigprocmask => 14 | .rtSigreturn => 15 | .rtSigtimedwait => 128 | .sigaltstack => 131
  | .getpid => 39 | .gettid => 186 | .exit => 60 | .exitGroup => 231 | .restartSyscall => 219
  | .prctl => 157 | .membarrier => 324 | .clone => 56 | .mmap => 9 | .mprotect => 10
  | .execve => 59 | .execveat => 322 | .ptrace => 101 | .processVmReadv => 310
  | .processVmWritev => 311 | .socket => 41 | .socketpair => 53 | .connect => 42
  | .accept => 43 | .accept4 => 288 | .bind => 49 | .listen => 50 | .sendto => 44
  | .sendmsg => 46 | .sendmmsg => 307 | .recvfrom => 45 | .recvmsg => 47 | .recvmmsg => 299
  | .initModule => 175 | .finitModule => 313 | .deleteModule => 176 | .kexecLoad => 246
  | .kexecFileLoad => 320 | .bpf => 321 | .perfEventOpen => 298 | .mount => 165
  | .umount2 => 166 | .chroot => 161 | .pivotRoot => 155 | .unshare => 272 | .setns => 308
  | .setuid => 105 | .setgid => 106 | .setreuid => 113 | .setregid => 114 | .setresuid => 117
  | .setresgid => 119 | .setfsuid => 122 | .setfsgid => 123 | .setgroups => 116
  | .addKey => 248 | .keyctl => 250 | .requestKey => 249 | .openByHandleAt => 304
  | .reboot => 169 | .swapon => 167 | .swapoff => 168 | .iopl => 172 | .ioperm => 173
  | .ioUringSetup => 425 | .ioUringEnter => 426 | .ioUringRegister => 427 | .userfaultfd => 323
  | .pidfdGetfd => 438

def allNames : List Sysno := allowedNames ++ [.clone, .mmap, .mprotect] ++ killNames

theorem mem_allNames (s : Sysno) : s ∈ allNames := by
  cases s <;> decide

theorem x8664Nr_injective : Function.Injective x8664Nr := by
  have hnodup : (allNames.map x8664Nr).Nodup := by decide +kernel
  intro s t h
  exact List.inj_on_of_nodup_map hnodup (mem_allNames s) (mem_allNames t) h

theorem x8664Nr_native : ∀ s ∈ allNames, x8664Nr s &&& x32Bit = 0 ∧ x8664Nr s ∉ mountApi := by
  decide +kernel

/-- The table of the kernel that the filters are built for. -/
def x8664 : SyscallTable where
  nr := x8664Nr
  nr_injective := x8664Nr_injective
  nr_native s := (x8664Nr_native s (mem_allNames s)).1
  nr_not_mem_mountApi s := (x8664Nr_native s (mem_allNames s)).2

/-- A request for an executable page is answered with an error number. -/
theorem jailVerdict_policy_x8664 :
    jailVerdict x8664 9 ![0, 4096, 5, 34, 0, 0] = .errno 1 := by
  have hmmap := (jailVerdict_policy x8664).mmap_mprotect .mmap (by decide)
    ![0, 4096, 5, 34, 0, 0]
  exact hmmap

end Fnprint
