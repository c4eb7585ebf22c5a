import Fnprint.Lib.Procedures
import Fnprint.Exchange
import Fnprint.Sandbox
import Fnprint.Script

/-!
# Entering the jail

A worker gives up what it inherited, makes sure that its parent lives, warms its
thread pool, looks for a page that is both writable and executable, limits its
resources and installs its filters on every thread; only then does it read its
input.  Each of these steps may be refused by the kernel, and the filters that
are in place already decide about the next one.
-/

namespace Fnprint

open Filters Procedure

/-! ## Processes -/

deriving instance DecidableEq for SeccompCondition

instance : DecidableEq SeccompFilter := fun f g ↦
  decidable_of_iff (f.rules = g.rules ∧ f.mismatch = g.mismatch ∧ f.matched = g.matched)
    ⟨fun ⟨hrules, hmismatch, hmatched⟩ ↦ by cases f; cases g; simp_all, fun h ↦ by simp [h]⟩

inductive Resource where
  | core
  | as
  | cpu
  | nofile
  deriving DecidableEq

/-- A mapping of the address space, and whether the process has stored into it
since it was jailed. -/
structure Mapping where
  start : ℕ
  stop : ℕ
  read : Bool
  write : Bool
  exec : Bool
  shared : Bool
  rest : List Char
  rest_line : '\n' ∉ rest
  stored : Bool

/-- An open descriptor, which may stand for another process. -/
structure Descriptor where
  number : ℕ
  ofProcess : Bool

/-- A process as its jail sees it; every thread has its filters, the last
installed first. -/
structure Process where
  fds : List Descriptor
  deathSignal : Bool
  noNewPrivs : Bool
  limits : Resource → Option ℕ
  threads : List (List SeccompFilter)
  maps : List Mapping
  readsInput : Bool

/-- The filters of the main thread. -/
def Process.mainFilters (p : Process) : List SeccompFilter := p.threads.head?.getD []

/-- What the filters of a thread say about a call. -/
def stackVerdict (stack : List SeccompFilter) (n : Int64) (args : Fin 6 → UInt64) :
    SeccompAction :=
  worst SeccompAction.severity .allow (stack.map fun f ↦ f.verdict SeccompCondition.holds n args)

/-- The filters of a jailed thread. -/
def jailFilters : List SeccompFilter := (installSeccomp x8664).reverse

theorem stackVerdict_jailFilters (n : Int64) (args : Fin 6 → UInt64) :
    stackVerdict jailFilters n args = jailVerdict x8664 n args := rfl

/-! ## The map file -/

def hexPadded (n : ℕ) : List Char := (Nat.toDigits 16 n).leftpad 8 '0'

namespace Mapping

def perms (m : Mapping) : List Char :=
  [if m.read then 'r' else '-', if m.write then 'w' else '-', if m.exec then 'x' else '-',
    if m.shared then 's' else 'p']

/-- The line that the kernel shows for a mapping. -/
def line (m : Mapping) : List Char :=
  hexPadded m.start ++ '-' :: hexPadded m.stop ++ ' ' :: m.perms ++ ' ' :: m.rest

end Mapping

def Process.mapsFile (p : Process) : List Char := Ascii.unlines (p.maps.map Mapping.line)

/-- The code points that separate words. -/
def whiteSpace (c : Char) : Bool :=
  (0x9 ≤ c.toNat ∧ c.toNat ≤ 0xd) ∨ c.toNat = 0x20 ∨ c.toNat = 0x85 ∨ c.toNat = 0xa0 ∨
    c.toNat = 0x1680 ∨ (0x2000 ≤ c.toNat ∧ c.toNat ≤ 0x200a) ∨ c.toNat = 0x2028 ∨
    c.toNat = 0x2029 ∨ c.toNat = 0x202f ∨ c.toNat = 0x205f ∨ c.toNat = 0x3000

def splitWhitespace (s : List Char) : List (List Char) :=
  (s.splitOnP whiteSpace).filter (· ≠ [])

/-- The lines of a text, without their ends; a last line without one is as it is. -/
def textLines (s : List Char) : List (List Char) :=
  let parts := s.splitOn '\n'
  let ended := parts.dropLast.map fun l ↦ if l.getLast? = some '\r' then l.dropLast else l
  ended ++ parts.getLast?.toList.filter (· ≠ [])

/-- The second word of the line, whose bytes say what the page may be used for. -/
def writableExecutable (line : List Char) : Bool :=
  match (splitWhitespace line)[1]? with
  | some perms =>
      let b := perms.flatMap String.utf8EncodeChar
      3 ≤ b.length ∧ b[1]? = some 0x77 ∧ b[2]? = some 0x78
  | none => false

/-! ## What is asked of the kernel -/

inductive Request where
  | closeRange (first : ℕ)
  | setDeathSignal
  | getppid
  | spawn (n : ℕ)
  | openMaps
  | setrlimit (r : Resource) (cap : ℕ)
  | setNoNewPrivs
  | seccomp (f : SeccompFilter)
  | readStdin

/-- The number of the call that makes a request. -/
def Request.nr : Request → Int64
  | .closeRange _ => 436
  | .setDeathSignal => 157
  | .getppid => 110
  | .spawn _ => 435
  | .openMaps => 257
  | .setrlimit _ _ => 302
  | .setNoNewPrivs => 157
  | .seccomp _ => 317
  | .readStdin => 0

/-- What comes of a request that is granted.  A filter is installed on all
threads at once, which asks for the same filters on each of them. -/
def Process.perform (p : Process) : Request → Option Process
  | .closeRange first => some { p with fds := p.fds.filter (·.number < first) }
  | .setDeathSignal => some { p with deathSignal := true }
  | .getppid => some p
  | .spawn n => some { p with threads := p.threads ++ List.replicate n p.mainFilters }
  | .openMaps => some p
  | .setrlimit r cap => some { p with limits := Function.update p.limits r (some cap) }
  | .setNoNewPrivs => some { p with noNewPrivs := true }
  | .seccomp f =>
      if p.noNewPrivs ∧ ∀ t ∈ p.threads, t = p.mainFilters then
        some { p with threads := p.threads.map (f :: ·) }
      else none
  | .readStdin => some { p with readsInput := true }

/-- The kernel of a worker: the requests that it refuses by their number, what
it calls each refusal, the arguments of each request, the parent, the threads of
the machine and what is on standard input. -/
structure Kernel where
  refuses : ℕ → Bool
  osError : ℕ → String
  args : ℕ → Fin 6 → UInt64
  parent : Option ℕ
  threads : ℕ
  stdin : List UInt8

structure BootState where
  process : Process
  asked : ℕ

abbrev Boot := EStateM (List String) BootState

section Steps

variable (K : Kernel)

/-- One request; a refusal stops the worker. -/
def ask (req : Request) (report : String → List String) : Boot Unit := fun s ↦
  let next := { s with asked := s.asked + 1 }
  if stackVerdict s.process.mainFilters req.nr (K.args s.asked) = .allow ∧
      K.refuses s.asked = false then
    match s.process.perform req with
    | some p => .ok () { next with process := p }
    | none => .error (report (K.osError s.asked)) next
  else .error (report (K.osError s.asked)) next

/-- The cause of a failure under its context. -/
def context (what cause : String) : List String := [what, cause]

def closeInheritedFds : Boot Unit :=
  ask K (.closeRange 3) fun err ↦ ["close_range on inherited fds failed: " ++ err]

def hardenWorkerPreinput : Boot Unit := do
  closeInheritedFds K
  ask K .setDeathSignal (context "set pdeathsig")
  ask K .getppid (context "getppid")
  match K.parent with
  | none => throw ["refusing to run: worker has no parent process"]
  | some ppid =>
      if ppid = 1 then throw ["refusing to run: parent already exited (reparented to init)"]
      else pure ()

def warmThreadPool : Boot Unit := ask K (.spawn K.threads) (context "spawn thread pool")

def assertNoWxMappings : Boot Unit := do
  ask K .openMaps (context "read /proc/self/maps")
  let s ← get
  match (textLines s.process.mapsFile).find? writableExecutable with
  | some line =>
      throw ["refusing to jail: writable+executable mapping present: " ++ String.ofList line]
  | none => pure ()

def cpuThreadClamp : ℕ := 16

def cpuTimeCap (threads : ℕ) : ℕ := 120 * min threads cpuThreadClamp

/-- Two gibibytes for each thread and eight more, as far as a word goes. -/
def addrSpaceCap (threads : ℕ) : ℕ :=
  min (min (threads * 2 ^ 31) (2 ^ 64 - 1) + 2 ^ 33) (2 ^ 64 - 1)

def setRlimits : Boot Unit := do
  ask K (.setrlimit .core 0) (context "rlimit core")
  ask K (.setrlimit .as (addrSpaceCap K.threads)) (context "rlimit as")
  ask K (.setrlimit .cpu (cpuTimeCap K.threads)) (context "rlimit cpu")
  ask K (.setrlimit .nofile 64) (context "rlimit nofile")

/-- The filters are installed one after the other, the one that allows no
further installation last. -/
def applyFilters : Boot Unit := do
  ask K (.seccomp (buildClone3EnosysFilter x8664)) (context "apply clone3 enosys filter")
  ask K (.seccomp (buildFilter (killSyscalls x8664) .killProcess .allow))
    (context "apply kill filter")
  ask K (.seccomp (buildAllowFilter x8664 (.errno 1))) (context "apply seccomp filter")

def lockDownWorker : Boot Unit := do
  assertNoWxMappings K
  setRlimits K
  ask K .setNoNewPrivs (context "set no_new_privs")
  applyFilters K

def readStdin : Boot (List UInt8) := do
  ask K .readStdin (context "worker reading stdin")
  return K.stdin.take (maxInput + 1)

def enterJail : Boot Unit := do
  inContext "worker preinput hardening" (hardenWorkerPreinput K)
  warmThreadPool K
  inContext "worker could not enter sandbox" (lockDownWorker K)

/-- What a worker does before it looks at its input. -/
def enterWorker : Boot (List UInt8) := do
  enterJail K
  readStdin K

end Steps

/-! ## The map file tells the truth -/

theorem not_whiteSpace_of_hexDigit {c : Char} (h : Ascii.HexDigit c) : whiteSpace c = false := by
  have hbounds : (0x30 ≤ c.toNat ∧ c.toNat ≤ 0x39) ∨ (0x61 ≤ c.toNat ∧ c.toNat ≤ 0x66) := h
  rw [whiteSpace, decide_eq_false_iff_not]
  omega

theorem hexDigit_of_mem_hexPadded {n : ℕ} : ∀ c ∈ hexPadded n, Ascii.HexDigit c := by
  intro c hc
  rw [hexPadded, List.leftpad, List.mem_append] at hc
  rcases hc with hc | hc
  · rw [List.eq_of_mem_replicate hc]
    decide
  · exact Ascii.hexDigit_of_mem_toDigits c hc

namespace Mapping

variable (m : Mapping)

theorem not_whiteSpace_range :
    ∀ c ∈ hexPadded m.start ++ '-' :: hexPadded m.stop, whiteSpace c = false := by
  intro c hc
  rcases List.mem_append.mp hc with hc | hc
  · exact not_whiteSpace_of_hexDigit (hexDigit_of_mem_hexPadded c hc)
  · rcases List.mem_cons.mp hc with rfl | hc
    · decide
    · exact not_whiteSpace_of_hexDigit (hexDigit_of_mem_hexPadded c hc)

theorem not_whiteSpace_perms : ∀ c ∈ m.perms, whiteSpace c = false := by
  simp only [perms, List.forall_mem_cons]
  refine ⟨?_, ?_, ?_, ?_, fun c hc ↦ absurd hc List.not_mem_nil⟩ <;> split <;> decide

/-- Whatever follows, the second word is the permissions. -/
theorem writableExecutable_append (tail : List Char) :
    writableExecutable (hexPadded m.start ++ '-' :: hexPadded m.stop ++ ' ' :: m.perms ++
      ' ' :: tail) = (m.write && m.exec) := by
  have hwords : splitWhitespace (hexPadded m.start ++ '-' :: hexPadded m.stop ++
      ' ' :: (m.perms ++ ' ' :: tail)) = (hexPadded m.start ++ '-' :: hexPadded m.stop) ::
        m.perms :: splitWhitespace tail := by
    rw [splitWhitespace, List.splitOnP_append_cons_of_forall_mem m.not_whiteSpace_range ' ' rfl,
      List.splitOnP_append_cons_of_forall_mem m.not_whiteSpace_perms ' ' rfl,
      List.filter_cons_of_pos (by simp), List.filter_cons_of_pos (by simp [perms])]
    rfl
  rw [List.append_assoc, List.cons_append, writableExecutable, hwords]
  simp only [List.getElem?_cons_succ, List.getElem?_cons_zero]
  unfold perms
  cases m.read <;> cases m.write <;> cases m.exec <;> cases m.shared <;> decide

theorem newline_notMem_line : '\n' ∉ m.line := by
  have hwhite : whiteSpace '\n' = true := by decide
  have hword : ∀ {l : List Char}, (∀ c ∈ l, whiteSpace c = false) → '\n' ∉ l := by
    intro l hl hmem
    exact absurd (hl _ hmem) (by simp [hwhite])
  have hblank : '\n' ≠ ' ' := by decide
  simp only [line, List.mem_append, List.mem_cons, hblank, false_or, not_or]
  have hrange := hword m.not_whiteSpace_range
  simp only [List.mem_append, List.mem_cons, not_or] at hrange
  exact ⟨⟨hrange, hword m.not_whiteSpace_perms⟩, m.rest_line⟩

/-- The line end that a reader strips does not reach the permissions. -/
theorem writableExecutable_line :
    writableExecutable (if m.line.getLast? = some '\r' then m.line.dropLast else m.line) =
      (m.write && m.exec) := by
  split
  · rename_i hlast
    cases hrest : m.rest with
    | nil =>
        have hblank : m.line.getLast? = some ' ' := by
          rw [line, hrest, List.getLast?_append, List.getLast?_singleton, Option.some_or]
        exact absurd (hblank.symm.trans hlast) (by decide)
    | cons c l =>
        rw [line, hrest, List.dropLast_append_cons, List.dropLast_cons_cons]
        exact m.writableExecutable_append _
  · exact m.writableExecutable_append _

end Mapping

theorem textLines_mapsFile (p : Process) : textLines p.mapsFile =
    p.maps.map fun m ↦ if m.line.getLast? = some '\r' then m.line.dropLast else m.line := by
  have hlines : ∀ l ∈ p.maps.map Mapping.line, '\n' ∉ l := by
    intro l hl
    obtain ⟨m, -, rfl⟩ := List.mem_map.mp hl
    exact m.newline_notMem_line
  simp only [textLines, Process.mapsFile, Ascii.splitOn_unlines hlines, List.getLast?_concat,
    List.dropLast_concat, List.map_map]
  simp

/-- The check passes when no mapping is both writable and executable. -/
theorem find?_writableExecutable_eq_none_iff (p : Process) :
    (textLines p.mapsFile).find? writableExecutable = none ↔
      ∀ m ∈ p.maps, ¬(m.write = true ∧ m.exec = true) := by
  rw [textLines_mapsFile, List.find?_eq_none]
  simp only [List.forall_mem_map, Mapping.writableExecutable_line, Bool.and_eq_true]

/-! ## One request -/

section Asking

variable {K : Kernel} {req : Request} {report : String → List String} {s t : BootState}
  {p : Process} {n : ℕ}

theorem ask_eq_ok_iff : (ask K req report).run s = .ok () t ↔
    stackVerdict s.process.mainFilters req.nr (K.args s.asked) = .allow ∧
      K.refuses s.asked = false ∧
        ∃ q, s.process.perform req = some q ∧ t = ⟨q, s.asked + 1⟩ := by
  simp only [EStateM.run, ask]
  split
  · rename_i hgranted
    cases hperform : s.process.perform req with
    | some q => simp [hgranted, eq_comm]
    | none => simp
  · rename_i hrefused
    simp only [reduceCtorEq, false_iff]
    rintro ⟨hallow, hgranted, -⟩
    exact hrefused ⟨hallow, hgranted⟩

/-- The kernel grants the next requests. -/
def Kernel.Grants (K : Kernel) (first count : ℕ) : Prop :=
  ∀ i < count, K.refuses (first + i) = false

theorem grants_one : K.Grants n 1 ↔ K.refuses n = false := by
  simp [Kernel.Grants]

theorem grants_add {a b : ℕ} : K.Grants n (a + b) ↔ K.Grants n a ∧ K.Grants (n + a) b := by
  constructor
  · intro h
    refine ⟨fun i hi ↦ h i (by omega), fun i hi ↦ ?_⟩
    rw [Nat.add_assoc]
    exact h (a + i) (by omega)
  · rintro ⟨ha, hb⟩ i hi
    rcases Nat.lt_or_ge i a with hlt | hge
    · exact ha i hlt
    · have := hb (i - a) (by omega)
      rwa [show n + a + (i - a) = n + i by omega] at this

end Asking

/-! ## What a part of the setup asks for -/

/-- From the process `p` on, after `n` requests, the procedure makes `k` requests
and succeeds when all are granted and `P` holds; it returns `a` and leaves `q`. -/
def Asks (K : Kernel) {α : Type} (x : Boot α) (p : Process) (n k : ℕ) (P : Prop) (a : α)
    (q : Process) : Prop :=
  ∀ b t, x.run ⟨p, n⟩ = .ok b t ↔ (K.Grants n k ∧ P) ∧ b = a ∧ t = ⟨q, n + k⟩

section Rules

variable {K : Kernel} {α β : Type} {x : Boot α} {f : α → Boot β} {p q r : Process} {n k l : ℕ}
  {P Q : Prop} {a : α} {b : β}

theorem asks_pure : Asks K (pure a) p n 0 True a p := by
  intro b t
  rw [pure_eq_ok_iff, eq_comm (a := a), eq_comm (b := t)]
  simp [Kernel.Grants]

theorem asks_get : Asks K get p n 0 True ⟨p, n⟩ p := by
  intro b t
  rw [EStateM.run_get]
  constructor
  · intro h
    cases h
    exact ⟨⟨fun i hi ↦ absurd hi (Nat.not_lt_zero i), trivial⟩, rfl, rfl⟩
  · rintro ⟨-, rfl, rfl⟩
    rfl

theorem asks_throw (e : List String) (a : α) (q : Process) :
    Asks K (throw e : Boot α) p n 0 False a q := by
  intro b t
  simp only [and_false, false_and, iff_false]
  exact throw_ne_ok

theorem Asks.bind (hx : Asks K x p n k P a q) (hf : Asks K (f a) q (n + k) l Q b r) :
    Asks K (x >>= f) p n (k + l) (P ∧ Q) b r := by
  intro c t
  rw [bind_eq_ok_iff, grants_add]
  constructor
  · rintro ⟨a', u, hrun, hrest⟩
    obtain ⟨⟨hgrants, hP⟩, rfl, rfl⟩ := (hx a' u).mp hrun
    obtain ⟨⟨hgrants', hQ⟩, rfl, rfl⟩ := (hf c t).mp hrest
    exact ⟨⟨⟨hgrants, hgrants'⟩, hP, hQ⟩, rfl, by rw [Nat.add_assoc]⟩
  · rintro ⟨⟨⟨hgrants, hgrants'⟩, hP, hQ⟩, rfl, rfl⟩
    refine ⟨a, _, (hx a _).mpr ⟨⟨hgrants, hP⟩, rfl, rfl⟩, (hf c _).mpr ⟨⟨hgrants', hQ⟩, rfl, ?_⟩⟩
    rw [Nat.add_assoc]

theorem Asks.seq {y : Boot β} (hx : Asks K x p n k P a q) (hy : Asks K y q (n + k) l Q b r) :
    Asks K (x >>= fun _ ↦ y) p n (k + l) (P ∧ Q) b r :=
  hx.bind hy

theorem Asks.inContext (hx : Asks K x p n k P a q) (c : String) :
    Asks K (inContext c x) p n k P a q :=
  fun b t ↦ inContext_eq_ok_iff.trans (hx b t)

theorem Asks.congr (hx : Asks K x p n k P a q) (hk : k = l) (h : P ↔ Q) :
    Asks K x p n l Q a q := by
  intro b t
  rw [hx b t, h, hk]

theorem asks_ask {req : Request} {report : String → List String}
    (hfilters : ∀ args, stackVerdict p.mainFilters req.nr args = .allow)
    (hq : p.perform req = some q) : Asks K (ask K req report) p n 1 True () q := by
  intro b t
  rw [ask_eq_ok_iff, grants_one]
  simp [hfilters, hq]

/-- Without filters every request is up to the kernel. -/
theorem asks_ask_unfiltered {req : Request} {report : String → List String}
    (hfree : p.mainFilters = []) (hq : p.perform req = some q) :
    Asks K (ask K req report) p n 1 True () q :=
  asks_ask (fun _ ↦ by rw [hfree]; rfl) hq

end Rules

/-! ## The parts of the setup -/

section Parts

variable {K : Kernel} {p : Process} {n m : ℕ}

/-- There is a parent, and it is not the process that adopts orphans. -/
def Kernel.ParentLives (K : Kernel) : Prop := K.parent ≠ none ∧ K.parent ≠ some 1

/-- No mapping is both writable and executable. -/
def Process.WriteXorExec (p : Process) : Prop :=
  ∀ m ∈ p.maps, ¬(m.write = true ∧ m.exec = true)

theorem asks_hardenWorkerPreinput (hfree : p.mainFilters = []) :
    Asks K (hardenWorkerPreinput K) p n 3 K.ParentLives ()
      { p with fds := p.fds.filter (·.number < 3), deathSignal := true } := by
  have hparent : ∀ q k, Asks K (match K.parent with
      | none => throw ["refusing to run: worker has no parent process"]
      | some ppid =>
          if ppid = 1 then throw ["refusing to run: parent already exited (reparented to init)"]
          else pure ()) q k 0 K.ParentLives () q := by
    intro q k
    unfold Kernel.ParentLives
    cases K.parent with
    | none => exact (asks_throw _ () q).congr rfl (by simp)
    | some ppid =>
        by_cases hinit : ppid = 1
        · simp only [if_pos hinit]
          exact (asks_throw _ () q).congr rfl (by simp [hinit])
        · simp only [if_neg hinit]
          exact asks_pure.congr rfl (by simp [hinit])
  exact Asks.congr (Asks.seq (asks_ask_unfiltered hfree rfl) (Asks.seq
    (asks_ask_unfiltered hfree rfl) (Asks.seq (asks_ask_unfiltered hfree rfl) (hparent _ _))))
    rfl (by simp)

theorem asks_warmThreadPool (hfree : p.mainFilters = []) :
    Asks K (warmThreadPool K) p n 1 True ()
      { p with threads := p.threads ++ List.replicate K.threads p.mainFilters } :=
  asks_ask_unfiltered hfree rfl

theorem asks_assertNoWxMappings (hfree : p.mainFilters = []) :
    Asks K (assertNoWxMappings K) p n 1 p.WriteXorExec () p := by
  have hcheck : Asks K (match (textLines p.mapsFile).find? writableExecutable with
      | some line =>
          throw ["refusing to jail: writable+executable mapping present: " ++ String.ofList line]
      | none => pure ()) p (n + 1) 0 p.WriteXorExec () p := by
    unfold Process.WriteXorExec
    rw [← find?_writableExecutable_eq_none_iff]
    cases (textLines p.mapsFile).find? writableExecutable with
    | none => exact asks_pure.congr rfl (by simp)
    | some line => exact (asks_throw _ () p).congr rfl (by simp)
  exact Asks.congr (Asks.seq (asks_ask_unfiltered hfree rfl) (asks_get.bind hcheck)) rfl (by simp)

/-- The limits of a jailed worker. -/
def jailLimits (threads : ℕ) : Resource → Option ℕ
  | .core => some 0
  | .as => some (addrSpaceCap threads)
  | .cpu => some (cpuTimeCap threads)
  | .nofile => some 64

theorem asks_setRlimits (hfree : p.mainFilters = []) :
    Asks K (setRlimits K) p n 4 True () { p with limits := jailLimits K.threads } := by
  have hlimits : Function.update (Function.update (Function.update (Function.update p.limits .core
      (some 0)) .as (some (addrSpaceCap K.threads))) .cpu (some (cpuTimeCap K.threads))) .nofile
        (some 64) = jailLimits K.threads := by
    funext r
    cases r <;> simp [Function.update, jailLimits]
  rw [← hlimits]
  exact Asks.congr (Asks.seq (asks_ask_unfiltered hfree rfl) (Asks.seq
    (asks_ask_unfiltered hfree rfl) (Asks.seq (asks_ask_unfiltered hfree rfl)
      (asks_ask_unfiltered hfree rfl)))) rfl (by simp)

/-- A filter goes onto all threads at once, as they have the same ones. -/
theorem perform_seccomp {stack : List SeccompFilter} (f : SeccompFilter)
    (hprivs : p.noNewPrivs = true) (hthreads : p.threads = List.replicate (m + 1) stack) :
    p.perform (.seccomp f) =
      some { p with threads := List.replicate (m + 1) (f :: stack) } := by
  have hmain : p.mainFilters = stack := by
    rw [Process.mainFilters, hthreads, List.replicate_succ]
    rfl
  have hsame : ∀ t ∈ p.threads, t = p.mainFilters := by
    rw [hthreads, hmain]
    exact fun t ht ↦ List.eq_of_mem_replicate ht
  rw [Process.perform, if_pos ⟨hprivs, hsame⟩, hthreads, List.map_replicate]

/-- The first two filters let the call through that installs the next one. -/
theorem stackVerdict_seccomp (args : Fin 6 → UInt64) :
    stackVerdict [buildClone3EnosysFilter x8664] 317 args = .allow ∧
      stackVerdict [buildFilter (killSyscalls x8664) .killProcess .allow,
        buildClone3EnosysFilter x8664] 317 args = .allow := by
  have henosys := verdict_enosys_of_ne (T := x8664) (n := 317) args (by decide)
  have hkill := verdict_buildFilter_of_not_mem args SeccompAction.killProcess .allow
    (show (317 : Int64) ∉ killSyscalls x8664 by decide +kernel)
  constructor
  · simp [stackVerdict, worst, henosys]
  · simp [stackVerdict, worst, henosys, hkill]

/-- The allow filter denies the call that installs a filter. -/
theorem stackVerdict_seccomp_of_allow {stack : List SeccompFilter}
    (hstack : buildAllowFilter x8664 (.errno 1) ∈ stack) (args : Fin 6 → UInt64) :
    stackVerdict stack 317 args ≠ .allow := by
  have hdenied := verdict_allow_unlisted (T := x8664) (n := 317) args (.errno 1) (by decide +kernel)
    (by decide +kernel)
  have hmem : SeccompAction.errno 1 ∈ SeccompAction.allow ::
      stack.map fun f ↦ f.verdict SeccompCondition.holds 317 args :=
    List.mem_cons_of_mem _ (List.mem_map.mpr ⟨_, hstack, hdenied⟩)
  have hsevere : SeccompAction.severity (.errno 1) ≤ _ := severity_le_worst hmem
  intro h
  rw [stackVerdict] at h
  rw [h] at hsevere
  exact absurd hsevere (by decide)

/-- Filters installed one after the other. -/
def installAll (K : Kernel) (fs : List SeccompFilter) : Boot Unit :=
  forM fs fun f ↦ ask K (.seccomp f) (context "apply seccomp filter")

theorem mainFilters_of_ask_seccomp {f : SeccompFilter} {report : String → List String}
    {s t : BootState} (hmain : s.process.threads ≠ [])
    (h : (ask K (.seccomp f) report).run s = .ok () t) :
    t.process.threads ≠ [] ∧ t.process.mainFilters = f :: s.process.mainFilters := by
  obtain ⟨-, -, q, hq, rfl⟩ := ask_eq_ok_iff.mp h
  obtain ⟨-, hq⟩ := Option.ite_none_right_eq_some.mp hq
  obtain rfl := Option.some.inj hq
  obtain ⟨stack, rest, hthreads⟩ := List.exists_cons_of_ne_nil hmain
  simp [Process.mainFilters, hthreads]

theorem mainFilters_of_installAll {fs : List SeccompFilter} {s t : BootState}
    (hmain : s.process.threads ≠ []) (h : (installAll K fs).run s = .ok () t) :
    t.process.threads ≠ [] ∧ t.process.mainFilters = fs.reverse ++ s.process.mainFilters := by
  induction fs generalizing s with
  | nil =>
      obtain ⟨-, rfl⟩ := pure_eq_ok_iff.mp h
      exact ⟨hmain, rfl⟩
  | cons f fs ih =>
      obtain ⟨_, u, hask, hrest⟩ := bind_eq_ok_iff.mp h
      obtain ⟨hthreads, hstack⟩ := mainFilters_of_ask_seccomp hmain hask
      obtain ⟨hthreads', hstack'⟩ := ih hthreads hrest
      rw [hstack'] at *
      exact ⟨hthreads', by simp [hstack]⟩

/-- Nothing can be installed after the allow filter, in whatever order the
filters come. -/
theorem installAll_ne_ok_of_allow {fs : List SeccompFilter} {g : SeccompFilter} {s t : BootState}
    (hmain : s.process.threads ≠ []) (hallow : buildAllowFilter x8664 (.errno 1) ∈ fs) :
    (installAll K (fs ++ [g])).run s ≠ .ok () t := by
  intro h
  rw [installAll, List.forM_append] at h
  obtain ⟨_, u, hfs, hg⟩ := bind_eq_ok_iff.mp h
  obtain ⟨_, v, hask, -⟩ := bind_eq_ok_iff.mp hg
  have hstack := (mainFilters_of_installAll hmain hfs).2
  have hin : buildAllowFilter x8664 (.errno 1) ∈ u.process.mainFilters := by
    rw [hstack]
    exact List.mem_append_left _ (List.mem_reverse.mpr hallow)
  exact stackVerdict_seccomp_of_allow hin _ (ask_eq_ok_iff.mp hask).1

theorem stackVerdict_read (args : Fin 6 → UInt64) : stackVerdict jailFilters 0 args = .allow := by
  have hspared : x8664.nr .read ∉ killSyscalls x8664 := nr_not_mem_killSyscalls (by decide)
  have hclone3 : x8664.nr .read ≠ x8664.nr .clone3 := by decide
  exact (jailVerdict_of_spared args hspared hclone3).trans
    (verdict_allow_listed args (.errno 1) (by decide))

theorem asks_applyFilters (hprivs : p.noNewPrivs = true)
    (hthreads : p.threads = List.replicate (m + 1) []) :
    Asks K (applyFilters K) p n 3 True ()
      { p with threads := List.replicate (m + 1) jailFilters } := by
  have hfree : p.mainFilters = [] := by
    rw [Process.mainFilters, hthreads, List.replicate_succ]
    rfl
  exact Asks.congr (Asks.seq
    (asks_ask_unfiltered hfree (perform_seccomp _ hprivs hthreads))
    (Asks.seq (asks_ask (fun args ↦ (stackVerdict_seccomp args).1) (perform_seccomp _ hprivs rfl))
      (asks_ask (fun args ↦ (stackVerdict_seccomp args).2) (perform_seccomp _ hprivs rfl))))
    rfl (by simp)

/-- A worker that has locked itself down. -/
def Process.locked (K : Kernel) (p : Process) : Process :=
  { p with
    noNewPrivs := true
    limits := jailLimits K.threads
    threads := p.threads.map fun _ ↦ jailFilters }

theorem asks_lockDownWorker (hthreads : p.threads = List.replicate (m + 1) []) :
    Asks K (lockDownWorker K) p n 9 p.WriteXorExec () (p.locked K) := by
  have hfree : p.mainFilters = [] := by
    rw [Process.mainFilters, hthreads, List.replicate_succ]
    rfl
  have hlocked : p.locked K = { p with
      noNewPrivs := true
      limits := jailLimits K.threads
      threads := List.replicate (m + 1) jailFilters } := by
    rw [Process.locked, hthreads, List.map_replicate]
  rw [hlocked]
  exact Asks.congr (Asks.seq (asks_assertNoWxMappings hfree) (Asks.seq (asks_setRlimits hfree)
    (Asks.seq (asks_ask_unfiltered hfree rfl) (asks_applyFilters rfl hthreads)))) rfl (by simp)

/-- A worker that has entered its jail. -/
def Process.jailed (K : Kernel) (p : Process) : Process :=
  Process.locked K { p with
    fds := p.fds.filter (·.number < 3)
    deathSignal := true
    threads := p.threads ++ List.replicate K.threads p.mainFilters }

theorem asks_enterJail (hthreads : p.threads = [[]]) :
    Asks K (enterJail K) p n 13 (K.ParentLives ∧ p.WriteXorExec) () (p.jailed K) := by
  have hfree : p.mainFilters = [] := by
    rw [Process.mainFilters, hthreads]
    rfl
  have hpool : p.threads ++ List.replicate K.threads p.mainFilters =
      List.replicate (K.threads + 1) [] := by
    rw [hthreads, hfree, List.replicate_succ]
    rfl
  exact Asks.congr (Asks.seq ((asks_hardenWorkerPreinput hfree).inContext _)
    (Asks.seq (asks_warmThreadPool hfree) ((asks_lockDownWorker hpool).inContext _))) rfl
    (by simp [Process.WriteXorExec])

theorem mainFilters_jailed (hthreads : p.threads = [[]]) :
    (p.jailed K).mainFilters = jailFilters := by
  simp [Process.mainFilters, Process.jailed, Process.locked, hthreads]

theorem asks_readStdin (hfilters : p.mainFilters = jailFilters) :
    Asks K (readStdin K) p n 1 True (K.stdin.take (maxInput + 1)) { p with readsInput := true } :=
  Asks.congr (Asks.seq (asks_ask (fun args ↦ by rw [hfilters]; exact stackVerdict_read args) rfl)
    asks_pure) rfl (by simp)

theorem asks_enterWorker (hthreads : p.threads = [[]]) :
    Asks K (enterWorker K) p n 14 (K.ParentLives ∧ p.WriteXorExec) (K.stdin.take (maxInput + 1))
      { p.jailed K with readsInput := true } :=
  Asks.congr (Asks.seq (asks_enterJail hthreads) (asks_readStdin (mainFilters_jailed hthreads)))
    rfl (by simp)

end Parts

/-! ## Nothing is read outside the jail -/

/-- The input is untouched. -/
def Unread (s : BootState) : Prop := s.process.readsInput = false

section Failing

variable {K : Kernel} {p q : Process} {req : Request} {report : String → List String}
  {s t : BootState} {chain : List String}

theorem readsInput_perform (hreq : req ≠ .readStdin) (h : p.perform req = some q) :
    q.readsInput = p.readsInput := by
  cases req with
  | readStdin => exact absurd rfl hreq
  | seccomp f =>
      obtain ⟨-, h⟩ := Option.ite_none_right_eq_some.mp h
      rw [← Option.some.inj h]
  | _ => rw [← Option.some.inj h]

/-- A refused request leaves the process as it is. -/
theorem process_of_ask_error (h : (ask K req report).run s = .error chain t) :
    t.process = s.process := by
  simp only [EStateM.run, ask] at h
  split at h
  · cases hperform : s.process.perform req <;> rw [hperform] at h <;> cases h
    rfl
  · cases h
    rfl

theorem keeps_ask (hreq : req ≠ .readStdin) : Keeps Unread (ask K req report) := by
  intro s hs
  unfold Unread leaves at *
  cases h : (ask K req report).run s with
  | ok u t =>
      obtain ⟨-, -, q, hq, rfl⟩ := ask_eq_ok_iff.mp h
      exact (readsInput_perform hreq hq).trans hs
  | error chain t => exact (congrArg Process.readsInput (process_of_ask_error h)).trans hs

theorem keeps_enterJail : Keeps Unread (enterJail K) := by
  have hharden : Keeps Unread (hardenWorkerPreinput K) := by
    refine (keeps_ask (by simp)).bind fun _ ↦ (keeps_ask (by simp)).bind fun _ ↦
      (keeps_ask (by simp)).bind fun _ ↦ ?_
    cases K.parent with
    | none => exact keeps_throw _
    | some ppid => exact iteInduction (fun _ ↦ keeps_throw _) fun _ ↦ keeps_pure _
  have hcheck : Keeps Unread (assertNoWxMappings K) := by
    refine (keeps_ask (by simp)).bind fun _ ↦ keeps_get.bind fun s ↦ ?_
    cases (textLines s.process.mapsFile).find? writableExecutable with
    | none => exact keeps_pure _
    | some line => exact keeps_throw _
  have hlimits : Keeps Unread (setRlimits K) :=
    (keeps_ask (by simp)).bind fun _ ↦ (keeps_ask (by simp)).bind fun _ ↦
      (keeps_ask (by simp)).bind fun _ ↦ keeps_ask (by simp)
  have hfilters : Keeps Unread (applyFilters K) :=
    (keeps_ask (by simp)).bind fun _ ↦ (keeps_ask (by simp)).bind fun _ ↦ keeps_ask (by simp)
  have hlock : Keeps Unread (lockDownWorker K) :=
    hcheck.bind fun _ ↦ hlimits.bind fun _ ↦ (keeps_ask (by simp)).bind fun _ ↦ hfilters
  exact (hharden.inContext _).bind fun _ ↦ (keeps_ask (by simp)).bind fun _ ↦ hlock.inContext _

/-- A worker that fails has not touched its input. -/
theorem unread_of_error (hs : Unread s) (h : (enterWorker K).run s = .error chain t) :
    Unread t := by
  rcases bind_eq_error_iff.mp h with hjail | ⟨_, u, hjail, hread⟩
  · exact keeps_enterJail.error hs hjail
  · rcases bind_eq_error_iff.mp hread with hask | ⟨_, v, -, hpure⟩
    · exact (congrArg Process.readsInput (process_of_ask_error hask)).trans
        (keeps_enterJail.ok hs hjail)
    · cases hpure

end Failing

/-- A process that is fully jailed. -/
structure Jailed (threads : ℕ) (p : Process) : Prop where
  fds : ∀ fd ∈ p.fds, fd.number < 3
  deathSignal : p.deathSignal = true
  noNewPrivs : p.noNewPrivs = true
  limits : p.limits = jailLimits threads
  filters : ∀ t ∈ p.threads, t = jailFilters
  maps : p.WriteXorExec

theorem jailed_jailed {K : Kernel} {p : Process} (hmaps : p.WriteXorExec) :
    Jailed K.threads { p.jailed K with readsInput := true } where
  fds fd hfd := by simpa using (List.mem_filter.mp hfd).2
  deathSignal := rfl
  noNewPrivs := rfl
  limits := rfl
  filters t ht := by
    obtain ⟨-, -, rfl⟩ := List.mem_map.mp ht
    rfl
  maps := hmaps

/-- The processor time of a worker runs out before its parent's patience. -/
theorem cpuTimeCap_lt_workerDeadline (threads : ℕ) : cpuTimeCap threads < workerDeadline threads :=
  Nat.lt_add_of_pos_right (by decide)

/-- Whichever of its requests the kernel refuses, a worker that reads its input
is fully jailed, with a living parent that outwaits it; and unless something is
refused or amiss it does read it. -/
theorem worker_reads_only_jailed (K : Kernel) (p : Process) (hthreads : p.threads = [[]])
    (hread : p.readsInput = false) :
    ((leaves (enterWorker K) ⟨p, 0⟩).process.readsInput = true →
      Jailed K.threads (leaves (enterWorker K) ⟨p, 0⟩).process ∧
        cpuTimeCap K.threads < workerDeadline K.threads ∧
        ∃ s, (enterWorker K).run ⟨p, 0⟩ = .ok (K.stdin.take (maxInput + 1)) s) ∧
    ((leaves (enterWorker K) ⟨p, 0⟩).process.readsInput = true ↔
      (∀ i < 14, K.refuses i = false) ∧ K.ParentLives ∧ p.WriteXorExec) := by
  have hspec := asks_enterWorker (K := K) (n := 0) hthreads
  have hgrants : K.Grants 0 14 ↔ ∀ i < 14, K.refuses i = false := by
    simp [Kernel.Grants]
  unfold leaves
  cases h : (enterWorker K).run ⟨p, 0⟩ with
  | ok a s =>
      obtain ⟨⟨hall, hlives, hmaps⟩, rfl, rfl⟩ := (hspec a s).mp h
      exact ⟨fun _ ↦ ⟨jailed_jailed hmaps, cpuTimeCap_lt_workerDeadline _, _, rfl⟩,
        fun _ ↦ ⟨hgrants.mp hall, hlives, hmaps⟩, fun _ ↦ rfl⟩
  | error chain s =>
      have hunread : Unread s := unread_of_error (s := ⟨p, 0⟩) hread h
      refine ⟨fun hreads ↦ absurd (hunread.symm.trans hreads) Bool.false_ne_true,
        fun hreads ↦ absurd (hunread.symm.trans hreads) Bool.false_ne_true, ?_⟩
      rintro ⟨hall, hlives, hmaps⟩
      have hok := (hspec _ _).mpr ⟨⟨hgrants.mpr hall, hlives, hmaps⟩, rfl, rfl⟩
      rw [h] at hok
      cases hok

/-! ## A worker that starts well -/

def textMapping : Mapping :=
  ⟨0x400000, 0x401000, true, false, true, false, "00000000 fd:00 17 /bin/fnprint".toList,
    by decide, false⟩

def freshProcess : Process :=
  ⟨[⟨0, false⟩, ⟨1, false⟩, ⟨2, false⟩, ⟨7, false⟩], false, false, fun _ ↦ none, [[]],
    [textMapping], false⟩

def grantingKernel : Kernel := ⟨fun _ ↦ false, fun _ ↦ "", fun _ _ ↦ 0, some 77, 8, [1]⟩

theorem worker_reads_only_jailed_fresh :
    (leaves (enterWorker grantingKernel) ⟨freshProcess, 0⟩).process.readsInput = true := by
  refine (worker_reads_only_jailed grantingKernel freshProcess rfl rfl).2.mpr
    ⟨fun _ _ ↦ rfl, by simp [Kernel.ParentLives, grantingKernel], ?_⟩
  simp [Process.WriteXorExec, freshProcess, textMapping]

end Fnprint
