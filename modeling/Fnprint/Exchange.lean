import Fnprint.Lib.Pipe
import Fnprint.Lib.Schedule
import Fnprint.LoadIndex

/-!
# The exchange with a jailed worker

The parent feeds the worker's standard input on a thread of its own, drains its
standard error on another, and reads the reply on a third, which hands it over
a channel; the main thread waits for that with a deadline, reaps the worker
with a grace period, joins the threads and looks at the exit status.  Every
thread, the clock and the worker take their steps in any order.  The worker may
do anything with its three pipes, and leave forked copies of itself that hold
their ends; `Follows` is the program it is meant to run.
-/

namespace Fnprint

/-- How a process ended, and how that prints. -/
structure ExitStatus where
  success : Bool
  text : String
  deriving DecidableEq

def ExitStatus.killed : ExitStatus := ⟨false, "signal: 9 (SIGKILL)"⟩

inductive Stdio where
  | stdin
  | stdout
  | stderr

/-- The ends of the three pipes that some of the worker's processes hold. -/
structure Ends where
  stdin : Bool
  stdout : Bool
  stderr : Bool

namespace Ends

def all : Ends := ⟨true, true, true⟩

def none : Ends := ⟨false, false, false⟩

def close (e : Ends) : Stdio → Ends
  | .stdin => { e with stdin := false }
  | .stdout => { e with stdout := false }
  | .stderr => { e with stderr := false }

def merge (e f : Ends) : Ends := ⟨e.stdin || f.stdin, e.stdout || f.stdout, e.stderr || f.stderr⟩

@[simp] theorem none_merge (e : Ends) : none.merge e = e := rfl

theorem merge_assoc (e f g : Ends) : (e.merge f).merge g = e.merge (f.merge g) := by
  simp [merge, Bool.or_assoc]

end Ends

/-- The worker with its forked copies, as the pipes see them: what they have read
and written, the ends the worker holds and those the copies hold, and how the
worker ended. -/
structure WorkerProc where
  got : List UInt8
  sawEnd : Bool
  wrote : List UInt8
  noise : ℕ
  ends : Ends
  copies : Ends
  status : Option ExitStatus

/-- The reply reader: reading, its result in the channel, or gone; the flag
says whether the result is a reply. -/
inductive ReaderThread where
  | reading
  | sent (ok : Bool)
  | ended (ok : Bool)
  deriving DecidableEq

inductive MainThread where
  | waiting
  | reaping (out : List UInt8)
  | joining (out : List UInt8) (status : ExitStatus)
  | readFailed
  | finished (res : Except String (List UInt8))

/-- What the parent runs on: the capacity of a pipe, the number of threads, and
the lossy trimmed reading of bytes as text. -/
structure Host where
  pipeCap : ℕ
  threads : ℕ
  lossyTrim : List UInt8 → String

structure Exchange where
  stdin : Pipe UInt8
  stdout : Pipe UInt8
  stderr : Pipe UInt8
  left : List UInt8
  writerDone : Bool
  out : List UInt8
  reader : ReaderThread
  errtail : List UInt8
  drainDone : Bool
  worker : WorkerProc
  main : MainThread

inductive ExchangeEvent where
  | feed (n : ℕ)
  | dropStdin
  | take (n : ℕ)
  | send
  | readFails
  | dropStdout
  | drain (n : ℕ)
  | drainEnds
  | recv
  | deadline
  | reap
  | grace
  | join
  | workerReads (n : ℕ)
  | workerSeesEnd
  | workerWrites (bytes : List UInt8)
  | workerWritesErr (bytes : List UInt8)
  | workerCloses (fd : Stdio)
  | workerForks
  | copyCloses (fd : Stdio)
  | workerExits (status : ExitStatus)

def deadlineThreadClamp : ℕ := 16

/-- The seconds the parent waits for a reply. -/
def workerDeadline (threads : ℕ) : ℕ := 120 * min threads deadlineThreadClamp + 300

/-- What is kept of the worker's standard error. -/
def errKept : ℕ := 8 * 1024

namespace Exchange

def start (payload : List UInt8) : Exchange where
  stdin := .empty
  stdout := .empty
  stderr := .empty
  left := payload
  writerDone := false
  out := []
  reader := .reading
  errtail := []
  drainDone := false
  worker := ⟨[], false, [], 0, .all, .none, none⟩
  main := .waiting

/-- The worker and its copies are left with some of their ends; a pipe end that
nobody is left with is closed. -/
def hold (x : Exchange) (ends copies : Ends) : Exchange :=
  { x with
    stdin := x.stdin.keepReader (ends.merge copies).stdin
    stdout := x.stdout.keepWriter (ends.merge copies).stdout
    stderr := x.stderr.keepWriter (ends.merge copies).stderr
    worker := { x.worker with ends := ends, copies := copies } }

/-- The worker is gone, and what is left of its ends are those of its copies. -/
def exit (x : Exchange) (copies : Ends) (status : ExitStatus) : Exchange :=
  { x.hold .none copies with
    worker := { x.worker with ends := .none, copies := copies, status := some status } }

/-- The worker's process group is killed, its copies with it. -/
def killGroup (x : Exchange) (status : ExitStatus) : Exchange := x.exit .none status

def timedOut (H : Host) : String :=
  s!"jailed worker exceeded the {workerDeadline H.threads}s time budget and was killed"

/-- What the parent makes of a reply and an exit status. -/
def verdict (H : Host) (out errtail : List UInt8) (status : ExitStatus) :
    Except String (List UInt8) :=
  let abnormal := s!"jailed worker exited abnormally ({status.text}) - likely killed by the " ++
    "sandbox or a crash in the emulator"
  if status.success then
    if maxReply < out.length then .error "jailed worker reply over size cap" else .ok out
  else if (H.lossyTrim errtail).isEmpty then .error abnormal
  else .error (abnormal ++ "; stderr: " ++ esc (H.lossyTrim errtail))

/-- One step of a thread, the clock or the worker.  The worker and its copies may
use an end as long as one of them holds it. -/
def step (H : Host) (x : Exchange) : ExchangeEvent → Option Exchange
  | .feed n =>
      if x.writerDone = false then
        (x.stdin.write H.pipeCap (x.left.take n)).map fun p ↦
          { x with stdin := p, left := x.left.drop n }
      else none
  | .dropStdin =>
      if x.writerDone = false ∧ (x.left = [] ∨ x.stdin.broken = true) then
        some { x with stdin := x.stdin.closeWriter, writerDone := true }
      else none
  | .take n =>
      if x.reader = .reading ∧ x.out.length + n ≤ maxReply + 1 then
        (x.stdout.read n).map fun r ↦ { x with stdout := r.2, out := x.out ++ r.1 }
      else none
  | .send =>
      if x.reader = .reading ∧ (x.stdout.atEnd = true ∨ x.out.length = maxReply + 1) then
        some { x with reader := .sent true }
      else none
  | .readFails => if x.reader = .reading then some { x with reader := .sent false } else none
  | .dropStdout =>
      match x.reader with
      | .sent ok => some { x with stdout := x.stdout.closeReader, reader := .ended ok }
      | _ => none
  | .drain n =>
      if x.drainDone = false then
        (x.stderr.read n).map fun r ↦
          { x with stderr := r.2, errtail := (x.errtail ++ r.1).take errKept }
      else none
  | .drainEnds =>
      if x.drainDone = false ∧ x.stderr.atEnd = true then
        some { x with stderr := x.stderr.closeReader, drainDone := true }
      else none
  | .recv =>
      match x.main, x.reader with
      | .waiting, .sent ok | .waiting, .ended ok =>
          some { x with main := if ok then .reaping x.out else .readFailed }
      | _, _ => none
  | .deadline =>
      match x.main, x.reader with
      | .waiting, .reading =>
          some { x.killGroup (x.worker.status.getD .killed) with
            main := .finished (.error (timedOut H)) }
      | _, _ => none
  | .reap =>
      match x.main, x.worker.status with
      | .reaping out, some status => some { x with main := .joining out status }
      | _, _ => none
  | .grace =>
      match x.main, x.worker.status with
      | .reaping out, none => some { x.killGroup .killed with main := .joining out .killed }
      | _, _ => none
  | .join =>
      match x.main, x.reader with
      | .joining out status, .ended _ =>
          if x.writerDone ∧ x.drainDone then
            some { x with main := .finished (verdict H out x.errtail status) }
          else none
      | .readFailed, .ended _ =>
          if x.writerDone ∧ x.worker.status.isSome then
            some { x with main := .finished (.error "reading worker reply") }
          else none
      | _, _ => none
  | .workerReads n =>
      (x.stdin.read n).map fun r ↦
        { x with stdin := r.2, worker := { x.worker with got := x.worker.got ++ r.1 } }
  | .workerSeesEnd =>
      if x.stdin.atEnd = true then
        some { x with worker := { x.worker with sawEnd := true } }
      else none
  | .workerWrites bytes =>
      (x.stdout.write H.pipeCap bytes).map fun p ↦
        { x with stdout := p, worker := { x.worker with wrote := x.worker.wrote ++ bytes } }
  | .workerWritesErr bytes =>
      (x.stderr.write H.pipeCap bytes).map fun p ↦
        { x with
          stderr := p
          worker := { x.worker with noise := x.worker.noise + bytes.length } }
  | .workerCloses fd =>
      if x.worker.status = none then
        some (x.hold (x.worker.ends.close fd) x.worker.copies)
      else none
  | .workerForks =>
      if x.worker.status = none then
        some (x.hold x.worker.ends (x.worker.ends.merge x.worker.copies))
      else none
  | .copyCloses fd => some (x.hold x.worker.ends (x.worker.copies.close fd))
  | .workerExits status =>
      if x.worker.status = none then some (x.exit x.worker.copies status) else none

/-- `step`, event by event. -/
inductive Moves (H : Host) (x : Exchange) : ExchangeEvent → Exchange → Prop where
  | feed (n : ℕ) {p : Pipe UInt8} (hdone : x.writerDone = false)
      (hp : x.stdin.write H.pipeCap (x.left.take n) = some p) :
      Moves H x (.feed n) { x with stdin := p, left := x.left.drop n }
  | dropStdin (hdone : x.writerDone = false) (hleft : x.left = [] ∨ x.stdin.broken = true) :
      Moves H x .dropStdin { x with stdin := x.stdin.closeWriter, writerDone := true }
  | take (n : ℕ) {bytes : List UInt8} {p : Pipe UInt8} (hreading : x.reader = .reading)
      (hcap : x.out.length + n ≤ maxReply + 1) (hp : x.stdout.read n = some (bytes, p)) :
      Moves H x (.take n) { x with stdout := p, out := x.out ++ bytes }
  | send (hreading : x.reader = .reading)
      (hend : x.stdout.atEnd = true ∨ x.out.length = maxReply + 1) :
      Moves H x .send { x with reader := .sent true }
  | readFails (hreading : x.reader = .reading) :
      Moves H x .readFails { x with reader := .sent false }
  | dropStdout {ok : Bool} (hsent : x.reader = .sent ok) :
      Moves H x .dropStdout { x with stdout := x.stdout.closeReader, reader := .ended ok }
  | drain (n : ℕ) {bytes : List UInt8} {p : Pipe UInt8} (hdone : x.drainDone = false)
      (hp : x.stderr.read n = some (bytes, p)) :
      Moves H x (.drain n) { x with stderr := p, errtail := (x.errtail ++ bytes).take errKept }
  | drainEnds (hdone : x.drainDone = false) (hend : x.stderr.atEnd = true) :
      Moves H x .drainEnds { x with stderr := x.stderr.closeReader, drainDone := true }
  | recv {ok : Bool} (hmain : x.main = .waiting)
      (hsent : x.reader = .sent ok ∨ x.reader = .ended ok) :
      Moves H x .recv { x with main := if ok then .reaping x.out else .readFailed }
  | deadline (hmain : x.main = .waiting) (hreading : x.reader = .reading) :
      Moves H x .deadline { x.killGroup (x.worker.status.getD .killed) with
        main := .finished (.error (timedOut H)) }
  | reap {out : List UInt8} {status : ExitStatus} (hmain : x.main = .reaping out)
      (hstatus : x.worker.status = some status) :
      Moves H x .reap { x with main := .joining out status }
  | grace {out : List UInt8} (hmain : x.main = .reaping out) (hstatus : x.worker.status = none) :
      Moves H x .grace { x.killGroup .killed with main := .joining out .killed }
  | join {out : List UInt8} {status : ExitStatus} {ok : Bool}
      (hmain : x.main = .joining out status) (hreader : x.reader = .ended ok)
      (hwriter : x.writerDone = true) (hdrain : x.drainDone = true) :
      Moves H x .join { x with main := .finished (verdict H out x.errtail status) }
  | giveUp {ok : Bool} (hmain : x.main = .readFailed) (hreader : x.reader = .ended ok)
      (hwriter : x.writerDone = true) (hstatus : x.worker.status.isSome = true) :
      Moves H x .join { x with main := .finished (.error "reading worker reply") }
  | workerReads (n : ℕ) {bytes : List UInt8} {p : Pipe UInt8}
      (hp : x.stdin.read n = some (bytes, p)) :
      Moves H x (.workerReads n)
        { x with stdin := p, worker := { x.worker with got := x.worker.got ++ bytes } }
  | workerSeesEnd (hend : x.stdin.atEnd = true) :
      Moves H x .workerSeesEnd { x with worker := { x.worker with sawEnd := true } }
  | workerWrites (bytes : List UInt8) {p : Pipe UInt8}
      (hp : x.stdout.write H.pipeCap bytes = some p) :
      Moves H x (.workerWrites bytes)
        { x with stdout := p, worker := { x.worker with wrote := x.worker.wrote ++ bytes } }
  | workerWritesErr (bytes : List UInt8) {p : Pipe UInt8}
      (hp : x.stderr.write H.pipeCap bytes = some p) :
      Moves H x (.workerWritesErr bytes)
        { x with
          stderr := p
          worker := { x.worker with noise := x.worker.noise + bytes.length } }
  | workerCloses (fd : Stdio) (halive : x.worker.status = none) :
      Moves H x (.workerCloses fd) (x.hold (x.worker.ends.close fd) x.worker.copies)
  | workerForks (halive : x.worker.status = none) :
      Moves H x .workerForks (x.hold x.worker.ends (x.worker.ends.merge x.worker.copies))
  | copyCloses (fd : Stdio) :
      Moves H x (.copyCloses fd) (x.hold x.worker.ends (x.worker.copies.close fd))
  | workerExits (status : ExitStatus) (halive : x.worker.status = none) :
      Moves H x (.workerExits status) (x.exit x.worker.copies status)

/-- What a step can do. -/
theorem step_cases {H : Host} {x y : Exchange} {e : ExchangeEvent} (h : x.step H e = some y) :
    Moves H x e y := by
  cases e with
  | feed n =>
      obtain ⟨hdone, h⟩ := Option.ite_none_right_eq_some.mp h
      obtain ⟨p, hp, rfl⟩ := Option.map_eq_some_iff.mp h
      exact .feed n hdone hp
  | dropStdin =>
      obtain ⟨⟨hdone, hleft⟩, h⟩ := Option.ite_none_right_eq_some.mp h
      obtain rfl := Option.some.inj h
      exact .dropStdin hdone hleft
  | take n =>
      obtain ⟨⟨hreading, hcap⟩, h⟩ := Option.ite_none_right_eq_some.mp h
      obtain ⟨⟨bytes, p⟩, hp, rfl⟩ := Option.map_eq_some_iff.mp h
      exact .take n hreading hcap hp
  | send =>
      obtain ⟨⟨hreading, hend⟩, h⟩ := Option.ite_none_right_eq_some.mp h
      obtain rfl := Option.some.inj h
      exact .send hreading hend
  | readFails =>
      obtain ⟨hreading, h⟩ := Option.ite_none_right_eq_some.mp h
      obtain rfl := Option.some.inj h
      exact .readFails hreading
  | dropStdout =>
      cases hsent : x.reader with
      | sent ok =>
          simp only [step, hsent, Option.some.injEq] at h
          obtain rfl := h
          exact .dropStdout hsent
      | reading => simp [step, hsent] at h
      | ended ok => simp [step, hsent] at h
  | drain n =>
      obtain ⟨hdone, h⟩ := Option.ite_none_right_eq_some.mp h
      obtain ⟨⟨bytes, p⟩, hp, rfl⟩ := Option.map_eq_some_iff.mp h
      exact .drain n hdone hp
  | drainEnds =>
      obtain ⟨⟨hdone, hend⟩, h⟩ := Option.ite_none_right_eq_some.mp h
      obtain rfl := Option.some.inj h
      exact .drainEnds hdone hend
  | recv =>
      simp only [step] at h
      split at h
      · rename_i hmain hsent
        obtain rfl := Option.some.inj h
        exact .recv hmain (Or.inl hsent)
      · rename_i hmain hsent
        obtain rfl := Option.some.inj h
        exact .recv hmain (Or.inr hsent)
      · cases h
  | deadline =>
      simp only [step] at h
      split at h
      · rename_i hmain hreading
        obtain rfl := Option.some.inj h
        exact .deadline hmain hreading
      · cases h
  | reap =>
      simp only [step] at h
      split at h
      · rename_i hmain hstatus
        obtain rfl := Option.some.inj h
        exact .reap hmain hstatus
      · cases h
  | grace =>
      simp only [step] at h
      split at h
      · rename_i hmain hstatus
        obtain rfl := Option.some.inj h
        exact .grace hmain hstatus
      · cases h
  | join =>
      simp only [step] at h
      split at h
      · rename_i hmain hreader
        obtain ⟨⟨hwriter, hdrain⟩, h⟩ := Option.ite_none_right_eq_some.mp h
        obtain rfl := Option.some.inj h
        exact .join hmain hreader hwriter hdrain
      · rename_i hmain hreader
        obtain ⟨⟨hwriter, hstatus⟩, h⟩ := Option.ite_none_right_eq_some.mp h
        obtain rfl := Option.some.inj h
        exact .giveUp hmain hreader hwriter hstatus
      · cases h
  | workerReads n =>
      obtain ⟨⟨bytes, p⟩, hp, rfl⟩ := Option.map_eq_some_iff.mp h
      exact .workerReads n hp
  | workerSeesEnd =>
      obtain ⟨hend, h⟩ := Option.ite_none_right_eq_some.mp h
      obtain rfl := Option.some.inj h
      exact .workerSeesEnd hend
  | workerWrites bytes =>
      obtain ⟨p, hp, rfl⟩ := Option.map_eq_some_iff.mp h
      exact .workerWrites bytes hp
  | workerWritesErr bytes =>
      obtain ⟨p, hp, rfl⟩ := Option.map_eq_some_iff.mp h
      exact .workerWritesErr bytes hp
  | workerCloses fd =>
      obtain ⟨halive, h⟩ := Option.ite_none_right_eq_some.mp h
      obtain rfl := Option.some.inj h
      exact .workerCloses fd halive
  | workerForks =>
      obtain ⟨halive, h⟩ := Option.ite_none_right_eq_some.mp h
      obtain rfl := Option.some.inj h
      exact .workerForks halive
  | copyCloses fd =>
      obtain rfl := Option.some.inj h
      exact .copyCloses fd
  | workerExits status =>
      obtain ⟨halive, h⟩ := Option.ite_none_right_eq_some.mp h
      obtain rfl := Option.some.inj h
      exact .workerExits status halive

theorem step_of_moves {H : Host} {x y : Exchange} {e : ExchangeEvent} (h : Moves H x e y) :
    x.step H e = some y := by
  cases h with
  | feed n hdone hp => simp [step, hdone, hp]
  | dropStdin hdone hleft => exact if_pos ⟨hdone, hleft⟩
  | take n hreading hcap hp =>
      rw [step, if_pos ⟨hreading, hcap⟩, hp]
      rfl
  | send hreading hend => exact if_pos ⟨hreading, hend⟩
  | readFails hreading => exact if_pos hreading
  | dropStdout hsent => simp [step, hsent]
  | drain n hdone hp => simp [step, hdone, hp]
  | drainEnds hdone hend => exact if_pos ⟨hdone, hend⟩
  | recv hmain hsent => rcases hsent with hsent | hsent <;> simp [step, hmain, hsent]
  | deadline hmain hreading => simp [step, hmain, hreading]
  | reap hmain hstatus => simp [step, hmain, hstatus]
  | grace hmain hstatus => simp [step, hmain, hstatus]
  | join hmain hreader hwriter hdrain => simp [step, hmain, hreader, hwriter, hdrain]
  | giveUp hmain hreader hwriter hstatus => simp [step, hmain, hreader, hwriter, hstatus]
  | workerReads n hp =>
      rw [step, hp]
      rfl
  | workerSeesEnd hend => exact if_pos hend
  | workerWrites bytes hp =>
      rw [step, hp]
      rfl
  | workerWritesErr bytes hp =>
      rw [step, hp]
      rfl
  | workerCloses fd halive => exact if_pos halive
  | workerForks halive => exact if_pos halive
  | copyCloses fd => rfl
  | workerExits status halive => exact if_pos halive

end Exchange

end Fnprint
