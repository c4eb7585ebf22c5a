import Fnprint.Exchange

/-!
# What an exchange delivers

Whatever the worker does and in whatever order the threads run, each pipe is in
order.  The worker has read a front of the payload, the parent a front of what
the worker wrote; a reply is handed to the caller only when it is all the worker
wrote, within the cap, and the worker ended well.
-/

namespace Fnprint.Exchange

variable {H : Host} {x y : Exchange} {e : ExchangeEvent} {payload : List UInt8}

/-- The way of the payload into the worker. -/
structure Feeding (payload left : List UInt8) (writerDone : Bool) (stdin : Pipe UInt8)
    (got : List UInt8) (sawEnd : Bool) : Prop where
  carried : ∃ fed, fed ++ left = payload ∧ stdin.Carries fed got
  writer : stdin.writer = !writerDone
  done : writerDone = true → stdin.reader = true → left = []
  ended : sawEnd = true → got = payload

/-- The way of the reply out of the worker. -/
structure Replying (wrote : List UInt8) (stdout : Pipe UInt8) (out : List UInt8)
    (reader : ReaderThread) : Prop where
  carried : stdout.Carries wrote out
  reader_open : stdout.reader = false ↔ ∃ ok, reader = .ended ok
  complete : reader = .sent true ∨ reader = .ended true →
    out.length = maxReply + 1 ∨ stdout.writer = false ∧ out = wrote

/-- An end is open as long as the worker or a copy of it holds it.  A worker that
has ended holds none. -/
structure Released (w : WorkerProc) (stdin stdout stderr : Pipe UInt8) : Prop where
  stdin : stdin.reader = (w.ends.merge w.copies).stdin
  stdout : stdout.writer = (w.ends.merge w.copies).stdout
  stderr : stderr.writer = (w.ends.merge w.copies).stderr
  ended : w.status.isSome = true → w.ends = .none

/-- What the main thread knows where it is. -/
def Knows (out : List UInt8) (reader : ReaderThread) (status : Option ExitStatus) :
    MainThread → Prop
  | .waiting => True
  | .reaping o => o = out ∧ (reader = .sent true ∨ reader = .ended true)
  | .joining o st => (o = out ∧ (reader = .sent true ∨ reader = .ended true)) ∧ status = some st
  | .readFailed => reader = .sent false ∨ reader = .ended false
  | .finished (.ok o) => (o = out ∧ reader = .ended true) ∧ o.length ≤ maxReply ∧
      ∃ st, status = some st ∧ st.success = true
  | .finished (.error _) => True

structure Safe (payload : List UInt8) (x : Exchange) : Prop where
  feeding : Feeding payload x.left x.writerDone x.stdin x.worker.got x.worker.sawEnd
  replying : Replying x.worker.wrote x.stdout x.out x.reader
  draining : x.stderr.reader = !x.drainDone
  released : Released x.worker x.stdin x.stdout x.stderr
  knows : Knows x.out x.reader x.worker.status x.main

theorem safe_start (payload : List UInt8) : Safe payload (start payload) where
  feeding := ⟨⟨[], rfl, Pipe.carries_empty⟩, rfl, fun h ↦ absurd h Bool.false_ne_true,
    fun h ↦ absurd h Bool.false_ne_true⟩
  replying := ⟨Pipe.carries_empty, by simp [start, Pipe.empty], by simp [start]⟩
  draining := rfl
  released := ⟨rfl, rfl, rfl, by simp [start]⟩
  knows := trivial

/-! ## One step -/

/-- A reader that is given up takes nothing with it. -/
theorem Feeding.keepReader {left got : List UInt8} {writerDone sawEnd : Bool} {stdin : Pipe UInt8}
    (h : Feeding payload left writerDone stdin got sawEnd) (held : Bool) :
    Feeding payload left writerDone (stdin.keepReader held) got sawEnd := by
  obtain ⟨fed, hfed, hcarried⟩ := h.carried
  refine ⟨⟨fed, hfed, hcarried.keepReader held⟩, ?_, fun hdone hr ↦ h.done hdone ?_, h.ended⟩
  · rw [Pipe.keepReader_writer, h.writer]
  · rw [Pipe.keepReader_reader, Bool.and_eq_true] at hr
    exact hr.1

theorem Feeding.step (h : Moves H x e y)
    (hx : Feeding payload x.left x.writerDone x.stdin x.worker.got x.worker.sawEnd) :
    Feeding payload y.left y.writerDone y.stdin y.worker.got y.worker.sawEnd := by
  obtain ⟨fed, hfed, hcarried⟩ := hx.carried
  cases h with
  | feed n hdone hp =>
      obtain ⟨-, -, -, -, rfl⟩ := Pipe.write_eq_some_iff.mp hp
      refine ⟨⟨fed ++ x.left.take n, ?_, hcarried.write hp⟩, hx.writer, ?_, hx.ended⟩
      · rw [List.append_assoc, List.take_append_drop, hfed]
      · intro h _
        rw [hdone] at h
        exact absurd h Bool.false_ne_true
  | dropStdin hdone hleft =>
      refine ⟨⟨fed, hfed, hcarried.closeWriter⟩, rfl, fun _ hr ↦ ?_, hx.ended⟩
      rcases hleft with hleft | hbroken
      · exact hleft
      · exact absurd (hr.symm.trans (Pipe.broken_iff.mp hbroken).2) (by simp)
  | @workerReads n bytes p hp =>
      obtain ⟨-, -, -, -, rfl⟩ := Pipe.read_eq_some_iff.mp hp
      refine ⟨⟨fed, hfed, hcarried.read hp⟩, hx.writer, hx.done, fun hsaw ↦ ?_⟩
      -- past the end of the payload there is nothing to read
      have hfull : x.worker.got = payload := hx.ended hsaw
      have hfront : x.worker.got ++ bytes <+: payload :=
        (hcarried.read hp).prefix_sent.trans ⟨x.left, hfed⟩
      have hnil : bytes = [] := by
        have hlen := hfront.length_le
        rw [hfull, List.length_append] at hlen
        exact List.length_eq_zero_iff.mp (by omega)
      change x.worker.got ++ bytes = payload
      rw [hnil, List.append_nil, hfull]
  | workerSeesEnd hend =>
      refine ⟨⟨fed, hfed, hcarried⟩, hx.writer, hx.done, fun _ ↦ ?_⟩
      obtain ⟨hr, -, hw⟩ := Pipe.atEnd_iff.mp hend
      have hdone : x.writerDone = true := by simpa [hw] using hx.writer
      rw [hcarried.eq_of_atEnd hend, ← hfed, hx.done hdone hr, List.append_nil]
  | workerCloses | workerForks | copyCloses | workerExits => exact hx.keepReader _
  | deadline | grace => exact hx.keepReader (Ends.none.merge .none).stdin
  | _ => exact hx

/-- A writer that is given up takes nothing with it. -/
theorem Replying.keepWriter {wrote out : List UInt8} {stdout : Pipe UInt8} {reader : ReaderThread}
    (h : Replying wrote stdout out reader) (held : Bool) :
    Replying wrote (stdout.keepWriter held) out reader := by
  refine ⟨h.carried.keepWriter held, ?_, fun hsent ↦ (h.complete hsent).imp_right ?_⟩
  · rw [Pipe.keepWriter_reader, h.reader_open]
  · rintro ⟨hclosed, hout⟩
    exact ⟨by rw [Pipe.keepWriter_writer, hclosed, Bool.false_and], hout⟩

theorem Replying.step (h : Moves H x e y)
    (hx : Replying x.worker.wrote x.stdout x.out x.reader) :
    Replying y.worker.wrote y.stdout y.out y.reader := by
  cases h with
  | @take n bytes p hreading hcap hp =>
      obtain ⟨-, -, -, -, rfl⟩ := Pipe.read_eq_some_iff.mp hp
      refine ⟨hx.carried.read hp, hx.reader_open, fun h ↦ ?_⟩
      rw [hreading] at h
      rcases h with h | h <;> cases h
  | send hreading hend =>
      refine ⟨hx.carried, ?_, fun _ ↦ ?_⟩
      · rw [hx.reader_open, hreading]
        simp
      · rcases hend with hend | hfull
        · exact Or.inr ⟨(Pipe.atEnd_iff.mp hend).2.2, hx.carried.eq_of_atEnd hend⟩
        · exact Or.inl hfull
  | readFails hreading =>
      refine ⟨hx.carried, ?_, by simp⟩
      rw [hx.reader_open, hreading]
      simp
  | @dropStdout ok hsent =>
      refine ⟨hx.carried.closeReader, by simp, fun h ↦ ?_⟩
      have hok : x.reader = .sent true := by
        rw [hsent]
        simpa using h
      exact hx.complete (Or.inl hok)
  | @workerWrites bytes p hp =>
      obtain ⟨hopen, -, -, -, rfl⟩ := Pipe.write_eq_some_iff.mp hp
      refine ⟨hx.carried.write hp, hx.reader_open, fun h ↦ ?_⟩
      rcases hx.complete h with hfull | ⟨hclosed, -⟩
      · exact Or.inl hfull
      · exact absurd (hopen.symm.trans hclosed) (by simp)
  | workerCloses | workerForks | copyCloses | workerExits => exact hx.keepWriter _
  | deadline | grace => exact hx.keepWriter (Ends.none.merge .none).stdout
  | _ => exact hx

theorem draining_step (h : Moves H x e y) (hx : x.stderr.reader = !x.drainDone) :
    y.stderr.reader = !y.drainDone := by
  cases h with
  | drain n hdone hp =>
      obtain ⟨-, -, -, -, rfl⟩ := Pipe.read_eq_some_iff.mp hp
      exact hx
  | drainEnds hdone hend => rfl
  | workerWritesErr bytes hp =>
      obtain ⟨-, -, -, -, rfl⟩ := Pipe.write_eq_some_iff.mp hp
      exact hx
  | workerCloses | workerForks | copyCloses | deadline | grace | workerExits =>
      exact (Pipe.keepWriter_reader).trans hx
  | _ => exact hx

/-- Ends are only given up, or handed to a copy. -/
theorem Released.hold (hx : Released x.worker x.stdin x.stdout x.stderr) {ends copies : Ends}
    (hle : (x.worker.ends.merge x.worker.copies).merge (ends.merge copies) =
      x.worker.ends.merge x.worker.copies)
    (hended : x.worker.status.isSome = true → ends = .none) :
    Released (x.hold ends copies).worker (x.hold ends copies).stdin (x.hold ends copies).stdout
      (x.hold ends copies).stderr := by
  have hkept : ∀ {b c : Bool}, (b || c) = b → (b && c) = c := by decide
  refine ⟨?_, ?_, ?_, hended⟩
  · rw [Exchange.hold, Pipe.keepReader_reader, hx.stdin]
    exact hkept (congrArg Ends.stdin hle)
  · rw [Exchange.hold, Pipe.keepWriter_writer, hx.stdout]
    exact hkept (congrArg Ends.stdout hle)
  · rw [Exchange.hold, Pipe.keepWriter_writer, hx.stderr]
    exact hkept (congrArg Ends.stderr hle)

theorem Released.exit (hx : Released x.worker x.stdin x.stdout x.stderr) {copies : Ends}
    (hle : x.worker.copies.merge copies = x.worker.copies) (status : ExitStatus) :
    Released (x.exit copies status).worker (x.exit copies status).stdin
      (x.exit copies status).stdout (x.exit copies status).stderr := by
  have hmerge : (x.worker.ends.merge x.worker.copies).merge (Ends.none.merge copies) =
      x.worker.ends.merge x.worker.copies := by
    rw [Ends.none_merge, Ends.merge_assoc, hle]
  have hheld := hx.hold hmerge fun _ ↦ rfl
  exact ⟨hheld.stdin, hheld.stdout, hheld.stderr, fun _ ↦ rfl⟩

theorem Released.step (h : Moves H x e y) (hx : Released x.worker x.stdin x.stdout x.stderr) :
    Released y.worker y.stdin y.stdout y.stderr := by
  have hends : x.worker.status = none → ∀ ends : Ends, x.worker.status.isSome = true →
      ends = .none := fun halive _ hgone ↦ absurd hgone (by simp [halive])
  cases h with
  | feed n hdone hp =>
      obtain ⟨-, -, -, -, rfl⟩ := Pipe.write_eq_some_iff.mp hp
      exact ⟨hx.stdin, hx.stdout, hx.stderr, hx.ended⟩
  | dropStdin hdone hleft => exact ⟨hx.stdin, hx.stdout, hx.stderr, hx.ended⟩
  | take n hreading hcap hp =>
      obtain ⟨-, -, -, -, rfl⟩ := Pipe.read_eq_some_iff.mp hp
      exact ⟨hx.stdin, hx.stdout, hx.stderr, hx.ended⟩
  | dropStdout hsent => exact ⟨hx.stdin, hx.stdout, hx.stderr, hx.ended⟩
  | drain n hdone hp =>
      obtain ⟨-, -, -, -, rfl⟩ := Pipe.read_eq_some_iff.mp hp
      exact ⟨hx.stdin, hx.stdout, hx.stderr, hx.ended⟩
  | drainEnds hdone hend => exact ⟨hx.stdin, hx.stdout, hx.stderr, hx.ended⟩
  | workerReads n hp =>
      obtain ⟨-, -, -, -, rfl⟩ := Pipe.read_eq_some_iff.mp hp
      exact ⟨hx.stdin, hx.stdout, hx.stderr, hx.ended⟩
  | workerSeesEnd hend => exact ⟨hx.stdin, hx.stdout, hx.stderr, hx.ended⟩
  | workerWrites bytes hp =>
      obtain ⟨-, -, -, -, rfl⟩ := Pipe.write_eq_some_iff.mp hp
      exact ⟨hx.stdin, hx.stdout, hx.stderr, hx.ended⟩
  | workerWritesErr bytes hp =>
      obtain ⟨-, -, -, -, rfl⟩ := Pipe.write_eq_some_iff.mp hp
      exact ⟨hx.stdin, hx.stdout, hx.stderr, hx.ended⟩
  | deadline | grace => exact hx.exit (by simp [Ends.merge, Ends.none]) _
  | workerExits status halive => exact hx.exit (by simp [Ends.merge]) _
  | workerCloses fd halive =>
      refine hx.hold ?_ (hends halive _)
      cases fd <;> simp [Ends.merge, Ends.close]
  | workerForks halive =>
      refine hx.hold ?_ (hends halive _)
      simp [Ends.merge]
  | copyCloses fd =>
      refine hx.hold ?_ hx.ended
      cases fd <;> simp [Ends.merge, Ends.close] <;> grind
  | _ => exact hx

/-- A reply is only taken for good from a worker that ended well, within the cap. -/
theorem verdict_eq_ok {out errtail o : List UInt8} {status : ExitStatus}
    (h : verdict H out errtail status = .ok o) :
    o = out ∧ o.length ≤ maxReply ∧ status.success = true := by
  unfold verdict at h
  dsimp only at h
  split at h
  · rename_i hsuccess
    split at h
    · cases h
    · rename_i hcap
      obtain rfl := Except.ok.inj h
      exact ⟨rfl, not_lt.mp hcap, hsuccess⟩
  · split at h <;> cases h

/-- Before the reader has a result the main thread knows of none. -/
theorem Knows.of_reading {out out' : List UInt8} {reader : ReaderThread}
    {status status' : Option ExitStatus} {m : MainThread} (h : Knows out .reading status m) :
    Knows out' reader status' m := by
  cases m with
  | waiting => trivial
  | reaping o => rcases h.2 with h | h <;> cases h
  | joining o st => rcases h.1.2 with h | h <;> cases h
  | readFailed => rcases h with h | h <;> cases h
  | finished res =>
      cases res with
      | ok o => cases h.1.2
      | error err => trivial

theorem Knows.of_alive {out : List UInt8} {reader : ReaderThread} {status : Option ExitStatus}
    {m : MainThread} (h : Knows out reader none m) : Knows out reader status m := by
  cases m with
  | waiting => trivial
  | reaping o => exact h
  | joining o st => cases h.2
  | readFailed => exact h
  | finished res =>
      cases res with
      | ok o =>
          obtain ⟨-, -, st, hst, -⟩ := h
          cases hst
      | error err => trivial

theorem Knows.ended {out : List UInt8} {ok : Bool} {status : Option ExitStatus} {m : MainThread}
    (h : Knows out (.sent ok) status m) : Knows out (.ended ok) status m := by
  cases m with
  | waiting => trivial
  | reaping o => exact ⟨h.1, by simpa using h.2⟩
  | joining o st => exact ⟨⟨h.1.1, by simpa using h.1.2⟩, h.2⟩
  | readFailed => simpa [Knows] using h
  | finished res =>
      cases res with
      | ok o => cases h.1.2
      | error err => trivial

theorem Knows.step (h : Moves H x e y) (hx : Knows x.out x.reader x.worker.status x.main) :
    Knows y.out y.reader y.worker.status y.main := by
  cases h with
  | take n hreading hcap hp =>
      rw [hreading] at hx
      exact hx.of_reading
  | send hreading hend =>
      rw [hreading] at hx
      exact hx.of_reading
  | readFails hreading =>
      rw [hreading] at hx
      exact hx.of_reading
  | dropStdout hsent =>
      rw [hsent] at hx
      exact hx.ended
  | @recv ok hmain hsent =>
      cases ok with
      | true => exact ⟨rfl, hsent⟩
      | false => exact hsent
  | deadline hmain hreading => trivial
  | @reap out status hmain hstatus =>
      rw [hmain] at hx
      exact ⟨hx, hstatus⟩
  | grace hmain hstatus =>
      rw [hmain] at hx
      exact ⟨hx, rfl⟩
  | @join out status ok hmain hreader hwriter hdrain =>
      rw [hmain] at hx
      change Knows x.out x.reader x.worker.status (.finished (verdict H out x.errtail status))
      cases hv : verdict H out x.errtail status with
      | error err => trivial
      | ok o =>
          obtain ⟨ho, hcap, hsuccess⟩ := verdict_eq_ok hv
          refine ⟨⟨ho.trans hx.1.1, ?_⟩, hcap, status, hx.2, hsuccess⟩
          have hok := hx.1.2
          rw [hreader] at hok ⊢
          simpa using hok
  | giveUp hmain hreader hwriter hstatus => trivial
  | workerExits status halive =>
      rw [halive] at hx
      exact hx.of_alive
  | _ => exact hx

theorem Safe.step (hx : Safe payload x) (h : x.step H e = some y) : Safe payload y :=
  have hmoves := step_cases h
  ⟨hx.feeding.step hmoves, hx.replying.step hmoves, draining_step hmoves hx.draining,
    hx.released.step hmoves, hx.knows.step hmoves⟩

/-! ## Every run -/

/-- The threads, the clock and the worker in any order, the worker at will. -/
def Reaches (H : Host) (payload : List UInt8) (x : Exchange) : Prop :=
  ∃ l, Schedule.Leads (Exchange.step H) (fun _ _ ↦ True) (start payload) l x

theorem Reaches.safe (h : Reaches H payload x) : Safe payload x := by
  obtain ⟨l, hl⟩ := h
  exact hl.invariant (fun _ _ _ hs _ hstep ↦ hs.step hstep) (safe_start payload)

theorem Safe.finished_ok (hx : Safe payload x) {out : List UInt8}
    (hout : x.main = .finished (.ok out)) :
    out = x.worker.wrote ∧ out.length ≤ maxReply ∧
      ∃ status, x.worker.status = some status ∧ status.success = true := by
  have hknows := hx.knows
  rw [hout] at hknows
  obtain ⟨⟨rfl, hreader⟩, hcap, hstatus⟩ := hknows
  refine ⟨?_, hcap, hstatus⟩
  rcases hx.replying.complete (Or.inr hreader) with hfull | ⟨-, heq⟩
  · omega
  · exact heq

/-- In every run nothing is lost, added or reordered on either way, and what the
caller is handed is all that the worker wrote before it ended well. -/
theorem exchange_delivers (H : Host) (payload : List UInt8) (x : Exchange)
    (h : Reaches H payload x) :
    x.worker.got <+: payload ∧ (x.worker.sawEnd = true → x.worker.got = payload) ∧
    x.out <+: x.worker.wrote ∧
    ∀ out, x.main = .finished (.ok out) →
      out = x.worker.wrote ∧ out.length ≤ maxReply ∧
      ∃ status, x.worker.status = some status ∧ status.success = true := by
  have hsafe := h.safe
  obtain ⟨fed, hfed, hcarried⟩ := hsafe.feeding.carried
  exact ⟨hcarried.prefix_sent.trans ⟨_, hfed⟩, hsafe.feeding.ended,
    hsafe.replying.carried.prefix_sent, fun out hout ↦ hsafe.finished_ok hout⟩

/-- Pipes of one byte. -/
def narrowHost : Host := ⟨1, 1, fun _ ↦ ""⟩

/-- A byte in, a byte out. -/
def echoRun : List ExchangeEvent :=
  [.feed 1, .dropStdin, .workerReads 1, .workerSeesEnd, .workerWrites [9],
    .workerExits ⟨true, "exit status: 0"⟩, .take 1, .send, .recv, .reap, .dropStdout, .drainEnds,
    .join]

def echoEnd : Exchange where
  stdin := ⟨[], false, false⟩
  stdout := ⟨[], false, false⟩
  stderr := ⟨[], false, false⟩
  left := []
  writerDone := true
  out := [9]
  reader := .ended true
  errtail := []
  drainDone := true
  worker := ⟨[7], true, [9], 0, .none, .none, some ⟨true, "exit status: 0"⟩⟩
  main := .finished (.ok [9])

theorem exchange_delivers_echo :
    echoEnd.worker.got <+: [7] ∧ (echoEnd.worker.sawEnd = true → echoEnd.worker.got = [7]) ∧
    echoEnd.out <+: echoEnd.worker.wrote ∧
    ∀ out, echoEnd.main = .finished (.ok out) →
      out = echoEnd.worker.wrote ∧ out.length ≤ maxReply ∧
      ∃ status, echoEnd.worker.status = some status ∧ status.success = true :=
  exchange_delivers narrowHost [7] echoEnd ⟨echoRun, Schedule.leads_of_foldlM rfl⟩

end Fnprint.Exchange
