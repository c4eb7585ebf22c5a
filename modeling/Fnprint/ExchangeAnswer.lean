import Fnprint.ExchangeLive

/-!
# An exchange comes to its answer

A worker that follows its program reads its input to the end or to the cap,
writes its answer and exits; it may be chatty on its standard error.  However
small the pipes are and however the threads are scheduled, no run of such an
exchange is stuck or endless before the parent has the whole answer, as long as
neither the deadline nor the grace period runs out.
-/

namespace Fnprint.Exchange

open Schedule

variable {H : Host} {x y : Exchange} {e : ExchangeEvent} {payload : List UInt8}
  {answer : List UInt8 → List UInt8} {chatter : ℕ}

/-- The worker has its whole input, or more than it will take. -/
def DoneReading (w : WorkerProc) : Prop := w.sawEnd = true ∨ w.got.length = maxInput + 1

/-- The input as the worker reads it. -/
def received (payload : List UInt8) : List UInt8 := payload.take (maxInput + 1)

/-- The worker's program: input to answer, with some chatter on the side.  A
write that is refused ends it with a failure. -/
def Follows (answer : List UInt8 → List UInt8) (chatter : ℕ) (x : Exchange) :
    ExchangeEvent → Prop
  | .workerReads n => ¬DoneReading x.worker ∧ x.worker.got.length + n ≤ maxInput + 1
  | .workerSeesEnd => ¬DoneReading x.worker
  | .workerWrites bytes =>
      DoneReading x.worker ∧ x.worker.wrote ++ bytes <+: answer x.worker.got
  | .workerWritesErr bytes => x.worker.noise + bytes.length ≤ chatter
  | .workerExits status =>
      DoneReading x.worker ∧
        if status.success then x.worker.wrote = answer x.worker.got else x.stdout.broken = true
  | .workerCloses _ | .workerForks | .copyCloses _ | .readFails | .deadline | .grace => False
  | .feed _ | .dropStdin | .take _ | .send | .dropStdout | .drain _ | .drainEnds | .recv | .reap
  | .join => True

/-- An exchange on its way to the answer `reply`. -/
structure OnTrack (payload reply : List UInt8) (x : Exchange) : Prop where
  safe : Safe payload x
  short : x.worker.got.length ≤ maxInput + 1
  wrote : x.worker.wrote <+: reply
  started : x.worker.wrote ≠ [] → DoneReading x.worker
  stdin : x.worker.status = none → x.stdin.reader = true
  stdout : x.worker.status = none → x.stdout.writer = true
  copies : x.worker.copies = .none
  reader : x.reader ≠ .sent false ∧ x.reader ≠ .ended false
  exited : ∀ status, x.worker.status = some status →
    status.success = true ∧ x.worker.wrote = reply
  main : ∀ res, x.main = .finished res → res = .ok reply

theorem onTrack_start (payload reply : List UInt8) : OnTrack payload reply (start payload) where
  safe := safe_start payload
  short := Nat.zero_le _
  wrote := List.nil_prefix
  started := fun h ↦ absurd rfl h
  stdin := fun _ ↦ rfl
  stdout := fun _ ↦ rfl
  copies := rfl
  reader := by simp [start]
  exited := by simp [start]
  main := by simp [start]

/-- Done reading, the worker has the input as it is meant to. -/
theorem got_eq_received (hx : Safe payload x) (hshort : x.worker.got.length ≤ maxInput + 1)
    (hdone : DoneReading x.worker) : x.worker.got = received payload := by
  obtain ⟨fed, hfed, hcarried⟩ := hx.feeding.carried
  have hfront : x.worker.got <+: payload := hcarried.prefix_sent.trans ⟨_, hfed⟩
  rcases hdone with hend | hfull
  · have hgot := hx.feeding.ended hend
    rw [hgot] at hshort ⊢
    exact (List.take_of_length_le hshort).symm
  · rw [received, ← hfull]
    exact List.prefix_iff_eq_take.mp hfront

/-- A bound on the steps left to the answer. -/
def answerWork (reply : List UInt8) (chatter : ℕ) (x : Exchange) : ℕ :=
  2 * x.left.length + pending x.writerDone + x.stdin.buf.length + pending x.worker.sawEnd +
    2 * (reply.length - x.worker.wrote.length) + x.stdout.buf.length + readerWork x.reader +
    2 * (chatter - x.worker.noise) + x.stderr.buf.length + pending x.drainDone +
    mainWork x.main + pending x.worker.status.isSome

section Track

variable {reply : List UInt8} (hfit : reply.length ≤ maxReply)

include hfit

theorem OnTrack.length_out_le (hx : OnTrack payload reply x) : x.out.length ≤ maxReply :=
  (hx.safe.replying.carried.prefix_sent.trans hx.wrote).length_le.trans hfit

/-- A result of the reader is the whole of what was written. -/
theorem OnTrack.out_eq (hx : OnTrack payload reply x)
    (h : x.reader = .sent true ∨ x.reader = .ended true) :
    x.stdout.writer = false ∧ x.out = x.worker.wrote := by
  have hlen := hx.length_out_le hfit
  rcases hx.safe.replying.complete h with hfull | h
  · omega
  · exact h

/-- As long as the worker lives, the reader is there. -/
theorem OnTrack.reading (hx : OnTrack payload reply x) (halive : x.worker.status = none) :
    x.reader = .reading := by
  have hopen := hx.stdout halive
  cases hreader : x.reader with
  | reading => rfl
  | sent ok =>
      cases ok with
      | false => exact absurd hreader hx.reader.1
      | true => exact absurd (hopen.symm.trans (hx.out_eq hfit (Or.inl hreader)).1) (by simp)
  | ended ok =>
      cases ok with
      | false => exact absurd hreader hx.reader.2
      | true => exact absurd (hopen.symm.trans (hx.out_eq hfit (Or.inr hreader)).1) (by simp)

theorem OnTrack.stdout_open (hx : OnTrack payload reply x) (halive : x.worker.status = none) :
    x.stdout.reader = true := by
  by_contra hclosed
  obtain ⟨ok, hok⟩ := hx.safe.replying.reader_open.mp (Bool.eq_false_iff.mpr hclosed)
  rw [hx.reading hfit halive] at hok
  cases hok

/-- The verdict on a worker that has answered. -/
theorem OnTrack.verdict_eq (hx : OnTrack payload reply x) {out : List UInt8} {status : ExitStatus}
    (hmain : x.main = .joining out status) : verdict H out x.errtail status = .ok reply := by
  have hknows := hx.safe.knows
  rw [hmain] at hknows
  obtain ⟨⟨rfl, hreply⟩, hstatus⟩ := hknows
  obtain ⟨hsuccess, hwrote⟩ := hx.exited status hstatus
  have hlen := hx.length_out_le hfit
  rw [verdict, if_pos hsuccess, if_neg (not_lt.mpr hlen), (hx.out_eq hfit hreply).2, hwrote]

theorem OnTrack.step (hreply : answer (received payload) = reply) (hx : OnTrack payload reply x)
    (he : Follows answer chatter x e) (hstep : x.step H e = some y) : OnTrack payload reply y := by
  have hsafe := hx.safe.step hstep
  have hgot := got_eq_received hx.safe hx.short
  cases step_cases hstep with
  | feed n hdone hp =>
      obtain ⟨-, -, -, -, rfl⟩ := Pipe.write_eq_some_iff.mp hp
      exact { hx with safe := hsafe }
  | take n hreading hcap hp =>
      obtain ⟨-, -, -, -, rfl⟩ := Pipe.read_eq_some_iff.mp hp
      exact { hx with safe := hsafe }
  | send hreading hend =>
      exact { hx with safe := hsafe, reader := by simp }
  | @dropStdout ok hsent =>
      refine { hx with safe := hsafe, reader := ?_ }
      cases ok with
      | false => exact absurd hsent hx.reader.1
      | true => simp
  | @recv ok hmain hsent =>
      refine { hx with safe := hsafe, main := fun res hres ↦ ?_ }
      cases ok <;> cases hres
  | reap hmain hstatus =>
      exact { hx with safe := hsafe, main := fun res hres ↦ by cases hres }
  | join hmain hreader hwriter hdrain =>
      refine { hx with safe := hsafe, main := fun res hres ↦ ?_ }
      rw [← MainThread.finished.inj hres]
      exact hx.verdict_eq hfit hmain
  | giveUp hmain hreader hwriter hstatus =>
      have hknows := hx.safe.knows
      rw [hmain] at hknows
      rcases hknows with hsent | hended
      · exact absurd hsent hx.reader.1
      · exact absurd hended hx.reader.2
  | @workerReads n bytes p hp =>
      obtain ⟨hopen, -, hle, rfl, rfl⟩ := Pipe.read_eq_some_iff.mp hp
      refine { hx with
        safe := hsafe, short := ?_, started := fun hne ↦ absurd (hx.started hne) he.1 }
      change (x.worker.got ++ x.stdin.buf.take n).length ≤ maxInput + 1
      rw [List.length_append, List.length_take, min_eq_left hle]
      exact he.2
  | workerSeesEnd hend =>
      exact { hx with safe := hsafe, started := fun _ ↦ Or.inl rfl }
  | @workerWrites bytes p hp =>
      obtain ⟨hopen, -, -, -, rfl⟩ := Pipe.write_eq_some_iff.mp hp
      refine { hx with safe := hsafe, wrote := ?_, started := fun _ ↦ he.1, exited := ?_ }
      · rw [← hreply, ← hgot he.1]
        exact he.2
      · -- nobody else has the end of an ended worker
        intro status hstatus
        have hends := hx.safe.released.ended (Option.isSome_of_mem hstatus)
        have hclosed := hx.safe.released.stdout
        rw [hopen, hends, hx.copies] at hclosed
        cases hclosed
  | workerExits status halive =>
      refine { hx with
        safe := hsafe, stdin := by simp [exit], stdout := by simp [exit], exited := ?_ }
      intro st hst
      obtain rfl := Option.some.inj hst
      obtain ⟨hdone, hend⟩ := he
      split at hend
      · rename_i hsuccess
        refine ⟨hsuccess, ?_⟩
        rw [← hreply, ← hgot hdone]
        exact hend
      · exact absurd ((hx.stdout_open hfit halive).symm.trans (Pipe.broken_iff.mp hend).2)
          (by simp)
  | readFails | deadline | grace | workerCloses | workerForks | copyCloses => exact he.elim
  | _ =>
      exact { hx with safe := hsafe }

/-! ## The end is near -/

omit hfit in
theorem answerWork_lt (hreply : answer (received payload) = reply) (hx : OnTrack payload reply x)
    (he : Follows answer chatter x e) (h : Moves H x e y) :
    answerWork reply chatter y < answerWork reply chatter x := by
  have hgot := got_eq_received hx.safe hx.short
  cases h with
  | feed n hdone hp =>
      obtain ⟨-, -, hne, -, rfl⟩ := Pipe.write_eq_some_iff.mp hp
      have hlen : 0 < (x.left.take n).length := List.length_pos_iff.mpr hne
      rw [List.length_take] at hlen
      simp only [answerWork, List.length_append, List.length_take, List.length_drop]
      omega
  | dropStdin hdone hleft => simp [answerWork, pending, hdone]
  | take n hreading hcap hp =>
      obtain ⟨-, hpos, hle, -, rfl⟩ := Pipe.read_eq_some_iff.mp hp
      simp only [answerWork, List.length_drop]
      omega
  | send hreading hend => simp [answerWork, hreading, readerWork]
  | dropStdout hsent =>
      simp only [answerWork, Pipe.closeReader_buf, List.length_nil, hsent, readerWork]
      omega
  | drain n hdone hp =>
      obtain ⟨-, hpos, hle, -, rfl⟩ := Pipe.read_eq_some_iff.mp hp
      simp only [answerWork, List.length_drop]
      omega
  | drainEnds hdone hend => simp [answerWork, pending, hdone, (Pipe.atEnd_iff.mp hend).2.1]
  | @recv ok hmain hsent => cases ok <;> simp [answerWork, hmain, mainWork]
  | reap hmain hstatus => simp [answerWork, hmain, mainWork]
  | join hmain hreader hwriter hdrain => simp [answerWork, hmain, mainWork]
  | giveUp hmain hreader hwriter hstatus => simp [answerWork, hmain, mainWork]
  | workerReads n hp =>
      obtain ⟨-, hpos, hle, -, rfl⟩ := Pipe.read_eq_some_iff.mp hp
      simp only [answerWork, List.length_drop]
      omega
  | workerSeesEnd hend =>
      have hsaw : x.worker.sawEnd = false := by
        by_contra hsaw
        exact he (Or.inl (Bool.eq_true_of_not_eq_false hsaw))
      simp [answerWork, pending, hsaw]
  | @workerWrites bytes p hp =>
      obtain ⟨-, -, hne, -, rfl⟩ := Pipe.write_eq_some_iff.mp hp
      have hlen : 0 < bytes.length := List.length_pos_iff.mpr hne
      have hfront : x.worker.wrote ++ bytes <+: reply := by
        rw [← hreply, ← hgot he.1]
        exact he.2
      have hle := hfront.length_le
      rw [List.length_append] at hle
      simp only [answerWork, List.length_append]
      omega
  | @workerWritesErr bytes p hp =>
      obtain ⟨-, -, hne, -, rfl⟩ := Pipe.write_eq_some_iff.mp hp
      have hlen : 0 < bytes.length := List.length_pos_iff.mpr hne
      have hle : x.worker.noise + bytes.length ≤ chatter := he
      simp only [answerWork, List.length_append]
      omega
  | workerExits status halive =>
      have hle : (x.exit x.worker.copies status).stdin.buf.length ≤ x.stdin.buf.length :=
        Pipe.length_keepReader_le
      simp only [answerWork, exit, hold, halive, pending, Pipe.keepWriter_buf, Option.isSome_some,
        Option.isSome_none, Bool.not_true, Bool.not_false, Bool.toNat_true,
        Bool.toNat_false] at hle ⊢
      omega
  | readFails | deadline | grace | workerCloses | workerForks | copyCloses => exact he.elim

/-! ## Something can always be done -/

omit hfit in
/-- A worker that is still reading gets on, or the parent feeds it. -/
theorem OnTrack.exists_input (hcap : 0 < H.pipeCap) (hx : OnTrack payload reply x)
    (halive : x.worker.status = none) (hmore : ¬DoneReading x.worker) :
    ∃ e y, Follows answer chatter x e ∧ Moves H x e y := by
  have hreader := hx.stdin halive
  by_cases hbuf : x.stdin.buf = []
  · cases hwriter : x.stdin.writer with
    | false =>
        exact ⟨.workerSeesEnd, _, hmore,
          .workerSeesEnd (Pipe.atEnd_iff.mpr ⟨hreader, hbuf, hwriter⟩)⟩
    | true =>
        have hdone : x.writerDone = false := by
          simpa [hwriter] using hx.safe.feeding.writer
        cases hleft : x.left with
        | nil => exact ⟨.dropStdin, _, trivial, .dropStdin hdone (Or.inl hleft)⟩
        | cons b left =>
            obtain ⟨p, hp⟩ := Pipe.exists_write_one hwriter hreader (by simpa [hbuf] using hcap) b
            have hp' : x.stdin.write H.pipeCap (x.left.take 1) = some p := by
              rw [hleft]
              exact hp
            exact ⟨.feed 1, _, trivial, .feed 1 hdone hp'⟩
  · obtain ⟨bytes, p, hp⟩ := Pipe.exists_read_one hreader hbuf
    refine ⟨.workerReads 1, _, ⟨hmore, ?_⟩, .workerReads 1 hp⟩
    have hshort := hx.short
    have hne : x.worker.got.length ≠ maxInput + 1 := fun h ↦ hmore (Or.inr h)
    omega

/-- A worker that has its input gets on with its answer, or the parent reads. -/
theorem OnTrack.exists_output (hcap : 0 < H.pipeCap) (hreply : answer (received payload) = reply)
    (hx : OnTrack payload reply x) (halive : x.worker.status = none)
    (hdone : DoneReading x.worker) : ∃ e y, Follows answer chatter x e ∧ Moves H x e y := by
  have hgot : answer x.worker.got = reply := by
    rw [got_eq_received hx.safe hx.short hdone, hreply]
  obtain ⟨rest, hrest⟩ := hx.wrote
  cases rest with
  | nil =>
      refine ⟨.workerExits ⟨true, "exit status: 0"⟩, _, ⟨hdone, ?_⟩, .workerExits _ halive⟩
      rw [if_pos rfl, hgot, ← hrest, List.append_nil]
  | cons b rest =>
      have hreader := hx.stdout_open hfit halive
      by_cases hfull : x.stdout.buf.length < H.pipeCap
      · obtain ⟨p, hp⟩ := Pipe.exists_write_one (hx.stdout halive) hreader hfull b
        refine ⟨.workerWrites [b], _, ⟨hdone, rest, ?_⟩, .workerWrites [b] hp⟩
        rw [hgot, ← hrest, List.append_assoc, List.singleton_append]
      · have hbuf : x.stdout.buf ≠ [] := by
          intro hnil
          rw [hnil] at hfull
          exact hfull hcap
        obtain ⟨bytes, p, hp⟩ := Pipe.exists_read_one hreader hbuf
        have hlen := hx.length_out_le hfit
        exact ⟨.take 1, _, trivial, .take 1 (hx.reading hfit halive) (by omega) hp⟩

omit hfit in
theorem follows_of_closing (he : e ∈ closingSteps) : Follows answer chatter x e := by
  simp only [closingSteps, List.mem_cons, List.not_mem_nil, or_false] at he
  rcases he with rfl | rfl | rfl | rfl | rfl | rfl <;> trivial

/-- Once the worker has exited the parent takes its reply in. -/
theorem OnTrack.exists_closing (hx : OnTrack payload reply x) {status : ExitStatus}
    (hgone : x.worker.status = some status) (hmain : ∀ res, x.main ≠ .finished res) :
    ∃ e y, Follows answer chatter x e ∧ Moves H x e y := by
  have hsome : x.worker.status.isSome = true := by
    rw [hgone]
    rfl
  cases hm : x.main with
  | finished res => exact absurd hm (hmain res)
  | waiting =>
      cases hreader : x.reader with
      | sent ok => exact ⟨.recv, _, trivial, .recv hm (Or.inl hreader)⟩
      | ended ok => exact ⟨.recv, _, trivial, .recv hm (Or.inr hreader)⟩
      | reading =>
          have hopen : x.stdout.reader = true := by
            by_contra hclosed
            obtain ⟨ok, hok⟩ :=
              hx.safe.replying.reader_open.mp (Bool.eq_false_iff.mpr hclosed)
            rw [hreader] at hok
            cases hok
          have hclosed : x.stdout.writer = false := by
            rw [hx.safe.released.stdout, merge_eq_copies hx.safe hsome, hx.copies]
            rfl
          by_cases hbuf : x.stdout.buf = []
          · exact ⟨.send, _, trivial, .send hreader
              (Or.inl (Pipe.atEnd_iff.mpr ⟨hopen, hbuf, hclosed⟩))⟩
          · obtain ⟨bytes, p, hp⟩ := Pipe.exists_read_one hopen hbuf
            have hlen := hx.length_out_le hfit
            exact ⟨.take 1, _, trivial, .take 1 hreader (by omega) hp⟩
  | reaping out => exact ⟨.reap, _, trivial, .reap hm hgone⟩
  | joining out st =>
      have hfree : ¬(x.FeederWaits H ∨ x.DrainWaits) := by
        simp [FeederWaits, DrainWaits, hx.copies, Ends.none]
      obtain ⟨e, he, y, hy⟩ := (exists_join hx.safe hm).resolve_left hfree
      exact ⟨e, y, follows_of_closing he, hy⟩
  | readFailed =>
      have hfree : ¬x.FeederWaits H := by simp [FeederWaits, hx.copies, Ends.none]
      obtain ⟨e, he, y, hy⟩ := (exists_giveUp hx.safe hsome hm).resolve_left hfree
      exact ⟨e, y, follows_of_closing he, hy⟩

theorem OnTrack.finished_of_stuck (hcap : 0 < H.pipeCap)
    (hreply : answer (received payload) = reply) (hx : OnTrack payload reply x)
    (h : Stuck (Exchange.step H) (Follows answer chatter) x) : x.main = .finished (.ok reply) := by
  by_contra hne
  have hmain : ∀ res, x.main ≠ .finished res := fun res hres ↦
    hne (hx.main res hres ▸ hres)
  have hmove : ∃ e y, Follows answer chatter x e ∧ Moves H x e y := by
    cases hstatus : x.worker.status with
    | none =>
        by_cases hdone : DoneReading x.worker
        · exact hx.exists_output hfit hcap hreply hstatus hdone
        · exact hx.exists_input hcap hstatus hdone
    | some status => exact hx.exists_closing hfit hstatus hmain
  obtain ⟨e, y, he, hy⟩ := hmove
  exact not_moves_of_stuck h he hy

end Track

/-- With any pipes and any schedule of the threads, an exchange with a worker
that follows its program runs for a bounded time and stops nowhere but with the
worker's answer to the payload in the caller's hands. -/
theorem exchange_answers (H : Host) (payload : List UInt8) (answer : List UInt8 → List UInt8)
    (chatter : ℕ) (hcap : 0 < H.pipeCap)
    (hfit : (answer (received payload)).length ≤ maxReply) :
    (∀ l x, Leads (Exchange.step H) (Follows answer chatter) (start payload) l x →
      l.length ≤ answerWork (answer (received payload)) chatter (start payload) ∧
      (∀ res, x.main = .finished res → res = .ok (answer (received payload))) ∧
      (Stuck (Exchange.step H) (Follows answer chatter) x →
        x.main = .finished (.ok (answer (received payload))))) ∧
    ∃ l x, Leads (Exchange.step H) (Follows answer chatter) (start payload) l x ∧
      x.main = .finished (.ok (answer (received payload))) := by
  have hstart := onTrack_start payload (answer (received payload))
  have hstep : ∀ s i t, OnTrack payload (answer (received payload)) s →
      Follows answer chatter s i → s.step H i = some t →
      OnTrack payload (answer (received payload)) t :=
    fun _ _ _ hs hi h ↦ hs.step hfit rfl hi h
  have hless : ∀ s i t, OnTrack payload (answer (received payload)) s →
      Follows answer chatter s i → s.step H i = some t →
      answerWork (answer (received payload)) chatter t <
        answerWork (answer (received payload)) chatter s :=
    fun _ _ _ hs hi h ↦ answerWork_lt rfl hs hi (step_cases h)
  refine ⟨fun l x hl ↦ ?_, ?_⟩
  · have hx := hl.invariant hstep hstart
    have hle := hl.length_add_le hstep hless hstart
    exact ⟨by omega, hx.main, hx.finished_of_stuck hfit hcap rfl⟩
  · obtain ⟨l, x, hl, hx⟩ := exists_leads_stuck hstep hless hstart
    exact ⟨l, x, hl, (hl.invariant hstep hstart).finished_of_stuck hfit hcap rfl hx⟩

/-- Two bytes, turned around, through pipes of one. -/
theorem exchange_answers_reverse :
    (∀ l x, Leads (Exchange.step narrowHost) (Follows List.reverse 3) (start [7, 9]) l x →
      l.length ≤ answerWork (received [7, 9]).reverse 3 (start [7, 9]) ∧
      (∀ res, x.main = .finished res → res = .ok (received [7, 9]).reverse) ∧
      (Stuck (Exchange.step narrowHost) (Follows List.reverse 3) x →
        x.main = .finished (.ok (received [7, 9]).reverse))) ∧
    ∃ l x, Leads (Exchange.step narrowHost) (Follows List.reverse 3) (start [7, 9]) l x ∧
      x.main = .finished (.ok (received [7, 9]).reverse) :=
  exchange_answers narrowHost [7, 9] List.reverse 3 (by decide) (by simp [received, maxReply])

end Fnprint.Exchange
