import Fnprint.ExchangeSafe

/-!
# When the parent hangs

Left alone by the worker, the parent's threads and its clock come to an end: a
reply that does not come runs into the deadline, a worker that does not exit
into the grace period, and once the worker is gone every thread can finish.
Two waits have no limit.  One is for the exit of a worker whose reply could not
be read.  The other is for a forked copy: a worker that exits by itself is reaped
without a signal to its group, and the feeder of the standard input and the drain
of the standard error, which the main thread joins, wait for a copy that still
holds its end of their pipe.
-/

namespace Fnprint.Exchange

open Schedule

variable {H : Host} {x y : Exchange} {e : ExchangeEvent} {payload : List UInt8}

/-- The steps of the parent: its threads, and the clock running out. -/
def ParentStep : ExchangeEvent → Prop
  | .feed _ | .dropStdin | .take _ | .send | .dropStdout | .drain _ | .drainEnds | .recv
  | .deadline | .reap | .grace | .join => True
  | .readFails | .workerReads _ | .workerSeesEnd | .workerWrites _ | .workerWritesErr _
  | .workerCloses _ | .workerForks | .copyCloses _ | .workerExits _ => False

def readerWork : ReaderThread → ℕ
  | .reading => 2
  | .sent _ => 1
  | .ended _ => 0

def mainWork : MainThread → ℕ
  | .waiting => 3
  | .reaping _ => 2
  | .joining _ _ | .readFailed => 1
  | .finished _ => 0

/-- Work of a flag that is still to be set. -/
def pending (done : Bool) : ℕ := (!done).toNat

/-- A bound on the steps the parent can take alone. -/
def parentWork (x : Exchange) : ℕ :=
  x.left.length + pending x.writerDone + (maxReply + 1 - x.out.length) + readerWork x.reader +
    x.stderr.buf.length + pending x.drainDone + mainWork x.main

theorem parentWork_lt (h : Moves H x e y) (he : ParentStep e) : y.parentWork < x.parentWork := by
  cases h with
  | feed n hdone hp =>
      obtain ⟨-, -, hne, -, -⟩ := Pipe.write_eq_some_iff.mp hp
      have hlen : 0 < (x.left.take n).length := List.length_pos_iff.mpr hne
      rw [List.length_take] at hlen
      simp only [parentWork, List.length_drop]
      omega
  | dropStdin hdone hleft => simp [parentWork, pending, hdone]
  | take n hreading hcap hp =>
      obtain ⟨-, hpos, hle, rfl, -⟩ := Pipe.read_eq_some_iff.mp hp
      simp only [parentWork, List.length_append, List.length_take]
      omega
  | send hreading hend => simp [parentWork, hreading, readerWork]
  | dropStdout hsent => simp [parentWork, hsent, readerWork]
  | drain n hdone hp =>
      obtain ⟨-, hpos, hle, -, rfl⟩ := Pipe.read_eq_some_iff.mp hp
      simp only [parentWork, List.length_drop]
      omega
  | drainEnds hdone hend => simp [parentWork, pending, hdone, (Pipe.atEnd_iff.mp hend).2.1]
  | @recv ok hmain hsent => cases ok <;> simp [parentWork, hmain, mainWork]
  | deadline hmain hreading => simp [parentWork, hmain, mainWork, killGroup, exit, hold]
  | reap hmain hstatus => simp [parentWork, hmain, mainWork]
  | grace hmain hstatus => simp [parentWork, hmain, mainWork, killGroup, exit, hold]
  | join hmain hreader hwriter hdrain => simp [parentWork, hmain, mainWork]
  | giveUp hmain hreader hwriter hstatus => simp [parentWork, hmain, mainWork]
  | _ => exact he.elim

/-! ## What the threads can always do -/

theorem not_moves_of_stuck {allowed : Exchange → ExchangeEvent → Prop}
    (h : Stuck (Exchange.step H) allowed x) (he : allowed x e) : ¬Moves H x e y := by
  intro hmoves
  have hnone := h e he
  rw [step_of_moves hmoves] at hnone
  cases hnone

/-- The steps left once the worker is gone and the reply is in. -/
def closingSteps : List ExchangeEvent :=
  [.dropStdin, .feed 1, .dropStdout, .drain 1, .drainEnds, .join]

/-- The feeder waits for a copy to read: the pipe is full. -/
def FeederWaits (H : Host) (x : Exchange) : Prop :=
  x.worker.copies.stdin = true ∧ x.writerDone = false ∧ x.left ≠ [] ∧
    H.pipeCap ≤ x.stdin.buf.length

/-- The drain waits for a copy to write or to close. -/
def DrainWaits (x : Exchange) : Prop :=
  x.worker.copies.stderr = true ∧ x.drainDone = false ∧ x.stderr.buf = []

section Closing

variable (hx : Safe payload x) (hgone : x.worker.status.isSome = true)

include hx hgone

/-- The ends that are left are those of the copies. -/
theorem merge_eq_copies : x.worker.ends.merge x.worker.copies = x.worker.copies := by
  rw [hx.released.ended hgone, Ends.none_merge]

/-- With nobody left to read the payload is dropped, and a copy that is left
reads it or has the feeder wait. -/
theorem exists_feed (hdone : x.writerDone = false) :
    x.FeederWaits H ∨ ∃ e ∈ closingSteps, ∃ y, Moves H x e y := by
  have hwriter : x.stdin.writer = true := by
    rw [hx.feeding.writer, hdone]
    rfl
  have hreader : x.stdin.reader = x.worker.copies.stdin := by
    rw [hx.released.stdin, merge_eq_copies hx hgone]
  cases hcopy : x.worker.copies.stdin with
  | false =>
      have hbroken : x.stdin.broken = true := Pipe.broken_iff.mpr ⟨hwriter, hreader.trans hcopy⟩
      exact Or.inr ⟨.dropStdin, by simp [closingSteps], _, .dropStdin hdone (Or.inr hbroken)⟩
  | true =>
      cases hleft : x.left with
      | nil => exact Or.inr ⟨.dropStdin, by simp [closingSteps], _, .dropStdin hdone (Or.inl hleft)⟩
      | cons b left =>
          rcases Nat.lt_or_ge x.stdin.buf.length H.pipeCap with hroom | hfull
          · obtain ⟨p, hp⟩ := Pipe.exists_write_one hwriter (hreader.trans hcopy) hroom b
            have hp' : x.stdin.write H.pipeCap (x.left.take 1) = some p := by
              rw [hleft]
              exact hp
            exact Or.inr ⟨.feed 1, by simp [closingSteps], _, .feed 1 hdone hp'⟩
          · exact Or.inl ⟨hcopy, hdone, by simp [hleft], hfull⟩

/-- With nobody left to write, the last of the standard error is read. -/
theorem exists_drain (hdone : x.drainDone = false) :
    x.DrainWaits ∨ ∃ e ∈ closingSteps, ∃ y, Moves H x e y := by
  have hreader : x.stderr.reader = true := by
    rw [hx.draining, hdone]
    rfl
  have hwriter : x.stderr.writer = x.worker.copies.stderr := by
    rw [hx.released.stderr, merge_eq_copies hx hgone]
  by_cases hbuf : x.stderr.buf = []
  · cases hcopy : x.worker.copies.stderr with
    | true => exact Or.inl ⟨hcopy, hdone, hbuf⟩
    | false =>
        exact Or.inr ⟨.drainEnds, by simp [closingSteps], _,
          .drainEnds hdone (Pipe.atEnd_iff.mpr ⟨hreader, hbuf, hwriter.trans hcopy⟩)⟩
  · obtain ⟨bytes, p, hp⟩ := Pipe.exists_read_one hreader hbuf
    exact Or.inr ⟨.drain 1, by simp [closingSteps], _, .drain 1 hdone hp⟩

theorem exists_giveUp (hmain : x.main = .readFailed) :
    x.FeederWaits H ∨ ∃ e ∈ closingSteps, ∃ y, Moves H x e y := by
  have hknows := hx.knows
  rw [hmain] at hknows
  rcases hknows with hsent | hended
  · exact Or.inr ⟨.dropStdout, by simp [closingSteps], _, .dropStdout hsent⟩
  · cases hwriter : x.writerDone with
    | false => exact exists_feed hx hgone hwriter
    | true => exact Or.inr ⟨.join, by simp [closingSteps], _, .giveUp hmain hended hwriter hgone⟩

end Closing

theorem exists_join (hx : Safe payload x) {out : List UInt8} {status : ExitStatus}
    (hmain : x.main = .joining out status) :
    (x.FeederWaits H ∨ x.DrainWaits) ∨ ∃ e ∈ closingSteps, ∃ y, Moves H x e y := by
  have hknows := hx.knows
  rw [hmain] at hknows
  obtain ⟨⟨-, hreply⟩, hstatus⟩ := hknows
  have hgone : x.worker.status.isSome = true := by
    rw [hstatus]
    rfl
  rcases hreply with hsent | hended
  · exact Or.inr ⟨.dropStdout, by simp [closingSteps], _, .dropStdout hsent⟩
  · cases hwriter : x.writerDone with
    | false => exact (exists_feed hx hgone hwriter).imp_left Or.inl
    | true =>
        cases hdrain : x.drainDone with
        | false => exact (exists_drain hx hgone hdrain).imp_left Or.inr
        | true =>
            exact Or.inr ⟨.join, by simp [closingSteps], _, .join hmain hended hwriter hdrain⟩

/-! ## The parent alone -/

/-- Nothing is left for the parent but to return, or to wait for a worker whose
reply could not be read. -/
def AtRest (x : Exchange) : Prop :=
  (∃ res, x.main = .finished res) ∨ x.main = .readFailed ∧ x.worker.status = none

/-- The worker is gone, and the main thread joins one that waits for a copy. -/
def HeldByCopy (H : Host) (x : Exchange) : Prop :=
  (x.main = .readFailed ∧ x.worker.status.isSome = true ∧ x.FeederWaits H) ∨
    (∃ out status, x.main = .joining out status) ∧ (x.FeederWaits H ∨ x.DrainWaits)

theorem HeldByCopy.copies (h : x.HeldByCopy H) :
    x.worker.copies.stdin = true ∨ x.worker.copies.stderr = true := by
  rcases h with ⟨-, -, hfeeder⟩ | ⟨-, hfeeder | hdrain⟩
  · exact Or.inl hfeeder.1
  · exact Or.inl hfeeder.1
  · exact Or.inr hdrain.1

theorem atRest_of_stuck (hx : Safe payload x)
    (h : Stuck (Exchange.step H) (fun _ ↦ ParentStep) x) : x.AtRest ∨ x.HeldByCopy H := by
  have hstuck : ∀ e y, ParentStep e → ¬Moves H x e y := fun _ _ he ↦
    @not_moves_of_stuck H x _ _ (fun _ ↦ ParentStep) h he
  have hclosing : ¬∃ e ∈ closingSteps, ∃ y, Moves H x e y := by
    rintro ⟨e, he, y, hy⟩
    refine hstuck e y ?_ hy
    simp only [closingSteps, List.mem_cons, List.not_mem_nil, or_false] at he
    rcases he with rfl | rfl | rfl | rfl | rfl | rfl <;> trivial
  cases hmain : x.main with
  | finished res => exact Or.inl (Or.inl ⟨res, hmain⟩)
  | waiting =>
      cases hreader : x.reader with
      | reading => exact (hstuck .deadline _ trivial (.deadline hmain hreader)).elim
      | sent ok => exact (hstuck .recv _ trivial (.recv hmain (Or.inl hreader))).elim
      | ended ok => exact (hstuck .recv _ trivial (.recv hmain (Or.inr hreader))).elim
  | reaping out =>
      cases hstatus : x.worker.status with
      | none => exact (hstuck .grace _ trivial (.grace hmain hstatus)).elim
      | some status => exact (hstuck .reap _ trivial (.reap hmain hstatus)).elim
  | joining out status =>
      exact Or.inr (Or.inr ⟨⟨out, status, hmain⟩, (exists_join hx hmain).resolve_right hclosing⟩)
  | readFailed =>
      cases hstatus : x.worker.status with
      | none => exact Or.inl (Or.inr ⟨hmain, hstatus⟩)
      | some status =>
          have hgone : x.worker.status.isSome = true := by
            rw [hstatus]
            rfl
          have hgives := (exists_giveUp hx hgone hmain).resolve_right hclosing
          exact Or.inr (Or.inl ⟨hmain, hgone, hgives⟩)

/-! ## No way out -/

/-- No thread of the parent frees the feeder. -/
theorem FeederWaits.step (hx : Safe payload x) (hwaits : x.FeederWaits H)
    (hmain : x.main ≠ .waiting ∧ ∀ out, x.main ≠ .reaping out) (h : Moves H x e y)
    (he : ParentStep e) : y.FeederWaits H := by
  obtain ⟨hcopy, hdone, hleft, hfull⟩ := hwaits
  cases h with
  | feed n _ hp =>
      obtain ⟨-, -, hne, hroom, -⟩ := Pipe.write_eq_some_iff.mp hp
      have hlen : 0 < (x.left.take n).length := List.length_pos_iff.mpr hne
      omega
  | dropStdin _ hdrop =>
      rcases hdrop with hnil | hbroken
      · exact absurd hnil hleft
      · have hopen := hx.released.stdin
        simp [Ends.merge, hcopy, (Pipe.broken_iff.mp hbroken).2] at hopen
  | recv hwaiting => exact absurd hwaiting hmain.1
  | deadline hwaiting => exact absurd hwaiting hmain.1
  | grace hreaping => exact absurd hreaping (hmain.2 _)
  | workerReads | workerSeesEnd | workerWrites | workerWritesErr | workerCloses | workerForks
  | copyCloses | workerExits | readFails => exact he.elim
  | _ => exact ⟨hcopy, hdone, hleft, hfull⟩

theorem DrainWaits.step (hx : Safe payload x) (hwaits : x.DrainWaits)
    (hmain : x.main ≠ .waiting ∧ ∀ out, x.main ≠ .reaping out) (h : Moves H x e y)
    (he : ParentStep e) : y.DrainWaits := by
  obtain ⟨hcopy, hdone, hbuf⟩ := hwaits
  cases h with
  | drain n _ hp =>
      obtain ⟨-, hpos, hle, -, -⟩ := Pipe.read_eq_some_iff.mp hp
      rw [hbuf, List.length_nil] at hle
      omega
  | drainEnds _ hend =>
      have hopen := hx.released.stderr
      simp [Ends.merge, hcopy, (Pipe.atEnd_iff.mp hend).2.2] at hopen
  | recv hwaiting => exact absurd hwaiting hmain.1
  | deadline hwaiting => exact absurd hwaiting hmain.1
  | grace hreaping => exact absurd hreaping (hmain.2 _)
  | workerReads | workerSeesEnd | workerWrites | workerWritesErr | workerCloses | workerForks
  | copyCloses | workerExits | readFails => exact he.elim
  | _ => exact ⟨hcopy, hdone, hbuf⟩

/-- What joins a thread that waits goes on doing so. -/
theorem main_eq_of_waits (hwaits : x.FeederWaits H ∨ x.DrainWaits) (hread : x.main = .readFailed →
      x.FeederWaits H) (hmain : x.main ≠ .waiting ∧ ∀ out, x.main ≠ .reaping out)
    (h : Moves H x e y) : y.main = x.main := by
  cases h with
  | recv hwaiting => exact absurd hwaiting hmain.1
  | deadline hwaiting => exact absurd hwaiting hmain.1
  | grace hreaping => exact absurd hreaping (hmain.2 _)
  | reap hreaping => exact absurd hreaping (hmain.2 _)
  | join _ _ hwriter hdrain =>
      rcases hwaits with hfeeder | hdrain'
      · exact absurd (hwriter.symm.trans hfeeder.2.1) (by simp)
      · exact absurd (hdrain.symm.trans hdrain'.2.1) (by simp)
  | giveUp hfailed _ hwriter _ =>
      exact absurd (hwriter.symm.trans (hread hfailed).2.1) (by simp)
  | _ => rfl

theorem HeldByCopy.step (hx : Safe payload x) (hheld : x.HeldByCopy H) (h : Moves H x e y)
    (he : ParentStep e) : y.HeldByCopy H := by
  rcases hheld with ⟨hfailed, hgone, hfeeder⟩ | ⟨⟨out, status, hjoining⟩, hwaits⟩
  · have hmain : x.main ≠ .waiting ∧ ∀ out, x.main ≠ .reaping out := by simp [hfailed]
    have hsame := main_eq_of_waits (Or.inl hfeeder) (fun _ ↦ hfeeder) hmain h
    have hstatus : y.worker.status.isSome = true := by
      cases h with
      | deadline hwaiting => exact absurd hwaiting hmain.1
      | grace hreaping => exact absurd hreaping (hmain.2 _)
      | workerExits => exact he.elim
      | _ => exact hgone
    exact Or.inl ⟨hsame.trans hfailed, hstatus, hfeeder.step hx hmain h he⟩
  · have hmain : x.main ≠ .waiting ∧ ∀ out, x.main ≠ .reaping out := by simp [hjoining]
    have hsame := main_eq_of_waits hwaits (fun hfailed ↦ by simp [hjoining] at hfailed) hmain h
    exact Or.inr ⟨⟨out, status, hsame.trans hjoining⟩, hwaits.imp
      (fun hfeeder ↦ hfeeder.step hx hmain h he) fun hdrain ↦ hdrain.step hx hmain h he⟩

theorem HeldByCopy.leads (hx : Safe payload x) (hheld : x.HeldByCopy H) {l : List ExchangeEvent}
    (h : Leads (Exchange.step H) (fun _ ↦ ParentStep) x l y) : y.HeldByCopy H :=
  (h.invariant (P := fun z ↦ Safe payload z ∧ z.HeldByCopy H) (fun _ _ _ hs he hstep ↦
    ⟨hs.1.step hstep, hs.2.step hs.1 (step_cases hstep) he⟩) ⟨hx, hheld⟩).2

/-- Left alone, the copies keep their ends or are killed. -/
theorem copies_of_leads {l : List ExchangeEvent}
    (h : Leads (Exchange.step H) (fun _ ↦ ParentStep) x l y)
    (hy : y.worker.copies.stdin = true ∨ y.worker.copies.stderr = true) :
    x.worker.copies.stdin = true ∨ x.worker.copies.stderr = true := by
  have hstep : ∀ (s : Exchange) i (t : Exchange),
      s.worker.copies = x.worker.copies ∨ s.worker.copies = .none →
      ParentStep i → s.step H i = some t →
        t.worker.copies = x.worker.copies ∨ t.worker.copies = .none := by
    intro s i t hs hi hst
    cases step_cases hst with
    | deadline | grace => exact Or.inr rfl
    | workerReads | workerSeesEnd | workerWrites | workerWritesErr | workerCloses | workerForks
    | copyCloses | workerExits | readFails => exact hi.elim
    | _ => exact hs
  rcases h.invariant hstep (Or.inl rfl) with hsame | hnone
  · rwa [← hsame]
  · rw [hnone] at hy
    rcases hy with hy | hy <;> cases hy

/-- From any state of any run, whatever the worker has done and without it or its
copies doing more, the parent takes finitely many steps.  Then it has its answer,
or waits for a worker whose reply could not be read, or is held for good by a
copy that has kept an end since. -/
theorem exchange_hangs_only_for_copies (H : Host) (payload : List UInt8) (x : Exchange)
    (h : Reaches H payload x) :
    (∀ l y, Leads (Exchange.step H) (fun _ ↦ ParentStep) x l y →
      l.length ≤ x.parentWork ∧
      (Stuck (Exchange.step H) (fun _ ↦ ParentStep) y → y.AtRest ∨ y.HeldByCopy H) ∧
      (y.HeldByCopy H → (x.worker.copies.stdin = true ∨ x.worker.copies.stderr = true) ∧
        ∀ l' z, Leads (Exchange.step H) (fun _ ↦ ParentStep) y l' z → z.HeldByCopy H)) ∧
    ∃ l y, Leads (Exchange.step H) (fun _ ↦ ParentStep) x l y ∧
      Stuck (Exchange.step H) (fun _ ↦ ParentStep) y := by
  have hless : ∀ s i t, Safe payload s → ParentStep i → s.step H i = some t →
      t.parentWork < s.parentWork := fun _ _ _ _ hi hstep ↦ parentWork_lt (step_cases hstep) hi
  have hsafe : ∀ s i t, Safe payload s → ParentStep i → s.step H i = some t → Safe payload t :=
    fun _ _ _ hs _ hstep ↦ hs.step hstep
  refine ⟨fun l y hl ↦ ?_, exists_leads_stuck hsafe hless h.safe⟩
  have hy := hl.invariant hsafe h.safe
  have hle := hl.length_add_le hsafe hless h.safe
  refine ⟨by omega, atRest_of_stuck hy, fun hheld ↦ ⟨?_, fun l' z hz ↦ hheld.leads hy hz⟩⟩
  exact copies_of_leads hl hheld.copies

/-! ## Two workers that fork -/

/-- A worker that has replied but does not exit, and neither does its copy. -/
def lingering : Exchange where
  stdin := ⟨[], true, true⟩
  stdout := ⟨[], true, false⟩
  stderr := ⟨[], true, true⟩
  left := []
  writerDone := false
  out := [9]
  reader := .sent true
  errtail := []
  drainDone := false
  worker := ⟨[7], false, [9], 0, ⟨true, false, true⟩, ⟨true, false, true⟩, none⟩
  main := .reaping [9]

theorem reaches_lingering : Reaches narrowHost [7] lingering :=
  ⟨[.feed 1, .workerReads 1, .workerForks, .workerWrites [9], .workerCloses .stdout,
    .copyCloses .stdout, .take 1, .send, .recv], leads_of_foldlM rfl⟩

theorem exchange_hangs_only_for_copies_lingering :
    (∀ l y, Leads (Exchange.step narrowHost) (fun _ ↦ ParentStep) lingering l y →
      l.length ≤ lingering.parentWork ∧
      (Stuck (Exchange.step narrowHost) (fun _ ↦ ParentStep) y →
        y.AtRest ∨ y.HeldByCopy narrowHost) ∧
      (y.HeldByCopy narrowHost →
        (lingering.worker.copies.stdin = true ∨ lingering.worker.copies.stderr = true) ∧
        ∀ l' z, Leads (Exchange.step narrowHost) (fun _ ↦ ParentStep) y l' z →
          z.HeldByCopy narrowHost)) ∧
    ∃ l y, Leads (Exchange.step narrowHost) (fun _ ↦ ParentStep) lingering l y ∧
      Stuck (Exchange.step narrowHost) (fun _ ↦ ParentStep) y :=
  exchange_hangs_only_for_copies narrowHost [7] lingering reaches_lingering

/-- The worker has replied and exited well; its copy keeps the standard error. -/
def orphaned : Exchange where
  stdin := ⟨[], true, false⟩
  stdout := ⟨[], false, false⟩
  stderr := ⟨[], true, true⟩
  left := []
  writerDone := true
  out := [9]
  reader := .ended true
  errtail := []
  drainDone := false
  worker := ⟨[7], false, [9], 0, .none, ⟨true, false, true⟩, some ⟨true, "exit status: 0"⟩⟩
  main := .joining [9] ⟨true, "exit status: 0"⟩

theorem reaches_orphaned : Reaches narrowHost [7] orphaned :=
  ⟨[.feed 1, .dropStdin, .workerReads 1, .workerForks, .copyCloses .stdout, .workerWrites [9],
    .workerExits ⟨true, "exit status: 0"⟩, .take 1, .send, .recv, .reap, .dropStdout],
    leads_of_foldlM rfl⟩

/-- A valid reply and a good exit are not enough: the parent joins the drain of
the standard error for ever. -/
theorem orphaned_hangs {l : List ExchangeEvent}
    (h : Leads (Exchange.step narrowHost) (fun _ ↦ ParentStep) orphaned l y) :
    ∀ res, y.main ≠ .finished res := by
  have hheld : orphaned.HeldByCopy narrowHost :=
    Or.inr ⟨⟨_, _, rfl⟩, Or.inr ⟨rfl, rfl, rfl⟩⟩
  rcases hheld.leads reaches_orphaned.safe h with ⟨hfailed, -⟩ | ⟨⟨out, status, hjoining⟩, -⟩
  · simp [hfailed]
  · simp [hjoining]

end Fnprint.Exchange
