import Fnprint.Lib.Binary32
import Fnprint.Script
import Fnprint.ShardRuns

/-!
# Workers that lie

A worker that has been taken over writes what it likes to its pipes and ends as
it likes, and so may each worker of a sharded index.  What the parent keeps of
their replies is well formed all the same; it keeps nothing unless every one of
them ended well with a whole reply, and what it says when it gives up is safe to
show on a terminal.
-/

namespace Fnprint

open Ascii Schedule StableSort

/-! ## Printable text -/

def Printable (s : String) : Prop := ∀ c ∈ s.toList, PrintableChar c

theorem printable_literal {s : String}
    (h : (s.toList.all fun c ↦ Nat.ble 0x20 c.toNat && Nat.ble c.toNat 0x7e) = true) :
    Printable s := by
  intro c hc
  have hchar := List.all_eq_true.mp h c hc
  rw [Bool.and_eq_true, Nat.ble_eq, Nat.ble_eq] at hchar
  exact hchar

theorem printable_append_iff {s t : String} : Printable (s ++ t) ↔ Printable s ∧ Printable t := by
  simp only [Printable, String.toList_append, List.forall_mem_append]

theorem printable_esc (s : String) : Printable (esc s) := printable_chars (esc_printable s)

theorem printable_toString (n : ℕ) : Printable (toString n) := by
  intro c hc
  rw [Nat.toString_eq_ofList_toDigits, String.toList_ofList] at hc
  have hdigit := Nat.isDigit_of_mem_toDigits (by decide) (by decide) hc
  rw [Char.isDigit, Bool.and_eq_true, decide_eq_true_iff, decide_eq_true_iff] at hdigit
  exact ⟨le_trans (by decide) hdigit.1, le_trans hdigit.2 (by decide)⟩

/-! ## What an exchange says -/

namespace Exchange

variable {H : Host} {x y : Exchange} {e : ExchangeEvent}

/-- However a worker ends, the text that its end prints as is printable. -/
def EndsPrintably : Exchange → ExchangeEvent → Prop
  | _, .workerExits status => Printable status.text
  | _, _ => True

/-- What the main thread may end up showing. -/
def Shows : MainThread → Prop
  | .joining _ status => Printable status.text
  | .finished (.error e) => Printable e
  | _ => True

structure Tells (x : Exchange) : Prop where
  status : ∀ status, x.worker.status = some status → Printable status.text
  main : Shows x.main

theorem tells_start (payload : List UInt8) : Tells (start payload) :=
  ⟨fun _ h ↦ by simp [start] at h, trivial⟩

theorem printable_timedOut : Printable (timedOut H) := by
  unfold timedOut
  simp only [printable_append_iff]
  exact ⟨⟨printable_literal rfl, printable_toString _⟩, printable_literal rfl⟩

theorem shows_verdict {out errtail : List UInt8} {status : ExitStatus}
    (h : Printable status.text) : Shows (.finished (verdict H out errtail status)) := by
  unfold verdict
  extract_lets abnormal
  have habnormal : Printable abnormal := by
    simp only [abnormal, printable_append_iff]
    exact ⟨⟨⟨printable_literal rfl, h⟩, printable_literal rfl⟩, printable_literal rfl⟩
  split
  · split
    · exact printable_literal rfl
    · trivial
  · split
    · exact habnormal
    · change Printable (abnormal ++ "; stderr: " ++ esc (H.lossyTrim errtail))
      simp only [printable_append_iff]
      exact ⟨⟨habnormal, printable_literal rfl⟩, printable_esc _⟩

theorem printable_exit {copies : Ends} {status : ExitStatus} (h : Printable status.text) :
    ∀ status', (x.exit copies status).worker.status = some status' → Printable status'.text := by
  intro status' hstatus
  rwa [← Option.some.inj hstatus]

theorem Tells.step (hx : Tells x) (he : EndsPrintably x e) (h : x.step H e = some y) :
    Tells y := by
  have hkilled : Printable ExitStatus.killed.text := printable_literal rfl
  cases step_cases h with
  | recv hmain hsent =>
      refine ⟨hx.status, ?_⟩
      split <;> trivial
  | deadline hmain hreading =>
      refine ⟨printable_exit ?_, printable_timedOut⟩
      cases hstatus : x.worker.status with
      | none => exact hkilled
      | some status => exact hx.status status hstatus
  | reap hmain hstatus => exact ⟨hx.status, hx.status _ hstatus⟩
  | grace hmain hstatus => exact ⟨printable_exit hkilled, hkilled⟩
  | join hmain hreader hwriter hdrain =>
      have hshows := hx.main
      rw [hmain] at hshows
      exact ⟨hx.status, shows_verdict hshows⟩
  | giveUp hmain hreader hwriter hstatus => exact ⟨hx.status, printable_literal rfl⟩
  | workerExits status halive => exact ⟨printable_exit he, hx.main⟩
  | _ => exact ⟨hx.status, hx.main⟩

theorem tells_of_leads {payload : List UInt8} {l : List ExchangeEvent}
    (h : Leads (Exchange.step H) EndsPrintably (start payload) l x) : Tells x :=
  h.invariant (fun _ _ _ hs he hstep ↦ hs.step he hstep) (tells_start payload)

theorem printable_of_result {w : Wire} (hx : Tells x) {err : String}
    (h : x.result w = some (.error err)) : Printable err := by
  have hshows := hx.main
  unfold result at h
  split at h
  · split at h
    · cases h
    · rw [← Except.error.inj (Option.some.inj h)]
      exact printable_literal rfl
  · rename_i hmain
    rw [← Except.error.inj (Option.some.inj h)]
    rwa [hmain] at hshows
  · cases h

end Exchange

/-! ## What is kept of the replies -/

/-- What the parent keeps of a function: a whole signature and a coverage in the
unit interval. -/
structure IndexedFunc.Fit (f : IndexedFunc) : Prop where
  sig : f.fp.sig.length = sigLen
  coverage : 0.0 ≤ f.coverage ∧ f.coverage ≤ 1.0

theorem sanitizeCoverage_unit (f : IndexedFunc) :
    0.0 ≤ (sanitizeCoverage f).coverage ∧ (sanitizeCoverage f).coverage ≤ 1.0 := by
  change 0.0 ≤ (if f.coverage.isFinite then clampUnit f.coverage else 1.0) ∧
    (if f.coverage.isFinite then clampUnit f.coverage else 1.0) ≤ 1.0
  split
  · rename_i hfinite
    exact Binary32.clamp_unit_mem hfinite
  · decide

theorem validateReplyFps_eq_ok {funcs : List IndexedFunc} {u : Unit}
    (h : validateReplyFps funcs = .ok u) : ∀ f ∈ funcs, f.fp.sig.length = sigLen := by
  unfold validateReplyFps at h
  split at h
  · rename_i hall
    simpa using hall
  · cases h

/-- What one worker's result adds to an index. -/
theorem shardResult_eq_ok {reply : Except String WorkerReply} {kept : List IndexedFunc}
    (h : shardResult (.done reply) = .ok kept) :
    ∃ funcs, reply = .ok (.indexOk funcs) ∧ (∀ f ∈ funcs, f.fp.sig.length = sigLen) ∧
      kept = funcs.map sanitizeCoverage := by
  unfold shardResult at h
  split at h
  · cases ‹Joined.done reply = _›
  · rename_i funcs hreply
    obtain ⟨u, hvalid, hkept⟩ := Fallible.bind_eq_ok_iff.mp h
    exact ⟨funcs, Joined.done.inj hreply, validateReplyFps_eq_ok hvalid,
      (Fallible.pure_eq_ok_iff.mp hkept).symm⟩
  all_goals cases h

theorem printable_of_shardResult {reply : Except String WorkerReply} {err : String}
    (hreply : ∀ e, reply = .error e → Printable e) (h : shardResult (.done reply) = .error err) :
    Printable err := by
  cases reply with
  | error e =>
      rw [← Except.error.inj h]
      exact hreply e rfl
  | ok r =>
      cases r with
      | indexOk funcs =>
          change (validateReplyFps funcs >>= fun _ ↦ pure (funcs.map sanitizeCoverage)) = _ at h
          unfold validateReplyFps at h
          split at h
          · cases h
          · rw [← Except.error.inj h]
            exact printable_literal rfl
      | err e =>
          rw [← Except.error.inj h]
          exact printable_esc e
      | dumpOk lines | dbOk recs =>
          rw [← Except.error.inj h]
          exact printable_literal rfl

/-- The one reply of an index is treated as a shard's, but for one text. -/
theorem singleIndex_cases (reply : Except String WorkerReply) :
    singleIndex reply = shardResult (.done reply) ∨
      singleIndex reply = .error "worker returned the wrong reply kind for index" ∧
        ∃ e, shardResult (.done reply) = .error e := by
  cases reply with
  | error e => exact Or.inl rfl
  | ok r =>
      cases r with
      | indexOk funcs | err e => exact Or.inl rfl
      | dumpOk lines | dbOk recs => exact Or.inr ⟨rfl, _, rfl⟩

theorem exists_shardResults {joined : List Joined} :
    (∃ lists : List (List IndexedFunc), joined.map shardResult = lists.map .ok) ∨
      ∃ j ∈ joined, ∃ e, shardResult j = .error e := by
  induction joined with
  | nil => exact Or.inl ⟨[], rfl⟩
  | cons j joined ih =>
      cases hj : shardResult j with
      | error e => exact Or.inr ⟨j, List.mem_cons_self, e, hj⟩
      | ok kept =>
          rcases ih with ⟨lists, hlists⟩ | ⟨k, hk, e, he⟩
          · exact Or.inl ⟨kept :: lists, by rw [List.map_cons, List.map_cons, hj, hlists]⟩
          · exact Or.inr ⟨k, List.mem_cons_of_mem _ hk, e, he⟩

theorem mergeShards_eq_ok {joined : List Joined} {funcs : List IndexedFunc}
    (h : mergeShards joined = .ok funcs) :
    ∃ lists : List (List IndexedFunc), joined.map shardResult = lists.map .ok ∧
      funcs = sortBy mergeCmp lists.flatten := by
  rcases @exists_shardResults joined with ⟨lists, hlists⟩ | herror
  · have hfold := foldl_mergeStep_ok hlists []
    rw [mergeShards, hfold] at h
    exact ⟨lists, hlists, (Except.ok.inj h).symm⟩
  · have hsome := @foldl_mergeStep_error _ ([], none) (Or.inr herror)
    obtain ⟨e, he⟩ := Option.isSome_iff_exists.mp hsome
    simp [mergeShards, he] at h

/-- The error of a merge is the error of one of the shards. -/
theorem mergeShards_eq_error {joined : List Joined} {err : String}
    (h : mergeShards joined = .error err) : ∃ j ∈ joined, shardResult j = .error err := by
  have hfold : ∀ (l : List Joined) (st : List IndexedFunc × Option String),
      (l.foldl mergeStep st).2 = some err →
        st.2 = some err ∨ ∃ j ∈ l, shardResult j = .error err := by
    intro l
    induction l with
    | nil => exact fun st hst ↦ Or.inl hst
    | cons j l ih =>
        intro st hst
        rcases ih _ hst with hstep | ⟨k, hk, he⟩
        · unfold mergeStep at hstep
          split at hstep
          · exact Or.inl hstep
          · rename_i e he
            rcases Option.or_eq_some_iff.mp hstep with hold | ⟨-, hnew⟩
            · exact Or.inl hold
            · exact Or.inr ⟨j, List.mem_cons_self, Option.some.inj hnew ▸ he⟩
        · exact Or.inr ⟨k, List.mem_cons_of_mem _ hk, he⟩
  unfold mergeShards at h
  dsimp only at h
  split at h
  · rename_i e he
    rcases hfold joined ([], none) (Except.error.inj h ▸ he) with hnone | hsome
    · cases hnone
    · exact hsome
  · cases h

theorem runIndex_eq_ok {replies : List (Except String WorkerReply)} {funcs : List IndexedFunc}
    (h : runIndex replies = .ok funcs) : ∃ kept : List (List IndexedFunc),
      List.Forall₂ (fun reply l ↦ shardResult (.done reply) = .ok l) replies kept ∧
        funcs.Perm kept.flatten ∧ (1 < replies.length → funcs.Pairwise (Le mergeCmp)) := by
  unfold runIndex at h
  split at h
  · rename_i reply
    rcases singleIndex_cases reply with hsame | ⟨herror, -⟩
    · refine ⟨[funcs], .cons (hsame ▸ h) .nil, by simp, fun hmany ↦ ?_⟩
      exact absurd hmany (by simp)
    · rw [herror] at h
      cases h
  · obtain ⟨lists, hlists, rfl⟩ := mergeShards_eq_ok h
    rw [List.map_map] at hlists
    refine ⟨lists, ?_, perm_sortBy _ _, fun _ ↦ pairwise_sortBy _ _⟩
    rw [← List.forall₂_eq_eq_eq, List.forall₂_map_left_iff, List.forall₂_map_right_iff] at hlists
    exact hlists

theorem printable_of_runIndex {replies : List (Except String WorkerReply)} {err : String}
    (hreplies : ∀ reply ∈ replies, ∀ e, reply = .error e → Printable e)
    (h : runIndex replies = .error err) : Printable err := by
  unfold runIndex at h
  split at h
  · rename_i reply
    rcases singleIndex_cases reply with hsame | ⟨herror, -⟩
    · exact printable_of_shardResult (hreplies reply List.mem_cons_self) (hsame ▸ h)
    · rw [herror] at h
      rw [← Except.error.inj h]
      exact printable_literal rfl
  · obtain ⟨j, hj, he⟩ := mergeShards_eq_error h
    obtain ⟨reply, hreply, rfl⟩ := List.mem_map.mp hj
    exact printable_of_shardResult (hreplies reply hreply) he

/-- The worker of an exchange ended well, and all that it wrote is a reply that
lists these functions. -/
def Honored (w : Wire) (x : Exchange) (funcs : List IndexedFunc) : Prop :=
  w.decode x.worker.wrote = some (.indexOk funcs) ∧ x.worker.wrote.length ≤ maxReply ∧
    ∃ status, x.worker.status = some status ∧ status.success = true

open Exchange in
theorem honored_of_result {w : Wire} {x : Exchange} {payload : List UInt8}
    (hx : Safe payload x) {funcs : List IndexedFunc}
    (h : x.result w = some (.ok (.indexOk funcs))) : Honored w x funcs := by
  unfold Exchange.result at h
  split at h
  · rename_i out hmain
    obtain ⟨rfl, hcap, hstatus⟩ := hx.finished_ok hmain
    refine ⟨?_, hcap, hstatus⟩
    split at h
    · rename_i reply hdecode
      rw [hdecode, Except.ok.inj (Option.some.inj h)]
    · cases h
  · cases h
  · cases h

/-- The kept lists are the sanitized lists of honored workers. -/
theorem exists_honored {w : Wire} {payload : List UInt8} {xs : List Exchange}
    (hxs : ∀ x ∈ xs, Exchange.Safe payload x) {replies : List (Except String WorkerReply)}
    (hresults : List.Forall₂ (fun x reply ↦ Exchange.result w x = some reply) xs replies)
    {kept : List (List IndexedFunc)}
    (hkept : List.Forall₂ (fun reply l ↦ shardResult (.done reply) = .ok l) replies kept) :
    ∃ sent, List.Forall₂ (Honored w) xs sent ∧ kept = sent.map (List.map sanitizeCoverage) ∧
      ∀ funcs ∈ sent, ∀ f ∈ funcs, f.fp.sig.length = sigLen := by
  induction hresults generalizing kept with
  | nil =>
      cases hkept
      exact ⟨[], .nil, rfl, fun _ h ↦ absurd h List.not_mem_nil⟩
  | cons hresult _ ih =>
      cases hkept with
      | cons hl hrest =>
          obtain ⟨hx, hxs⟩ := List.forall_mem_cons.mp hxs
          obtain ⟨sent, hhonored, rfl, hsig⟩ := ih hxs hrest
          obtain ⟨funcs, rfl, hfuncs, rfl⟩ := shardResult_eq_ok hl
          exact ⟨funcs :: sent, .cons (honored_of_result hx hresult) hhonored, rfl,
            List.forall_mem_cons.mpr ⟨hfuncs, hsig⟩⟩

open Exchange in
/-- Whatever the workers do and in whatever order the threads of all exchanges
run: an index that the parent accepts lists what whole replies of workers that
all ended well list, with whole signatures and sane coverage, and an error that
it reports is printable. -/
theorem hostile_workers_contained (H : Host) (w : Wire) (bytes : List UInt8) {k : ℕ}
    {l : List (Fin k × ExchangeEvent)} {xs : Fin k → Exchange}
    (hrun : Leads (sideBySide (Exchange.step H)) (eachAllowed fun _ ↦ EndsPrintably)
      (fun _ ↦ start bytes) l xs) :
    (∀ funcs, indexed w xs = some (.ok funcs) →
      (∀ f ∈ funcs, f.Fit) ∧ (1 < k → funcs.Pairwise (Le mergeCmp)) ∧
        ∃ sent, List.Forall₂ (Honored w) (List.ofFn xs) sent ∧
          funcs.Perm (sent.flatten.map sanitizeCoverage)) ∧
    ∀ err, indexed w xs = some (.error err) → Printable err := by
  have hsafe : ∀ i, Safe bytes (xs i) := fun i ↦
    (hrun.project i).invariant (fun _ _ _ hs _ hstep ↦ hs.step hstep) (safe_start bytes)
  have htells : ∀ i, Tells (xs i) := fun i ↦ tells_of_leads (hrun.project i)
  constructor
  · intro funcs h
    obtain ⟨replies, hreplies, hindex⟩ := Option.map_eq_some_iff.mp h
    have hresults := Fallible.forall₂_of_mapM hreplies
    obtain ⟨kept, hkept, hperm, hsorted⟩ := runIndex_eq_ok hindex
    have hall : ∀ x ∈ List.ofFn xs, Safe bytes x := by
      rw [List.forall_mem_ofFn_iff]
      exact hsafe
    obtain ⟨sent, hhonored, rfl, hsig⟩ := exists_honored hall hresults hkept
    rw [← List.map_flatten] at hperm
    refine ⟨fun f hf ↦ ?_, fun hmany ↦ hsorted ?_, sent, hhonored, hperm⟩
    · obtain ⟨g, hg, rfl⟩ := List.mem_map.mp (hperm.mem_iff.mp hf)
      obtain ⟨l, hl, hgl⟩ := List.mem_flatten.mp hg
      exact ⟨hsig l hl g hgl, sanitizeCoverage_unit g⟩
    · rwa [← hresults.length_eq, List.length_ofFn]
  · intro err h
    obtain ⟨replies, hreplies, hindex⟩ := Option.map_eq_some_iff.mp h
    have hresults := Fallible.forall₂_of_mapM hreplies
    refine printable_of_runIndex (fun reply hreply e he ↦ ?_) hindex
    obtain ⟨x, hx, hresult⟩ := Fallible.exists_of_mem_mapM hreplies hreply
    obtain ⟨i, rfl⟩ := List.mem_ofFn.mp hx
    exact printable_of_result (htells i) (he ▸ hresult)

/-! ## A worker that crashes, and one that lies -/

namespace Exchange

def crashed : ExitStatus := ⟨false, "signal: 31 (SIGSYS)"⟩

def crashRun : List ExchangeEvent :=
  [.workerExits crashed, .dropStdin, .send, .recv, .reap, .dropStdout, .drainEnds, .join]

def crashEnd : Exchange where
  stdin := ⟨[], false, false⟩
  stdout := ⟨[], false, false⟩
  stderr := ⟨[], false, false⟩
  left := [7]
  writerDone := true
  out := []
  reader := .ended true
  errtail := []
  drainDone := true
  worker := ⟨[], false, [], 0, .none, .none, some crashed⟩
  main := .finished (verdict narrowHost [] [] crashed)

theorem leads_crashEnd :
    Leads (Exchange.step narrowHost) EndsPrintably (start [7]) crashRun crashEnd :=
  ⟨_, printable_literal rfl, rfl, _, trivial, rfl, _, trivial, rfl, _, trivial, rfl,
    _, trivial, rfl, _, trivial, rfl, _, trivial, rfl, _, trivial, rfl, rfl⟩

def exitedWell : ExitStatus := ⟨true, "exit status: 0"⟩

def lieRun : List ExchangeEvent :=
  [.workerWrites [0], .take 1, .workerWrites [0], .take 1, .workerExits exitedWell, .dropStdin,
    .send, .recv, .reap, .dropStdout, .drainEnds, .join]

def lieEnd : Exchange where
  stdin := ⟨[], false, false⟩
  stdout := ⟨[], false, false⟩
  stderr := ⟨[], false, false⟩
  left := [7]
  writerDone := true
  out := [0, 0]
  reader := .ended true
  errtail := []
  drainDone := true
  worker := ⟨[], false, [0, 0], 0, .none, .none, some exitedWell⟩
  main := .finished (.ok [0, 0])

theorem leads_lieEnd : Leads (Exchange.step narrowHost) EndsPrintably (start [7]) lieRun lieEnd :=
  ⟨_, trivial, rfl, _, trivial, rfl, _, trivial, rfl, _, trivial, rfl,
    _, printable_literal rfl, rfl, _, trivial, rfl, _, trivial, rfl, _, trivial, rfl,
    _, trivial, rfl, _, trivial, rfl, _, trivial, rfl, _, trivial, rfl, rfl⟩

end Exchange

/-- A function that a worker makes up, with a coverage that is no number. -/
def madeUp : IndexedFunc :=
  ⟨none, 0xdead, .symtab, ⟨List.replicate sigLen 7, 9, 9, false, by simp [sigLen]⟩, 0.0 / 0.0, []⟩

theorem indexed_lieEnd : indexed (placeWire [madeUp]) (fun _ : Fin 1 ↦ Exchange.lieEnd) =
    some (.ok [sanitizeCoverage madeUp]) := by
  have hreply : Exchange.lieEnd.result (placeWire [madeUp]) =
      some (.ok (.indexOk [madeUp])) := by
    simp [Exchange.result, Exchange.lieEnd, placeWire]
  have hvalid : validateReplyFps [madeUp] = .ok () := by simp [validateReplyFps, madeUp]
  have hsingle : singleIndex (.ok (.indexOk [madeUp])) = .ok [sanitizeCoverage madeUp] := by
    simp only [singleIndex, hvalid]
    rfl
  simp [indexed, hreply, runIndex, hsingle]

open Exchange in
theorem exists_indexed_crashEnd (w : Wire) :
    ∃ err, indexed w (fun _ : Fin 1 ↦ crashEnd) = some (.error err) := by
  obtain ⟨err, herr⟩ : ∃ err, Exchange.verdict narrowHost [] [] crashed = .error err :=
    ⟨_, rfl⟩
  have hreply : crashEnd.result w = some (.error err) := by
    simp [Exchange.result, crashEnd, herr]
  exact ⟨err, by simp [indexed, hreply, runIndex, singleIndex]⟩

open Exchange in
theorem hostile_workers_contained_lie :
    ((∀ f ∈ [sanitizeCoverage madeUp], f.Fit) ∧
      ∃ sent, List.Forall₂ (Honored (placeWire [madeUp])) [lieEnd] sent ∧
        [sanitizeCoverage madeUp].Perm (sent.flatten.map sanitizeCoverage)) ∧
    ∃ err, indexed (placeWire [madeUp]) (fun _ : Fin 1 ↦ crashEnd) = some (.error err) ∧
      Printable err := by
  obtain ⟨hfit, -, hsent⟩ := (hostile_workers_contained narrowHost (placeWire [madeUp]) [7]
    leads_lieEnd.alone).1 _ indexed_lieEnd
  obtain ⟨err, herr⟩ := exists_indexed_crashEnd (placeWire [madeUp])
  exact ⟨⟨hfit, hsent⟩, err, herr, (hostile_workers_contained narrowHost (placeWire [madeUp]) [7]
    leads_crashEnd.alone).2 err herr⟩

end Fnprint
