import Mathlib

/-!
# Statements that may fail

A connection carries out one statement after the other on a store.  Each
statement is atomic, but any of them may fail.  Outside a transaction a carried
out statement stays; a transaction that is dropped gives the store back as it
was when it began.
-/

namespace Journal

/-- The store, what it was when the open transaction began, and the number of
statements so far. -/
structure Conn (σ : Type) where
  store : σ
  saved : Option σ
  issued : ℕ

variable {σ ε α β : Type}

/-- A call on a connection; a call that fails leaves it as it is by then. -/
abbrev Call (σ ε α : Type) := EStateM ε (Conn σ) α

/-- The connection behind a call. -/
def Call.after (x : Call σ ε α) (c : Conn σ) : Conn σ :=
  match x.run c with
  | .ok _ c' => c'
  | .error _ c' => c'

namespace Conn

def issue (c : Conn σ) : Conn σ := { c with issued := c.issued + 1 }

def put (c : Conn σ) (s : σ) : Conn σ := { c with store := s }

/-- A transaction begins. -/
def save (c : Conn σ) : Conn σ := { c with saved := some c.store }

/-- A transaction ends. -/
def keep (c : Conn σ) : Conn σ := { c with saved := none }

/-- A transaction that is still open is rolled back. -/
def rollback (c : Conn σ) : Conn σ :=
  match c.saved with
  | some s => (c.put s).keep
  | none => c

@[simp] theorem store_issue (c : Conn σ) : c.issue.store = c.store := rfl
@[simp] theorem saved_issue (c : Conn σ) : c.issue.saved = c.saved := rfl
@[simp] theorem issued_issue (c : Conn σ) : c.issue.issued = c.issued + 1 := rfl
@[simp] theorem store_put (c : Conn σ) (s : σ) : (c.put s).store = s := rfl
@[simp] theorem saved_put (c : Conn σ) (s : σ) : (c.put s).saved = c.saved := rfl
@[simp] theorem issued_put (c : Conn σ) (s : σ) : (c.put s).issued = c.issued := rfl
@[simp] theorem store_save (c : Conn σ) : c.save.store = c.store := rfl
@[simp] theorem saved_save (c : Conn σ) : c.save.saved = some c.store := rfl
@[simp] theorem issued_save (c : Conn σ) : c.save.issued = c.issued := rfl
@[simp] theorem store_keep (c : Conn σ) : c.keep.store = c.store := rfl
@[simp] theorem saved_keep (c : Conn σ) : c.keep.saved = none := rfl

theorem store_rollback {c : Conn σ} {s : σ} (h : c.saved = some s) :
    c.rollback.store = s ∧ c.rollback.saved = none := by
  rw [rollback, h]
  exact ⟨rfl, rfl⟩

end Conn

section Fate

variable (fate : ℕ → Option ε)

/-- The `n`-th statement fails with an error, or is carried out. -/
def exec (stmt : σ → Except ε σ) : Call σ ε Unit := fun c ↦
  match fate c.issued with
  | some e => .error e c.issue
  | none =>
      match stmt c.store with
      | .error e => .error e c.issue
      | .ok s => .ok () (c.issue.put s)

/-- A statement that reads. -/
def query (read : σ → Except ε α) : Call σ ε α := fun c ↦
  match fate c.issued with
  | some e => .error e c.issue
  | none =>
      match read c.store with
      | .error e => .error e c.issue
      | .ok a => .ok a c.issue

/-- A transaction does not begin inside another one. -/
def begin (nested : ε) : Call σ ε Unit := fun c ↦
  match fate c.issued, c.saved with
  | some e, _ => .error e c.issue
  | none, some _ => .error nested c.issue
  | none, none => .ok () c.issue.save

def commit : Call σ ε Unit := fun c ↦
  match fate c.issued with
  | some e => .error e c.issue
  | none => .ok () c.issue.keep

/-- An error drops the open transaction. -/
def dropping (x : Call σ ε α) : Call σ ε α := fun c ↦
  match x.run c with
  | .ok a c' => .ok a c'
  | .error e c' => .error e c'.rollback

def transaction (nested : ε) (body : Call σ ε α) : Call σ ε α := do
  begin fate nested
  dropping do
    let a ← body
    commit fate
    return a

end Fate

variable {fate : ℕ → Option ε}

/-! ## One statement -/

theorem run_bind_ok {x : Call σ ε α} {f : α → Call σ ε β} {c c' : Conn σ} {a : α}
    (h : x.run c = .ok a c') : (x >>= f).run c = (f a).run c' := by
  rw [EStateM.run_bind, h]

theorem run_bind_error {x : Call σ ε α} {f : α → Call σ ε β} {c c' : Conn σ} {e : ε}
    (h : x.run c = .error e c') : (x >>= f).run c = .error e c' := by
  rw [EStateM.run_bind, h]

theorem run_exec (stmt : σ → Except ε σ) (c : Conn σ) : (exec fate stmt).run c =
    match fate c.issued with
    | some e => .error e c.issue
    | none =>
        match stmt c.store with
        | .error e => .error e c.issue
        | .ok s => .ok () (c.issue.put s) := rfl

theorem run_exec_ok {stmt : σ → Except ε σ} {c : Conn σ} {s : σ} (h : fate c.issued = none)
    (hs : stmt c.store = .ok s) : (exec fate stmt).run c = .ok () (c.issue.put s) := by
  rw [run_exec, h, hs]

theorem run_exec_failed {stmt : σ → Except ε σ} {c : Conn σ} {e : ε}
    (h : fate c.issued = some e) : (exec fate stmt).run c = .error e c.issue := by
  rw [run_exec, h]

theorem run_exec_refused {stmt : σ → Except ε σ} {c : Conn σ} {e : ε} (h : fate c.issued = none)
    (hs : stmt c.store = .error e) : (exec fate stmt).run c = .error e c.issue := by
  rw [run_exec, h, hs]

theorem run_begin_ok {nested : ε} {c : Conn σ} (h : fate c.issued = none) (hc : c.saved = none) :
    (begin fate nested).run c = .ok () c.issue.save := by
  change (match fate c.issued, c.saved with
    | some e, _ => EStateM.Result.error e c.issue
    | none, some _ => .error nested c.issue
    | none, none => .ok () c.issue.save) = _
  rw [h, hc]

theorem run_begin_failed {nested : ε} {c : Conn σ} {e : ε} (h : fate c.issued = some e) :
    (begin fate nested).run c = .error e c.issue := by
  change (match fate c.issued, c.saved with
    | some e, _ => EStateM.Result.error e c.issue
    | none, some _ => .error nested c.issue
    | none, none => .ok () c.issue.save) = _
  rw [h]

theorem run_commit (c : Conn σ) : (commit fate).run c =
    match fate c.issued with
    | some e => .error e c.issue
    | none => .ok () c.issue.keep := rfl

theorem run_dropping (x : Call σ ε α) (c : Conn σ) : (dropping x).run c =
    match x.run c with
    | .ok a c' => .ok a c'
    | .error e c' => .error e c'.rollback := rfl

/-! ## Many statements -/

/-- Some statements are all carried out, or one of them is the first to fail. -/
theorem carried_or_cut (fate : ℕ → Option ε) (m n : ℕ) :
    (∀ k < n, fate (m + k) = none) ∨
      ∃ k < n, (∀ i < k, fate (m + i) = none) ∧ ∃ e, fate (m + k) = some e := by
  induction n with
  | zero => exact Or.inl fun k hk ↦ absurd hk (Nat.not_lt_zero k)
  | succ n ih =>
      rcases ih with hall | ⟨k, hk, hcut⟩
      · cases hn : fate (m + n) with
        | none =>
            refine Or.inl fun k hk ↦ ?_
            rcases Nat.lt_succ_iff_lt_or_eq.mp hk with hk | rfl
            · exact hall k hk
            · exact hn
        | some e => exact Or.inr ⟨n, Nat.lt_succ_self n, hall, e, hn⟩
      · exact Or.inr ⟨k, Nat.lt_succ_of_lt hk, hcut⟩

/-- One statement for each element, none of which the store refuses. -/
def each (fate : ℕ → Option ε) (f : σ → α → σ) (l : List α) : Call σ ε Unit :=
  forM l fun a ↦ exec fate fun s ↦ .ok (f s a)

section Each

variable {f : σ → α → σ} {l : List α} {c : Conn σ}

theorem run_each_cons_ok {a : α} (h : fate c.issued = none) :
    (each fate f (a :: l)).run c = (each fate f l).run (c.issue.put (f c.store a)) := by
  rw [each, List.forM_cons]
  exact run_bind_ok (run_exec_ok h rfl)

theorem run_each_cons_failed {a : α} {e : ε} (h : fate c.issued = some e) :
    (each fate f (a :: l)).run c = .error e c.issue := by
  rw [each, List.forM_cons, run_bind_error (run_exec_failed h)]

theorem run_each_ok (h : ∀ k < l.length, fate (c.issued + k) = none) :
    (each fate f l).run c =
      .ok () ⟨l.foldl f c.store, c.saved, c.issued + l.length⟩ := by
  induction l generalizing c with
  | nil => rfl
  | cons a l ih =>
      have hhead : fate c.issued = none := h 0 (Nat.succ_pos _)
      have htail : ∀ k < l.length, fate ((c.issue.put (f c.store a)).issued + k) = none := by
        intro k hk
        rw [Conn.issued_put, Conn.issued_issue, Nat.add_assoc, Nat.add_comm 1]
        exact h (k + 1) (Nat.succ_lt_succ hk)
      rw [run_each_cons_ok hhead, ih htail, List.foldl_cons, List.length_cons]
      simp only [Conn.store_put, Conn.saved_put, Conn.saved_issue, Conn.issued_put,
        Conn.issued_issue]
      rw [Nat.add_assoc, Nat.add_comm 1]

theorem run_each_cut {k : ℕ} {e : ε} (hk : k < l.length)
    (h : ∀ i < k, fate (c.issued + i) = none) (hcut : fate (c.issued + k) = some e) :
    (each fate f l).run c =
      .error e ⟨(l.take k).foldl f c.store, c.saved, c.issued + k + 1⟩ := by
  induction l generalizing c k with
  | nil => exact absurd hk (Nat.not_lt_zero k)
  | cons a l ih =>
      cases k with
      | zero => exact run_each_cons_failed hcut
      | succ k =>
          have hnext : ∀ i, (c.issue.put (f c.store a)).issued + i = c.issued + (i + 1) := by
            intro i
            rw [Conn.issued_put, Conn.issued_issue, Nat.add_assoc, Nat.add_comm 1]
          rw [run_each_cons_ok (h 0 (Nat.succ_pos _)),
            ih (Nat.lt_of_succ_lt_succ hk) (fun i hi ↦ ?_) (by rw [hnext, hcut]), hnext,
            List.take_succ_cons, List.foldl_cons]
          · rfl
          · rw [hnext]
            exact h (i + 1) (Nat.succ_lt_succ hi)

end Each

/-! ## Transactions -/

/-- A call that neither begins nor ends a transaction. -/
def Call.Stays (x : Call σ ε α) : Prop := ∀ c, (x.after c).saved = c.saved

theorem stays_pure (a : α) : Call.Stays (pure a : Call σ ε α) := fun _ ↦ rfl

theorem stays_exec (stmt : σ → Except ε σ) : (exec fate stmt).Stays := by
  intro c
  rw [Call.after, run_exec]
  cases fate c.issued with
  | some e => rfl
  | none => cases stmt c.store <;> rfl

theorem stays_bind {x : Call σ ε α} {f : α → Call σ ε β} (hx : x.Stays)
    (hf : ∀ a, (f a).Stays) : Call.Stays (x >>= f) := by
  intro c
  have hfirst := hx c
  rw [Call.after] at hfirst ⊢
  rw [EStateM.run_bind]
  cases hrun : x.run c with
  | error e c' =>
      rw [hrun] at hfirst
      exact hfirst
  | ok a c' =>
      rw [hrun] at hfirst
      exact (hf a c').trans hfirst

theorem stays_forM {f : α → Call σ ε Unit} (hf : ∀ a, (f a).Stays) (l : List α) :
    Call.Stays (forM l f) := by
  induction l with
  | nil => exact stays_pure ()
  | cons a l ih =>
      rw [List.forM_cons]
      exact stays_bind (hf a) fun _ ↦ ih

/-! ## What a call may do to the store -/

/-- However it ends, a call takes the store along a relation. -/
def Call.Moves (R : σ → σ → Prop) (x : Call σ ε α) : Prop := ∀ c, R c.store (x.after c).store

section Moves

variable {R : σ → σ → Prop}

end Moves

/-! ## All or nothing -/

/-- A transaction keeps all that its body did, or nothing. -/
theorem transaction_cases {nested : ε} {body : Call σ ε α} {c : Conn σ} (hc : c.saved = none)
    (hbody : body.Stays) :
    (∃ a c', fate c.issued = none ∧ body.run c.issue.save = .ok a c' ∧
        fate c'.issued = none ∧
        (transaction fate nested body).run c = .ok a c'.issue.keep) ∨
      ∃ e c', (transaction fate nested body).run c = .error e c' ∧ c'.store = c.store ∧
        c'.saved = none := by
  cases hbegin : fate c.issued with
  | some e =>
      exact Or.inr ⟨e, c.issue, run_bind_error (run_begin_failed hbegin), rfl, hc⟩
  | none =>
      have hkept := hbody c.issue.save
      unfold Call.after at hkept
      have hstart : (transaction fate nested body).run c =
          (dropping do let a ← body; commit fate; return a : Call σ ε α).run c.issue.save :=
        run_bind_ok (run_begin_ok hbegin hc)
      rw [hstart, run_dropping]
      cases hrun : body.run c.issue.save with
      | error e c' =>
          rw [hrun] at hkept
          rw [run_bind_error hrun]
          exact Or.inr ⟨e, c'.rollback, rfl, Conn.store_rollback hkept⟩
      | ok a c' =>
          rw [hrun] at hkept
          rw [run_bind_ok hrun]
          cases hcommit : fate c'.issued with
          | some e =>
              have hend : (commit fate).run c' = .error e c'.issue := by
                rw [run_commit, hcommit]
              rw [run_bind_error hend]
              exact Or.inr ⟨e, c'.issue.rollback, rfl, Conn.store_rollback hkept⟩
          | none =>
              have hend : (commit fate).run c' = .ok () c'.issue.keep := by
                rw [run_commit, hcommit]
              rw [run_bind_ok hend]
              exact Or.inl ⟨a, c', rfl, rfl, hcommit, rfl⟩

end Journal
