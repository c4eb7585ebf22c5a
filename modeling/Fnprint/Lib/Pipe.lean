import Mathlib

/-!
# Bounded pipes

A pipe holds a bounded number of items between its two ends.  A write is taken
when it fits, a read takes what is there, and each end can be closed: with the
write end closed an empty pipe is at its end, with the read end closed a write
is refused and what was in the pipe is gone.
-/

variable {α : Type*}

structure Pipe (α : Type*) where
  buf : List α
  reader : Bool
  writer : Bool
  deriving DecidableEq

namespace Pipe

def empty : Pipe α := ⟨[], true, true⟩

/-- A write of `items` that fits in a pipe of capacity `cap`. -/
def write (cap : ℕ) (p : Pipe α) (items : List α) : Option (Pipe α) :=
  if p.writer ∧ p.reader ∧ items ≠ [] ∧ p.buf.length + items.length ≤ cap then
    some { p with buf := p.buf ++ items }
  else none

/-- A read of `n` of the items in the pipe. -/
def read (p : Pipe α) (n : ℕ) : Option (List α × Pipe α) :=
  if p.reader ∧ 0 < n ∧ n ≤ p.buf.length then
    some (p.buf.take n, { p with buf := p.buf.drop n })
  else none

def closeReader (p : Pipe α) : Pipe α := { p with buf := [], reader := false }

def closeWriter (p : Pipe α) : Pipe α := { p with writer := false }

/-- The read end, closed unless it is still held. -/
def keepReader (p : Pipe α) (held : Bool) : Pipe α := bif held then p else p.closeReader

def keepWriter (p : Pipe α) (held : Bool) : Pipe α := bif held then p else p.closeWriter

/-- A read finds the end: the pipe is empty and no more is to come. -/
def atEnd (p : Pipe α) : Bool := p.reader && p.buf.isEmpty && !p.writer

/-- A write is refused: nobody is left to read. -/
def broken (p : Pipe α) : Bool := p.writer && !p.reader

variable {p q : Pipe α} {cap n : ℕ} {items sent got : List α}

theorem write_eq_some_iff :
    p.write cap items = some q ↔
      p.writer = true ∧ p.reader = true ∧ items ≠ [] ∧ p.buf.length + items.length ≤ cap ∧
        q = { p with buf := p.buf ++ items } := by
  simp only [write, Option.ite_none_right_eq_some, Option.some.injEq, and_assoc, @eq_comm _ _ q]

theorem read_eq_some_iff :
    p.read n = some (items, q) ↔
      p.reader = true ∧ 0 < n ∧ n ≤ p.buf.length ∧ items = p.buf.take n ∧
        q = { p with buf := p.buf.drop n } := by
  simp only [read, Option.ite_none_right_eq_some, Option.some.injEq, Prod.mk.injEq, and_assoc,
    @eq_comm _ _ items, @eq_comm _ _ q]

theorem atEnd_iff : p.atEnd = true ↔ p.reader = true ∧ p.buf = [] ∧ p.writer = false := by
  simp [atEnd, and_assoc]

theorem broken_iff : p.broken = true ↔ p.writer = true ∧ p.reader = false := by
  simp [broken]

@[simp] theorem closeReader_buf : p.closeReader.buf = [] := rfl

@[simp] theorem closeReader_reader : p.closeReader.reader = false := rfl

@[simp] theorem closeReader_writer : p.closeReader.writer = p.writer := rfl

@[simp] theorem closeWriter_buf : p.closeWriter.buf = p.buf := rfl

@[simp] theorem closeWriter_reader : p.closeWriter.reader = p.reader := rfl

@[simp] theorem closeWriter_writer : p.closeWriter.writer = false := rfl

section Keeping

variable {held : Bool}

@[simp] theorem keepReader_reader : (p.keepReader held).reader = (p.reader && held) := by
  cases held <;> simp [keepReader]

@[simp] theorem keepReader_writer : (p.keepReader held).writer = p.writer := by
  cases held <;> rfl

theorem length_keepReader_le : (p.keepReader held).buf.length ≤ p.buf.length := by
  cases held <;> simp [keepReader]

@[simp] theorem keepWriter_buf : (p.keepWriter held).buf = p.buf := by
  cases held <;> rfl

@[simp] theorem keepWriter_reader : (p.keepWriter held).reader = p.reader := by
  cases held <;> rfl

@[simp] theorem keepWriter_writer : (p.keepWriter held).writer = (p.writer && held) := by
  cases held <;> simp [keepWriter]

end Keeping

/-- The pipe is in order: what was read is the front of what was sent, and
while the read end is open the rest is still in the pipe. -/
structure Carries (p : Pipe α) (sent got : List α) : Prop where
  prefix_sent : got <+: sent
  append_buf : p.reader = true → got ++ p.buf = sent

theorem carries_empty : Carries (empty : Pipe α) [] [] :=
  ⟨List.prefix_rfl, fun _ ↦ rfl⟩

namespace Carries

theorem write (h : p.Carries sent got) (hw : p.write cap items = some q) :
    q.Carries (sent ++ items) got := by
  obtain ⟨-, -, -, -, rfl⟩ := write_eq_some_iff.mp hw
  refine ⟨h.prefix_sent.trans (List.prefix_append _ _), fun hr ↦ ?_⟩
  rw [← h.append_buf hr, List.append_assoc]

theorem read (h : p.Carries sent got) (hr : p.read n = some (items, q)) :
    q.Carries sent (got ++ items) := by
  obtain ⟨hopen, -, -, rfl, rfl⟩ := read_eq_some_iff.mp hr
  have hsplit : got ++ p.buf.take n ++ p.buf.drop n = sent := by
    rw [List.append_assoc, List.take_append_drop, h.append_buf hopen]
  exact ⟨⟨_, hsplit⟩, fun _ ↦ hsplit⟩

theorem closeReader (h : p.Carries sent got) : p.closeReader.Carries sent got :=
  ⟨h.prefix_sent, fun hr ↦ absurd hr Bool.false_ne_true⟩

theorem closeWriter (h : p.Carries sent got) : p.closeWriter.Carries sent got :=
  ⟨h.prefix_sent, h.append_buf⟩

theorem keepReader (h : p.Carries sent got) (held : Bool) :
    (p.keepReader held).Carries sent got := by
  cases held with
  | true => exact h
  | false => exact h.closeReader

theorem keepWriter (h : p.Carries sent got) (held : Bool) :
    (p.keepWriter held).Carries sent got := by
  cases held with
  | true => exact h
  | false => exact h.closeWriter

/-- At the end of the pipe everything sent has been read. -/
theorem eq_of_atEnd (h : p.Carries sent got) (hend : p.atEnd = true) : got = sent := by
  obtain ⟨hr, hbuf, -⟩ := atEnd_iff.mp hend
  simpa [hbuf] using h.append_buf hr

end Carries

/-- A pipe with an item in it can be read. -/
theorem exists_read_one (hr : p.reader = true) (hbuf : p.buf ≠ []) :
    ∃ items q, p.read 1 = some (items, q) :=
  ⟨_, _, read_eq_some_iff.mpr ⟨hr, Nat.one_pos, List.length_pos_iff.mpr hbuf, rfl, rfl⟩⟩

/-- A pipe with both ends open that is not full takes an item. -/
theorem exists_write_one (hw : p.writer = true) (hr : p.reader = true) (hfit : p.buf.length < cap)
    (x : α) : ∃ q, p.write cap [x] = some q :=
  ⟨_, write_eq_some_iff.mpr ⟨hw, hr, by simp, by simpa using hfit, rfl⟩⟩

end Pipe
