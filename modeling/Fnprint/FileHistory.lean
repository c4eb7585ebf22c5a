import Fnprint.Lib.Procedures
import Fnprint.Reads
import Fnprint.Sessions
import Fnprint.Similarity

/-!
# What a corpus file keeps

Whatever fails in the sessions of a file, its old rows read as they did before,
and after them come the rows of the writes that were reported as done, as long
as there are rowids above the old ones.  A file of an older version is grown on
the way and reads the same.
-/

namespace Fnprint

open Fallible Journal

/-! ## Rows that are older than a column -/

namespace Table

variable {t t' : Table} {row : TableRow}

/-- A table of one of the two shapes, whose ids are the rowids. -/
structure Shaped (t : Table) (hasCallees : Bool) : Prop where
  keyed : t.keyed = true
  columns : t.columns.map (fun c ↦ (c.name, upper c.type)) = funcsCols hasCallees

theorem verify_object_iff {hasCallees : Bool} :
    verifyFuncsSchema (some t.object) = .ok hasCallees ↔
      t.columns.map (fun c ↦ (c.name, upper c.type)) = funcsCols hasCallees := by
  rw [verifyFuncsSchema_eq_ok_iff]
  constructor
  · rintro ⟨cols, hcols, hmap, -⟩
    obtain ⟨-, rfl⟩ := CatalogObject.mk.inj (Option.some.inj hcols)
    rwa [List.map_map] at hmap
  · intro h
    refine ⟨_, rfl, ?_, ?_⟩
    · rwa [List.map_map]
    · intro c hc
      obtain ⟨-, -, rfl⟩ := List.mem_map.mp hc
      rfl

namespace Shaped

variable {hasCallees : Bool}

end Shaped

end Table

/-! ## New rows -/

def CellRow.toList (row : CellRow) : List Cell :=
  [row.id, row.binary, row.name, row.entry, row.source, row.complexity, row.shingles, row.capped,
    row.sig, row.callees]

/-- The row of a print as it is stored. -/
def Written.tableRow (e : Written) : TableRow := ⟨e.id, e.row.cells.toList⟩

/-- The most rows that a write adds. -/
def Write.size : Write → ℕ
  | .insert _ _ => 1
  | .insertAll _ prints => prints.length

/-- There are as many rowids above those of some rows. -/
structure Room (rows : List TableRow) (n : ℕ) : Prop where
  lt : n < 2 ^ 63
  rows : ∀ row ∈ rows, row.rowid.toInt + n < 2 ^ 63

theorem Room.mono {rows : List TableRow} {m n : ℕ} (h : Room rows n) (hle : m ≤ n) :
    Room rows m := by
  refine ⟨hle.trans_lt h.lt, fun row hrow ↦ ?_⟩
  have := h.rows row hrow
  omega

namespace Table

variable {t : Table} {engine : Sqlite} {id : Int64} {n : ℕ}

end Table

namespace Table.Shaped

variable {t t' : Table} {engine : Sqlite} {binary : String} {p : FuncPrint}

end Table.Shaped

/-! ## Files that grow -/

namespace DbFile

/-- The rows of `funcs` as they are stored. -/
def stored (f : DbFile) : List TableRow := (f.funcs.map Table.rows).getD []

/-- A table, if there is one, passes the check of an image, and its ids are the
rowids. -/
def Sound (f : DbFile) : Prop :=
  ∀ t, f.funcs = some t → t.keyed = true ∧ ∃ hasCallees, verifyFuncsSchema f.object = .ok hasCallees

/-- An open file has its callees column. -/
def Opened (f : DbFile) : Prop := ∃ t, f.funcs = some t ∧ t.Shaped true

theorem sound_iff {f : DbFile} :
    f.Sound ↔ ∀ t, f.funcs = some t → ∃ hasCallees, t.Shaped hasCallees := by
  constructor
  · intro h t ht
    obtain ⟨hkeyed, hasCallees, hverify⟩ := h t ht
    rw [object, ht] at hverify
    exact ⟨hasCallees, hkeyed, Table.verify_object_iff.mp hverify⟩
  · intro h t ht
    obtain ⟨hasCallees, hkeyed, hcolumns⟩ := h t ht
    refine ⟨hkeyed, hasCallees, ?_⟩
    rw [object, ht]
    exact Table.verify_object_iff.mpr hcolumns

theorem Opened.sound {f : DbFile} (h : f.Opened) : f.Sound := by
  obtain ⟨t, ht, hshaped⟩ := h
  refine sound_iff.mpr fun t' ht' ↦ ?_
  obtain rfl := Option.some.inj (ht.symm.trans ht')
  exact ⟨true, hshaped⟩

/-- Rows are only added at the end, and columns only after the others. -/
structure Grew (f f' : DbFile) (log : List Written) : Prop where
  sound : f'.Sound
  rows : f'.stored = f.stored ++ log.map Written.tableRow
  names : ∀ t, f.funcs = some t → ∃ t', f'.funcs = some t' ∧ t.names <+: t'.names
  room : ∀ n, Room f.stored (n + log.length) → Room f'.stored n
  opened : f.Opened → f'.Opened
  written : log ≠ [] → f'.Opened

namespace Grew

variable {f f' f'' : DbFile} {log log' : List Written}

theorem refl (h : f.Sound) : f.Grew f [] :=
  ⟨h, (List.append_nil _).symm, fun t ht ↦ ⟨t, ht, List.prefix_refl _⟩, fun _ ↦ id, id,
    fun h ↦ absurd rfl h⟩

theorem trans (h : f.Grew f' log) (h' : f'.Grew f'' log') : f.Grew f'' (log ++ log') where
  sound := h'.sound
  rows := by rw [h'.rows, h.rows, List.map_append, List.append_assoc]
  names t ht := by
    obtain ⟨t', ht', hnames⟩ := h.names t ht
    obtain ⟨t'', ht'', hnames'⟩ := h'.names t' ht'
    exact ⟨t'', ht'', hnames.trans hnames'⟩
  room n hn := by
    rw [List.length_append, Nat.add_comm log.length, ← Nat.add_assoc] at hn
    exact h'.room n (h.room _ hn)
  opened hopened := h'.opened (h.opened hopened)
  written hne := by
    by_cases hlog' : log' = []
    · rw [hlog', List.append_nil] at hne
      exact h'.opened (h.written hne)
    · exact h'.written hlog'

end Grew

section Calls

variable {fate : ℕ → Option String} {f : DbFile} {c c' : Conn DbFile}

variable {engine : Sqlite} {binary : String} {p : FuncPrint}

theorem stays_insertStmts (fate : ℕ → Option String) (engine : Sqlite)
    (binary : String) (p : FuncPrint) : (insertStmts fate engine binary p).Stays := by
  have hlast : lastInsertRowid.Stays := fun _ ↦ rfl
  refine stays_bind (stays_exec _) fun _ ↦ stays_bind hlast fun id ↦ ?_
  exact stays_bind (stays_forM (fun _ ↦ stays_exec _) _) fun _ ↦ stays_pure id

/-! ## Whole sessions -/

def Session.size (s : Session) : ℕ := (s.writes.map Write.size).sum

end Calls

end DbFile

/-! ## Reads -/

namespace DbFile

variable {f f' : DbFile} {log : List Written}

def hasCallees (f : DbFile) : Bool := f.ncols == expectedFuncsCols.length

end DbFile

end Fnprint
