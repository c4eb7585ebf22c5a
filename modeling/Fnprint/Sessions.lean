import Fnprint.Lib.Journal
import Fnprint.Schema

/-!
# A corpus file over its sessions

A file is opened, grown where an older version wrote it, and written to, time
after time.  A table keeps its rows as they were stored: a row that is older than
a column has no value for it, and reads as NULL there.  The files are in UTF-8,
as they are created here.
-/

namespace Fnprint

open Fallible Journal

/-! ## Tables -/

/-- Names of columns are compared whatever their case. -/
def sameName (a b : String) : Bool := a.toList.map Char.toLower == b.toList.map Char.toLower

structure TableColumn where
  name : String
  type : String
  notNull : Bool

/-- The values of the columns that there were when the row was written. -/
structure TableRow where
  rowid : Int64
  cells : List Cell

/-- An ordinary table in rowid order.  Where it is keyed, its column `id` stands
for the rowid. -/
structure Table where
  columns : List TableColumn
  keyed : Bool
  rows : List TableRow
  width : ∀ row ∈ rows, row.cells.length ≤ columns.length
  increasing : rows.Pairwise fun row row' ↦ row.rowid < row'.rowid

/-- What sqlite decides by itself: what a column of a declared type keeps of a
value, and the rowid it comes by when the largest one is taken. -/
structure Sqlite where
  stored : String → Cell → Cell
  pick : List Int64 → Option Int64

/-- Where a row has the value of a column. -/
def position (names : List String) (name : String) : ℕ := names.findIdx fun n ↦ sameName n name

/-- What a column is given by its name. -/
def given (values : List (String × Cell)) (name : String) : Cell :=
  ((values.find? fun v ↦ sameName v.1 name).map Prod.snd).getD .null

namespace Table

def names (t : Table) : List String := t.columns.map TableColumn.name

def value (t : Table) (name : String) (row : TableRow) : Cell :=
  row.cells.getD (position t.names name) .null

def hasColumn (t : Table) (name : String) : Bool := t.columns.any fun c ↦ sameName c.name name

/-- The table as the catalogue lists it. -/
def object (t : Table) : CatalogObject := ⟨"table", t.columns.map fun c ↦ ⟨c.name, c.type, 0⟩⟩

/-- A row, column by column. -/
def cellRow (t : Table) (row : TableRow) : CellRow where
  id := t.value "id" row
  binary := t.value "binary" row
  name := t.value "name" row
  entry := t.value "entry" row
  source := t.value "source" row
  complexity := t.value "complexity" row
  shingles := t.value "shingles" row
  capped := t.value "capped" row
  sig := t.value "sig" row
  callees := t.value "callees" row

/-- ALTER TABLE: the rows stay as they are. -/
def addColumn (c : TableColumn) (t : Table) : Except String Table :=
  if t.hasColumn c.name then .error s!"duplicate column name: {c.name}"
  else .ok { t with
    columns := t.columns ++ [c]
    width := fun row hrow ↦ (t.width row hrow).trans (by simp) }

/-- One more than the largest rowid; once that is the largest there is, one that
is not taken, if such a one is come by. -/
def nextId (engine : Sqlite) (t : Table) : Except String Int64 :=
  match t.rows.getLast? with
  | none => .ok 1
  | some row =>
      if row.rowid = Int64.maxValue then
        match (engine.pick (t.rows.map TableRow.rowid)).filter
            fun id ↦ id ∉ t.rows.map TableRow.rowid with
        | some id => .ok id
        | none => .error "database or disk is full"
      else .ok (row.rowid + 1)

theorem lt_add_one_of_getLast {t : Table} {last : TableRow} (h : t.rows.getLast? = some last)
    (hmax : last.rowid ≠ Int64.maxValue) : ∀ row ∈ t.rows, row.rowid < last.rowid + 1 := by
  intro row hrow
  obtain ⟨front, hsplit⟩ := List.getLast?_eq_some_iff.mp h
  have hlast := lt_add_one64 hmax
  have hsorted := t.increasing
  rw [hsplit] at hrow hsorted
  rcases List.mem_append.mp hrow with hrow | hrow
  · exact Int64.lt_trans ((List.pairwise_append.mp hsorted).2.2 row hrow last
      List.mem_cons_self) hlast
  · rwa [List.mem_singleton.mp hrow]

theorem nextId_unused {engine : Sqlite} {t : Table} {id : Int64} (h : t.nextId engine = .ok id) :
    ∀ row ∈ t.rows, row.rowid ≠ id := by
  unfold nextId at h
  split at h
  · next hnone =>
      rw [List.getLast?_eq_none_iff.mp hnone]
      exact List.forall_mem_nil _
  · next last hlast =>
      split at h
      · split at h
        · next id' hpick =>
            obtain rfl := Except.ok.inj h
            obtain ⟨-, hfree⟩ := Option.filter_eq_some_iff.mp hpick
            intro row hrow heq
            exact of_decide_eq_true hfree (heq ▸ List.mem_map_of_mem hrow)
        · cases h
      · next hmax =>
          obtain rfl := Except.ok.inj h
          exact fun row hrow ↦ Int64.ne_of_lt (lt_add_one_of_getLast hlast hmax row hrow)

/-- The values of a new row, each as its column stores it. -/
def record (engine : Sqlite) (t : Table) (id : Int64) (values : List (String × Cell)) :
    List Cell :=
  t.columns.map fun c ↦
    if t.keyed && sameName c.name "id" then .integer id
    else engine.stored c.type (given values c.name)

/-- The columns that may not be NULL and are. -/
def missing (t : Table) (cells : List Cell) : Option String :=
  ((t.columns.zip cells).find? fun p ↦ p.1.notNull && p.2 == .null).map fun p ↦ p.1.name

/-- A row takes its place by its rowid. -/
def put (t : Table) (row : TableRow) (hwidth : row.cells.length ≤ t.columns.length)
    (hunused : ∀ r ∈ t.rows, r.rowid ≠ row.rowid) : Table :=
  { t with
    rows := t.rows.filter (fun r ↦ r.rowid < row.rowid) ++
      row :: t.rows.filter fun r ↦ !decide (r.rowid < row.rowid)
    width := by
      intro r hr
      rcases List.mem_append.mp hr with hr | hr
      · exact t.width r (List.mem_filter.mp hr).1
      · rcases List.mem_cons.mp hr with rfl | hr
        · exact hwidth
        · exact t.width r (List.mem_filter.mp hr).1
    increasing := by
      have hbelow : ∀ r ∈ t.rows.filter (fun r ↦ r.rowid < row.rowid), r.rowid < row.rowid :=
        fun r hr ↦ of_decide_eq_true (List.mem_filter.mp hr).2
      have habove : ∀ r ∈ t.rows.filter (fun r ↦ !decide (r.rowid < row.rowid)),
          row.rowid < r.rowid := by
        intro r hr
        obtain ⟨hr, hnot⟩ := List.mem_filter.mp hr
        refine Int64.lt_of_le_of_ne (Int64.not_lt.mp (by simpa using hnot)) ?_
        exact (hunused r hr).symm
      refine List.pairwise_append.mpr ⟨t.increasing.filter _, ?_, fun r hr r' hr' ↦ ?_⟩
      · exact List.pairwise_cons.mpr ⟨habove, t.increasing.filter _⟩
      · rcases List.mem_cons.mp hr' with rfl | hr'
        · exact hbelow r hr
        · exact Int64.lt_trans (hbelow r hr) (habove r' hr') }

/-- INSERT of values by the names of their columns. -/
def insert (engine : Sqlite) (values : List (String × Cell)) (t : Table) : Except String Table :=
  match values.find? fun v ↦ !t.hasColumn v.1 with
  | some v => .error s!"table funcs has no column named {v.1}"
  | none =>
      match hid : t.nextId engine with
      | .error e => .error e
      | .ok id =>
          match t.missing (t.record engine id values) with
          | some name => .error s!"NOT NULL constraint failed: funcs.{name}"
          | none => .ok (t.put ⟨id, t.record engine id values⟩ (List.length_map _).le
              (nextId_unused hid))

end Table

/-! ## Files -/

/-- A corpus file in UTF-8, with the rowid a connection to it wrote last; where one
of its tables exists it is an ordinary one. -/
structure DbFile where
  funcs : Option Table
  bands : Option (List BandRow)
  lastRowid : Int64

/-- What the tables are created with. -/
def funcsColumns : List TableColumn :=
  [⟨"id", "INTEGER", false⟩, ⟨"binary", "TEXT", true⟩, ⟨"name", "TEXT", false⟩,
    ⟨"entry", "INTEGER", true⟩, ⟨"source", "TEXT", true⟩, ⟨"complexity", "INTEGER", true⟩,
    ⟨"shingles", "INTEGER", true⟩, ⟨"capped", "INTEGER", true⟩, ⟨"sig", "BLOB", true⟩,
    ⟨"callees", "BLOB", false⟩]

def freshFuncs : Table := ⟨funcsColumns, true, [], List.forall_mem_nil _, List.Pairwise.nil⟩

/-- The named values of a print; its callees are cut to the cap. -/
def valuesOf (binary : String) (p : FuncPrint) : List (String × Cell) :=
  [("binary", textCell binary), ("name", (p.name.map textCell).getD .null),
    ("entry", .integer p.entry.toInt64), ("source", textCell p.source),
    ("complexity", .integer p.fp.complexity.toUInt64.toInt64),
    ("shingles", .integer p.fp.shingles.toUInt64.toInt64),
    ("capped", .integer (if p.fp.capped then 1 else 0)),
    ("sig", .blob (encodeSig p.fp.sig)),
    ("callees", .blob (encodeSig (p.callees.take maxCallees)))]

namespace DbFile

def object (f : DbFile) : Option CatalogObject := f.funcs.map Table.object

/-- The rows of `funcs`, as a reader gets them. -/
def rows (f : DbFile) : List CellRow := (f.funcs.map fun t ↦ t.rows.map t.cellRow).getD []

def ncols (f : DbFile) : ℕ := (f.funcs.map fun t ↦ t.columns.length).getD 0

def createFuncs (f : DbFile) : DbFile := { f with funcs := some (f.funcs.getD freshFuncs) }

def createBands (f : DbFile) : DbFile := { f with bands := some (f.bands.getD []) }

def addCallees (f : DbFile) : Except String DbFile :=
  match f.funcs with
  | none => .error "no such table: funcs"
  | some t => (t.addColumn ⟨"callees", "BLOB", false⟩).map fun t ↦ { f with funcs := some t }

def addFunc (engine : Sqlite) (binary : String) (p : FuncPrint) (f : DbFile) :
    Except String DbFile :=
  match f.funcs with
  | none => .error "no such table: funcs"
  | some t => (t.insert engine (valuesOf binary p)).map fun t' ↦
      { f with funcs := some t', lastRowid := okOr 0 (t.nextId engine) }

def addBand (b : BandRow) (f : DbFile) : Except String DbFile :=
  match f.bands with
  | none => .error "no such table: bands"
  | some bands => .ok { f with bands := some (bands ++ [b]) }

def lastInsertRowid : Call DbFile String Int64 := fun c ↦ .ok c.store.lastRowid c

/-! ## Calls -/

section Fate

variable (fate : ℕ → Option String)

/-- The tables are created where they do not exist, and a table without callees
gets its last column. -/
def init : Call DbFile String Unit := do
  exec fate fun f ↦ .ok f.createFuncs
  exec fate fun f ↦ .ok f.createBands
  -- the index on the bands
  exec fate .ok
  let ncols ← query fate fun f ↦ .ok f.ncols
  if ncols = legacyFuncsCols then exec fate addCallees

variable (engine : Sqlite)

def insertStmts (binary : String) (p : FuncPrint) : Call DbFile String Int64 := do
  exec fate (addFunc engine binary p)
  let id ← lastInsertRowid
  forM (bandRowsOf id p.fp) fun b ↦ exec fate (addBand b)
  return id

def insertAllStmts (binary : String) (prints : List FuncPrint) : Call DbFile String ℕ := do
  transaction fate "cannot start a transaction within a transaction" do
    forM prints fun p ↦ do let _ ← insertStmts fate engine binary p; return
  return prints.length

/-- One of the public writes. -/
def writeStmts : Write → Call DbFile String Unit
  | .insert binary p => do let _ ← insertStmts fate engine binary p; return
  | .insertAll binary prints => do let _ ← insertAllStmts fate engine binary prints; return

/-- What a caller is told. -/
def outcome {α : Type} : EStateM.Result String (Conn DbFile) α → Except String Unit
  | .ok _ _ => .ok ()
  | .error e _ => .error e

/-- Writes on one connection, each with its outcome; a failed one does not end it. -/
def runWrites : List Write → Conn DbFile → Conn DbFile × List (Write × Except String Unit)
  | [], c => (c, [])
  | w :: ws, c =>
      let rest := runWrites ws ((writeStmts fate engine w).after c)
      (rest.1, (w, outcome ((writeStmts fate engine w).run c)) :: rest.2)

end Fate

/-- A connection's statements may fail, each in its own way. -/
structure Session where
  fate : ℕ → Option String
  writes : List Write

variable (engine : Sqlite)

def Session.run (s : Session) (f : DbFile) : DbFile × List (Write × Except String Unit) :=
  match (init s.fate).run ⟨f, none, 0⟩ with
  | .error _ c => (c.store, [])
  | .ok _ c => ((runWrites s.fate engine s.writes c).1.store,
      (runWrites s.fate engine s.writes c).2)

end DbFile

end Fnprint
