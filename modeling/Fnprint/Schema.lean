import Fnprint.Cells

/-!
# The shape of a corpus file

What the catalogue of an image has to say about `funcs` before a row of it is
read: an ordinary table with the expected columns in their order.  An older
version wrote it without the last one.
-/

namespace Fnprint

open Fallible

/-- A letter of a declared type in capitals; other characters stay. -/
def upper (s : String) : String := String.ofList (s.toList.map Char.toUpper)

/-- A column as the catalogue lists it; only an ordinary one is not hidden. -/
structure CatalogColumn where
  name : String
  type : String
  hidden : Int64
  deriving DecidableEq

/-- An object of the catalogue: a table, a view, a virtual or a shadow table. -/
structure CatalogObject where
  kind : String
  columns : List CatalogColumn

def expectedFuncsCols : List (String × String) :=
  [("id", "INTEGER"), ("binary", "TEXT"), ("name", "TEXT"), ("entry", "INTEGER"),
    ("source", "TEXT"), ("complexity", "INTEGER"), ("shingles", "INTEGER"),
    ("capped", "INTEGER"), ("sig", "BLOB"), ("callees", "BLOB")]

def legacyFuncsCols : ℕ := expectedFuncsCols.length - 1

/-- A column against the one expected in its place. -/
def checkColumn (p : CatalogColumn × String × String) : Except String Unit :=
  let ⟨c, name, type⟩ := p
  if c.hidden ≠ 0 then
    .error s!"corpus funcs column '{c.name}' is hidden/generated (hidden={c.hidden})"
  else if c.name ≠ name ∨ upper c.type ≠ type then
    .error (s!"corpus funcs column mismatch: got '{c.name}' {upper c.type}, " ++
      s!"expected '{name}' {type}")
  else .ok ()

/-- Whether there is a callees column, of an image whose `funcs` is an ordinary
table of one of the two shapes. -/
def verifyFuncsSchema : Option CatalogObject → Except String Bool
  | none => .error "corpus has no funcs table"
  | some ⟨kind, cols⟩ =>
      if kind ≠ "table" then
        .error s!"corpus funcs is a '{kind}', expected an ordinary table"
      else if cols.length ≠ expectedFuncsCols.length ∧ cols.length ≠ legacyFuncsCols then
        .error (s!"corpus funcs has {cols.length} columns, " ++
          s!"expected {expectedFuncsCols.length} (or {legacyFuncsCols} for a pre-0.6 corpus)")
      else do
        forM (cols.zip expectedFuncsCols) checkColumn
        return cols.length == expectedFuncsCols.length

/-! ## What passes -/

/-- The columns of one of the two shapes. -/
def funcsCols (hasCallees : Bool) : List (String × String) :=
  if hasCallees then expectedFuncsCols else expectedFuncsCols.take legacyFuncsCols

theorem length_funcsCols (hasCallees : Bool) : (funcsCols hasCallees).length =
    if hasCallees then expectedFuncsCols.length else legacyFuncsCols := by
  cases hasCallees <;> rfl

theorem legacy_then_callees (hasCallees : Bool) : funcsCols hasCallees <+: expectedFuncsCols := by
  cases hasCallees with
  | false => exact List.take_prefix _ _
  | true => exact List.prefix_refl _

theorem checkColumn_eq_ok_iff {c : CatalogColumn} {name type : String} :
    checkColumn (c, name, type) = .ok () ↔ c.hidden = 0 ∧ c.name = name ∧ upper c.type = type := by
  unfold checkColumn
  dsimp only
  split
  · next h => exact iff_of_false (fun heq ↦ by cases heq) fun heq ↦ h heq.1
  · next hhidden =>
      split
      · next h =>
          refine iff_of_false (fun heq ↦ by cases heq) fun heq ↦ ?_
          rcases h with h | h
          · exact h heq.2.1
          · exact h heq.2.2
      · next h =>
          rw [not_or, not_not, not_not] at h
          exact iff_of_true rfl ⟨not_not.mp hhidden, h⟩

theorem forM_checkColumn_eq_ok_iff {cols : List CatalogColumn}
    {expected : List (String × String)} (h : cols.length ≤ expected.length) :
    forM (cols.zip expected) checkColumn = .ok () ↔
      cols.map (fun c ↦ (c.name, upper c.type)) = expected.take cols.length ∧
        ∀ c ∈ cols, c.hidden = 0 := by
  induction cols generalizing expected with
  | nil => exact iff_of_true rfl ⟨rfl, List.forall_mem_nil _⟩
  | cons c cols ih =>
      cases expected with
      | nil => exact absurd h (Nat.not_succ_le_zero _)
      | cons e expected =>
          obtain ⟨name, type⟩ := e
          have hrest := ih (Nat.le_of_succ_le_succ h)
          rw [List.zip_cons_cons, List.forM_cons, bind_eq_ok_iff, List.map_cons, List.length_cons,
            List.take_succ_cons, List.cons.injEq, List.forall_mem_cons, Prod.mk.injEq]
          constructor
          · rintro ⟨_, hone, hmany⟩
            obtain ⟨hhidden, hname, htype⟩ := checkColumn_eq_ok_iff.mp hone
            obtain ⟨hmap, hall⟩ := hrest.mp hmany
            exact ⟨⟨⟨hname, htype⟩, hmap⟩, hhidden, hall⟩
          · rintro ⟨⟨⟨hname, htype⟩, hmap⟩, hhidden, hall⟩
            exact ⟨(), checkColumn_eq_ok_iff.mpr ⟨hhidden, hname, htype⟩, hrest.mpr ⟨hmap, hall⟩⟩

/-- An ordinary table passes with the ordinary columns of a shape. -/
theorem verifyFuncsSchema_eq_ok_iff {object : Option CatalogObject} {hasCallees : Bool} :
    verifyFuncsSchema object = .ok hasCallees ↔ ∃ cols, object = some ⟨"table", cols⟩ ∧
      cols.map (fun c ↦ (c.name, upper c.type)) = funcsCols hasCallees ∧
        ∀ c ∈ cols, c.hidden = 0 := by
  constructor
  · intro h
    unfold verifyFuncsSchema at h
    split at h
    · cases h
    · next kind cols =>
        split at h
        · cases h
        · next hkind =>
            split at h
            · cases h
            · next hlen =>
                obtain ⟨_, hcols, hpure⟩ := bind_eq_ok_iff.mp h
                obtain rfl := pure_eq_ok_iff.mp hpure
                have hle : cols.length ≤ expectedFuncsCols.length := by
                  unfold legacyFuncsCols at hlen
                  omega
                obtain ⟨hmap, hhidden⟩ := (forM_checkColumn_eq_ok_iff hle).mp hcols
                refine ⟨cols, by rw [not_not.mp hkind], ?_, hhidden⟩
                rw [hmap, funcsCols]
                by_cases hfull : cols.length = expectedFuncsCols.length
                · rw [hfull, beq_self_eq_true, if_pos rfl, List.take_length]
                · rw [beq_false_of_ne hfull, if_neg Bool.false_ne_true]
                  congr 1
                  unfold legacyFuncsCols at hlen ⊢
                  omega
  · rintro ⟨cols, rfl, hmap, hhidden⟩
    have hlen : cols.length = (funcsCols hasCallees).length := by rw [← hmap, List.length_map]
    have hle := hlen ▸ (legacy_then_callees hasCallees).length_le
    have hcols := (forM_checkColumn_eq_ok_iff hle).mpr
      ⟨by rw [hmap, hlen]; exact List.prefix_iff_eq_take.mp (legacy_then_callees hasCallees),
        hhidden⟩
    rw [length_funcsCols] at hlen
    have hpass : ¬(cols.length ≠ expectedFuncsCols.length ∧ cols.length ≠ legacyFuncsCols) := by
      rw [hlen]
      cases hasCallees <;> decide
    rw [verifyFuncsSchema, if_neg (not_not.mpr rfl), if_neg hpass]
    refine bind_eq_ok_iff.mpr ⟨(), hcols, ?_⟩
    rw [hlen]
    cases hasCallees <;> rfl

end Fnprint
