import Mathlib

/-!
# Neighbourhoods under a partial matching

Two points have neighbours of several kinds, and a partial matching pairs some
points of the two sides.  A neighbour counts when it is paired, and it is a
hit when its partner is a neighbour of the same kind on the other side.  The
hits are the same counted from either side.
-/

namespace PartialMatching

variable {α β κ : Type*}

/-! ## Sets of points -/

section Sets

variable (e : α ≃. β) {S : Finset α} {T : Finset β}

/-- The points that have a partner. -/
def paired (S : Finset α) : Finset α := S.filter fun x ↦ (e x).isSome

theorem mem_paired {x : α} : x ∈ paired e S ↔ x ∈ S ∧ ∃ y, e x = some y := by
  rw [paired, Finset.mem_filter, Option.isSome_iff_exists]

variable [DecidableEq β]

/-- The points whose partner lies in a set. -/
def matched (S : Finset α) (T : Finset β) : Finset α := S.filter fun x ↦ ∃ y ∈ T, e x = some y

theorem mem_matched {x : α} : x ∈ matched e S T ↔ x ∈ S ∧ ∃ y ∈ T, e x = some y := by
  rw [matched, Finset.mem_filter]

theorem matched_subset_paired : matched e S T ⊆ paired e S := by
  intro x hx
  obtain ⟨hS, y, -, hy⟩ := (mem_matched e).mp hx
  exact (mem_paired e).mpr ⟨hS, y, hy⟩

theorem card_matched_eq_paired_iff : (matched e S T).card = (paired e S).card ↔
    ∀ x ∈ S, ∀ y, e x = some y → y ∈ T := by
  constructor
  · intro hcard x hx y hy
    have hsame := Finset.eq_of_subset_of_card_le (matched_subset_paired e) hcard.ge
    have hmem : x ∈ matched e S T := hsame ▸ (mem_paired e).mpr ⟨hx, y, hy⟩
    obtain ⟨-, z, hz, hez⟩ := (mem_matched e).mp hmem
    rw [hy] at hez
    rwa [Option.some.inj hez]
  · intro h
    congr 1
    refine (matched_subset_paired e).antisymm fun x hx ↦ ?_
    obtain ⟨hS, y, hy⟩ := (mem_paired e).mp hx
    exact (mem_matched e).mpr ⟨hS, y, h x hS y hy, hy⟩

variable [DecidableEq α]

/-- The partners of the matched points are matched points. -/
theorem card_matched_le_symm : (matched e S T).card ≤ (matched e.symm T S).card := by
  refine Finset.card_le_card_of_forall_subsingleton (fun x y ↦ e x = some y) ?_ ?_
  · intro x hx
    obtain ⟨hS, y, hT, hy⟩ := (mem_matched e).mp hx
    exact ⟨y, (mem_matched e.symm).mpr ⟨hT, x, hS, (PEquiv.eq_some_iff e).mpr hy⟩, hy⟩
  · rintro y - x ⟨-, hx⟩ x' ⟨-, hx'⟩
    exact PEquiv.inj e hx hx'

theorem card_matched_symm (S : Finset α) (T : Finset β) :
    (matched e.symm T S).card = (matched e S T).card := by
  refine le_antisymm ?_ (card_matched_le_symm e)
  have hle := card_matched_le_symm e.symm (S := T) (T := S)
  rwa [PEquiv.symm_symm] at hle

end Sets

/-! ## Several kinds of neighbours -/

section Kinds

variable [Fintype κ] (e : α ≃. β) (L : κ → Finset α) (R : κ → Finset β)

def pairedCount : ℕ := ∑ k, (paired e (L k)).card

/-- Every paired neighbour has its partner among the same kind of neighbours. -/
def Consistent : Prop := ∀ k, ∀ x ∈ L k, ∀ y, e x = some y → y ∈ R k

variable [DecidableEq β]

def hitCount : ℕ := ∑ k, (matched e (L k) (R k)).card

theorem hitCount_le : hitCount e L R ≤ pairedCount e L :=
  Finset.sum_le_sum fun _ _ ↦ Finset.card_le_card (matched_subset_paired e)

theorem hitCount_eq_iff : hitCount e L R = pairedCount e L ↔ Consistent e L R := by
  have hle : ∀ k ∈ Finset.univ, (matched e (L k) (R k)).card ≤ (paired e (L k)).card :=
    fun _ _ ↦ Finset.card_le_card (matched_subset_paired e)
  rw [hitCount, pairedCount, Finset.sum_eq_sum_iff_of_le hle]
  constructor
  · intro h k
    exact (card_matched_eq_paired_iff e).mp (h k (Finset.mem_univ k))
  · intro h k _
    exact (card_matched_eq_paired_iff e).mpr (h k)

variable [DecidableEq α]

theorem hitCount_symm : hitCount e.symm R L = hitCount e L R :=
  Finset.sum_congr rfl fun k _ ↦ card_matched_symm e (L k) (R k)

theorem hitCount_le_symm : hitCount e L R ≤ pairedCount e.symm R :=
  (hitCount_symm e L R).ge.trans (hitCount_le e.symm R L)

/-- The hits exhaust both sides when all neighbours of either are consistent. -/
theorem two_mul_hitCount_eq_iff : 2 * hitCount e L R = pairedCount e L + pairedCount e.symm R ↔
    Consistent e L R ∧ Consistent e.symm R L := by
  have hleft := hitCount_le e L R
  have hright := hitCount_le_symm e L R
  rw [← hitCount_eq_iff, ← hitCount_eq_iff, hitCount_symm]
  omega

end Kinds

end PartialMatching
