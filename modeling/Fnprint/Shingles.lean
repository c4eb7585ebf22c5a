import Fnprint.Lib.Windows
import Fnprint.Minhash

/-!
# Local edits of a token list

A changed or inserted token moves its own unigram and the n-grams over its
position, and no other shingle, whatever repeats or collides elsewhere.
-/

namespace Fnprint

open Windows StableSort

theorem mem_windows {α : Type*} {n : ℕ} {w l : List α} : w ∈ windows n l ↔ IsWindow n w l := by
  rw [windows, List.mem_map]
  refine exists_congr fun i ↦ and_congr ?_ ⟨Eq.symm, Eq.symm⟩
  rw [List.mem_range]
  omega

def unigram (t : UInt64) : UInt64 := mix [0x01, t]

def ngram (w : List UInt64) : UInt64 := mix (0x03 :: w)

theorem mem_shingleSet {toks : List UInt64} {s : UInt64} :
    s ∈ shingleSet toks ↔
      (∃ t ∈ toks, unigram t = s) ∨ ∃ w, IsWindow shingleN w toks ∧ ngram w = s := by
  have hngrams : (s ∈ if shingleN ≤ toks.length then (windows shingleN toks).map ngram else []) ↔
      ∃ w, IsWindow shingleN w toks ∧ ngram w = s := by
    split
    · simp only [List.mem_map, mem_windows]
    · next hshort =>
        refine iff_of_false List.not_mem_nil ?_
        rintro ⟨w, ⟨i, hi, -⟩, -⟩
        omega
  by_cases hnil : toks = []
  · subst hnil
    simp [shingleSet, IsWindow, shingleN]
  · rw [shingleSet, if_neg (by simpa using hnil), mem_sortDedup, List.mem_append, List.mem_map]
    exact or_congr_right hngrams

theorem nodup_shingleSet (toks : List UInt64) : (shingleSet toks).Nodup :=
  (pairwise_shingleSet toks).imp fun {x y} hlt heq ↦ by
    have hsame : compare y y = .lt := heq ▸ hlt
    exact absurd hsame (Std.OrientedCmp.not_lt_of_lt hsame)

/-- How many shingles of `x` are missing from those of `y`. -/
def missing (x y : List UInt64) : ℕ := ((shingleSet x).filter fun s ↦ s ∉ shingleSet y).length

/-- What an edit takes away is some unigrams and the n-grams of some windows. -/
theorem missing_le {x y tokens : List UInt64} {blocks : List (List UInt64)}
    (htokens : ∀ t ∈ x, t ∈ y ∨ t ∈ tokens)
    (hblocks : ∀ w, IsWindow shingleN w x → IsWindow shingleN w y ∨ w ∈ blocks) :
    missing x y ≤ tokens.length + blocks.length := by
  have hcovered : ∀ s ∈ shingleSet x,
      s ∈ shingleSet y ∨ s ∈ tokens.map unigram ++ blocks.map ngram := by
    intro s hs
    rw [mem_shingleSet, List.mem_append, List.mem_map, List.mem_map]
    rcases mem_shingleSet.mp hs with ⟨t, ht, rfl⟩ | ⟨w, hw, rfl⟩
    · rcases htokens t ht with hy | htok
      · exact Or.inl (Or.inl ⟨t, hy, rfl⟩)
      · exact Or.inr (Or.inl ⟨t, htok, rfl⟩)
    · rcases hblocks w hw with hy | hblock
      · exact Or.inl (Or.inr ⟨w, hy, rfl⟩)
      · exact Or.inr (Or.inr ⟨w, hblock, rfl⟩)
  have hle := length_filter_notMem_le (nodup_shingleSet x) hcovered
  rwa [List.length_append, List.length_map, List.length_map] at hle

theorem missing_substitute_le (pre suf : List UInt64) (a b : UInt64) :
    missing (pre ++ a :: suf) (pre ++ b :: suf) ≤ 4 := by
  have htokens : ∀ t ∈ pre ++ a :: suf, t ∈ pre ++ b :: suf ∨ t ∈ [a] := by
    intro t ht
    simp only [List.mem_append, List.mem_cons, List.not_mem_nil, or_false] at ht ⊢
    tauto
  have hle := missing_le htokens fun w hw ↦ isWindow_substitute b hw
  rwa [length_windowsAt] at hle

theorem missing_insert_le (pre suf : List UInt64) (t : UInt64) :
    missing (pre ++ suf) (pre ++ t :: suf) ≤ 2 ∧ missing (pre ++ t :: suf) (pre ++ suf) ≤ 4 := by
  have hlost : ∀ u ∈ pre ++ suf, u ∈ pre ++ t :: suf ∨ u ∈ [] := by
    intro u hu
    simp only [List.mem_append, List.mem_cons] at hu ⊢
    tauto
  have hgained : ∀ u ∈ pre ++ t :: suf, u ∈ pre ++ suf ∨ u ∈ [t] := by
    intro u hu
    simp only [List.mem_append, List.mem_cons, List.not_mem_nil, or_false] at hu ⊢
    tauto
  have hle := missing_le hlost fun w hw ↦ isWindow_insert (b := t) hw
  have hle' := missing_le hgained fun w hw ↦ isWindow_of_insert hw
  rw [length_windowsAt] at hle hle'
  exact ⟨hle, hle'⟩

/-- Two lists of one length that differ in one position. -/
theorem exists_substitution {α : Type*} {x y : List α} (hlen : x.length = y.length)
    (hone : ∃! p : ℕ, x[p]? ≠ y[p]?) :
    ∃ pre a b suf, x = pre ++ a :: suf ∧ y = pre ++ b :: suf := by
  obtain ⟨p, hp, hunique⟩ := hone
  have hsame : ∀ j, j ≠ p → x[j]? = y[j]? := fun j hj ↦ by_contra fun hne ↦ hj (hunique j hne)
  have hpx : p < x.length := by
    by_contra hge
    refine hp ?_
    rw [List.getElem?_eq_none (not_lt.mp hge), List.getElem?_eq_none (hlen ▸ not_lt.mp hge)]
  have hpre : y.take p = x.take p := by
    apply List.ext_getElem?
    intro j
    rw [List.getElem?_take, List.getElem?_take]
    split
    · next hj => exact (hsame j hj.ne).symm
    · rfl
  have hsuf : y.drop (p + 1) = x.drop (p + 1) := by
    apply List.ext_getElem?
    intro j
    rw [List.getElem?_drop, List.getElem?_drop]
    exact (hsame _ (by omega)).symm
  refine ⟨x.take p, x[p], y[p], x.drop (p + 1), ?_, ?_⟩
  · rw [List.cons_getElem_drop_succ, List.take_append_drop]
  · rw [← hpre, ← hsuf, List.cons_getElem_drop_succ, List.take_append_drop]

/-- A substituted token moves at most four shingles either way, an inserted one
takes away at most two and brings at most four. -/
theorem local_edit_moves_few :
    (∀ x y : List UInt64, x.length = y.length → (∃! p : ℕ, x[p]? ≠ y[p]?) →
        missing x y ≤ 4 ∧ missing y x ≤ 4) ∧
      ∀ (pre suf : List UInt64) (t : UInt64),
        missing (pre ++ suf) (pre ++ t :: suf) ≤ 2 ∧
          missing (pre ++ t :: suf) (pre ++ suf) ≤ 4 := by
  refine ⟨fun x y hlen hone ↦ ?_, missing_insert_le⟩
  obtain ⟨pre, a, b, suf, rfl, rfl⟩ := exists_substitution hlen hone
  exact ⟨missing_substitute_le pre suf a b, missing_substitute_le pre suf b a⟩

end Fnprint
