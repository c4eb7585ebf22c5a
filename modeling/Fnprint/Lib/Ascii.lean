import Mathlib

/-!
# Printable text

A text whose characters are printable ASCII has one byte for each of them, and a
text whose bytes are printable has such characters.  Lines that hold no line
feed are found again when the text they were joined to is split.
-/

namespace Ascii

/-! ## Bytes and characters -/

def bytes (s : String) : List UInt8 := s.toByteArray.data.toList

theorem bytes_eq_flatMap (s : String) : bytes s = s.toList.flatMap String.utf8EncodeChar := by
  rw [bytes, ← String.utf8Encode_toList, List.utf8Encode, List.data_toByteArray,
    List.toList_toArray]

/-- From the blank to the tilde. -/
def PrintableByte (b : UInt8) : Prop := 0x20 ≤ b ∧ b ≤ 0x7e

instance (b : UInt8) : Decidable (PrintableByte b) := inferInstanceAs (Decidable (_ ∧ _))

def PrintableChar (c : Char) : Prop := 0x20 ≤ c.toNat ∧ c.toNat ≤ 0x7e

instance (c : Char) : Decidable (PrintableChar c) := inferInstanceAs (Decidable (_ ∧ _))

theorem utf8EncodeChar_of_printable {c : Char} (h : PrintableChar c) :
    String.utf8EncodeChar c = [UInt8.ofNat c.toNat] := by
  have hle : c.val.toNat ≤ 0x7f := h.2.trans (by decide)
  rw [String.utf8EncodeChar]
  exact if_pos hle

theorem not_printableByte_ofNat {n : ℕ} (hlow : 0x7f < n) (hhigh : n < 256) :
    ¬PrintableByte (UInt8.ofNat n) := by
  rintro ⟨-, h⟩
  have hnat := UInt8.le_iff_toNat_le.mp h
  rw [UInt8.toNat_ofNat_of_lt' hhigh] at hnat
  have hbound : (0x7e : UInt8).toNat = 0x7e := rfl
  omega

theorem toNat_bounds_of_printableByte {b : UInt8} (h : PrintableByte b) :
    0x20 ≤ b.toNat ∧ b.toNat ≤ 0x7e :=
  ⟨UInt8.le_iff_toNat_le.mp h.1, UInt8.le_iff_toNat_le.mp h.2⟩

/-- The first byte of a character past ASCII is not printable. -/
theorem printable_of_utf8EncodeChar {c : Char}
    (h : ∀ b ∈ String.utf8EncodeChar c, PrintableByte b) : PrintableChar c := by
  by_cases hascii : c.toNat ≤ 0x7f
  · have hencode : String.utf8EncodeChar c = [UInt8.ofNat c.toNat] := if_pos hascii
    rw [hencode, List.forall_mem_singleton] at h
    have hbounds := toNat_bounds_of_printableByte h
    rwa [UInt8.toNat_ofNat_of_lt' (show c.toNat < UInt8.size by change _ < 256; omega)] at hbounds
  · have hfirst : ∃ n b, 0x7f < n ∧ n < 256 ∧ String.utf8EncodeChar c = UInt8.ofNat n :: b := by
      have hmany : ¬c.val.toNat ≤ 0x7f := hascii
      rw [String.utf8EncodeChar, if_neg hmany]
      split
      · exact ⟨_, _, by omega, by omega, rfl⟩
      · split
        · exact ⟨_, _, by omega, by omega, rfl⟩
        · exact ⟨_, _, by omega, by omega, rfl⟩
    obtain ⟨n, b, hlow, hhigh, hencode⟩ := hfirst
    rw [hencode] at h
    exact absurd (h _ List.mem_cons_self) (not_printableByte_ofNat hlow hhigh)

theorem flatMap_utf8EncodeChar {l : List Char} (h : ∀ c ∈ l, PrintableChar c) :
    l.flatMap String.utf8EncodeChar = l.map fun c ↦ UInt8.ofNat c.toNat := by
  induction l with
  | nil => rfl
  | cons c l ih =>
      obtain ⟨hc, hl⟩ := List.forall_mem_cons.mp h
      rw [List.flatMap_cons, List.map_cons, utf8EncodeChar_of_printable hc, ih hl,
        List.singleton_append]

theorem printable_chars {s : String} (h : ∀ b ∈ bytes s, PrintableByte b) :
    ∀ c ∈ s.toList, PrintableChar c := by
  intro c hc
  refine printable_of_utf8EncodeChar fun b hb ↦ h b ?_
  rw [bytes_eq_flatMap]
  exact List.mem_flatMap.mpr ⟨c, hc, hb⟩

theorem bytes_of_printable {s : String} (h : ∀ c ∈ s.toList, PrintableChar c) :
    bytes s = s.toList.map fun c ↦ UInt8.ofNat c.toNat := by
  rw [bytes_eq_flatMap, flatMap_utf8EncodeChar h]

theorem printable_bytes {s : String} (h : ∀ c ∈ s.toList, PrintableChar c) :
    ∀ b ∈ bytes s, PrintableByte b := by
  rw [bytes_of_printable h]
  intro b hb
  obtain ⟨c, hc, rfl⟩ := List.mem_map.mp hb
  obtain ⟨hlow, hhigh⟩ := h c hc
  have hnat : (UInt8.ofNat c.toNat).toNat = c.toNat :=
    UInt8.toNat_ofNat_of_lt' (by change _ < 256; omega)
  have hblank : (0x20 : UInt8).toNat = 0x20 := rfl
  have htilde : (0x7e : UInt8).toNat = 0x7e := rfl
  rw [PrintableByte, UInt8.le_iff_toNat_le, UInt8.le_iff_toNat_le, hnat]
  omega

/-! ## Lines -/

/-- Each line is ended by a line feed. -/
def unlines (lines : List (List Char)) : List Char := lines.flatMap fun l ↦ l ++ ['\n']

theorem splitOn_unlines {lines : List (List Char)} (h : ∀ l ∈ lines, '\n' ∉ l) :
    (unlines lines).splitOn '\n' = lines ++ [[]] := by
  induction lines with
  | nil => rfl
  | cons l lines ih =>
      obtain ⟨hl, hlines⟩ := List.forall_mem_cons.mp h
      have hcons : unlines (l :: lines) = l ++ '\n' :: unlines lines := by
        rw [unlines, List.flatMap_cons, List.append_assoc]
        rfl
      rw [hcons, List.splitOn_append_cons_self, List.splitOn_eq_singleton hl, ih hlines]
      rfl

theorem notMem_toList_append {s t : String} {c : Char} (hs : c ∉ s.toList) (ht : c ∉ t.toList) :
    c ∉ (s ++ t).toList := by
  rw [String.toList_append, List.mem_append]
  exact not_or_intro hs ht

theorem head?_toList_append {s : String} (t : String) {c : Char}
    (h : s.toList.head? = some c) : (s ++ t).toList.head? = some c := by
  rw [String.toList_append, List.head?_append, h, Option.some_or]

/-! ## Numbers -/

/-- A lowercase hexadecimal digit. -/
def HexDigit (c : Char) : Prop := ('0' ≤ c ∧ c ≤ '9') ∨ ('a' ≤ c ∧ c ≤ 'f')

instance (c : Char) : Decidable (HexDigit c) := inferInstanceAs (Decidable (_ ∨ _))

theorem hexDigit_digitChar : ∀ d < 16, HexDigit (Nat.digitChar d) := by
  decide

theorem hexDigit_of_mem_toDigits {n : ℕ} : ∀ c ∈ Nat.toDigits 16 n, HexDigit c := by
  induction n using Nat.strong_induction_on with
  | _ n ih =>
      by_cases hn : n < 16
      · rw [Nat.toDigits_of_lt_base hn, List.forall_mem_singleton]
        exact hexDigit_digitChar n hn
      · rw [Nat.toDigits_of_base_le (by decide) (not_lt.mp hn)]
        intro c hc
        rcases List.mem_append.mp hc with hc | hc
        · exact ih (n / 16) (by omega) c hc
        · rw [List.mem_singleton.mp hc]
          exact hexDigit_digitChar _ (Nat.mod_lt _ (by decide))

theorem newline_notMem_toDigits {n : ℕ} : '\n' ∉ Nat.toDigits 10 n := fun h ↦
  absurd (Nat.isDigit_of_mem_toDigits (by decide) (by decide) h) (by decide)

end Ascii
