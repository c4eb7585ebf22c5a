import Mathlib

/-!
# Texts of a corpus image

Every image has one text encoding.  Sqlite counts the bytes of a text as it is
stored and hands the text out in UTF-8, so the two counts agree in an image in
UTF-8 only.
-/

namespace Fnprint

/-- How an image stores its texts: the bytes that an ASCII character takes, and
the text in UTF-8 that is handed out for some stored bytes. -/
structure TextEncoding where
  unit : ℕ
  toUtf8 : List UInt8 → List UInt8

namespace TextEncoding

/-- The encoding of the files that are created here. -/
def utf8 : TextEncoding := ⟨1, id⟩

/-! ## UTF-16 -/

/-- The 16-bit units, least significant byte first; an odd byte at the end is dropped. -/
def unitsOf : List UInt8 → List ℕ
  | lo :: hi :: bytes => (lo.toNat + 256 * hi.toNat) :: unitsOf bytes
  | _ => []

/-- A surrogate takes the unit behind it along, whichever it is. -/
def codePoints : List ℕ → List ℕ
  | c :: c' :: units =>
      if 0xd800 ≤ c ∧ c < 0xe000 then
        (c' % 2 ^ 10 + c % 2 ^ 6 * 2 ^ 10 + (c / 2 ^ 6 % 2 ^ 4 + 1) * 2 ^ 16) :: codePoints units
      else c :: codePoints (c' :: units)
  | units => units

def writeUtf8 (c : ℕ) : List UInt8 :=
  if c < 0x80 then [UInt8.ofNat c]
  else if c < 0x800 then [UInt8.ofNat (0xc0 + c / 2 ^ 6), UInt8.ofNat (0x80 + c % 2 ^ 6)]
  else if c < 0x10000 then
    [UInt8.ofNat (0xe0 + c / 2 ^ 12), UInt8.ofNat (0x80 + c / 2 ^ 6 % 2 ^ 6),
      UInt8.ofNat (0x80 + c % 2 ^ 6)]
  else
    [UInt8.ofNat (0xf0 + c / 2 ^ 18), UInt8.ofNat (0x80 + c / 2 ^ 12 % 2 ^ 6),
      UInt8.ofNat (0x80 + c / 2 ^ 6 % 2 ^ 6), UInt8.ofNat (0x80 + c % 2 ^ 6)]

/-- Little-endian UTF-16. -/
def utf16le : TextEncoding := ⟨2, fun bytes ↦ (codePoints (unitsOf bytes)).flatMap writeUtf8⟩

theorem unitsOf_flatten_replicate (n : ℕ) (lo hi : UInt8) :
    unitsOf (List.replicate n [lo, hi]).flatten = List.replicate n (lo.toNat + 256 * hi.toNat) := by
  induction n with
  | zero => rfl
  | succ n ih =>
      rw [List.replicate_succ, List.replicate_succ, List.flatten_cons, ← ih]
      rfl

theorem codePoints_replicate (n : ℕ) {c : ℕ} (hc : c < 0xd800) :
    codePoints (List.replicate n c) = List.replicate n c := by
  induction n with
  | zero => rfl
  | succ n ih =>
      cases n with
      | zero => rfl
      | succ n =>
          rw [List.replicate_succ, List.replicate_succ, codePoints, if_neg (by omega),
            ← List.replicate_succ, ih]

/-- A text of one character, as it is handed out. -/
theorem toUtf8_flatten_replicate (n : ℕ) {lo hi : UInt8} (h : lo.toNat + 256 * hi.toNat < 0xd800) :
    utf16le.toUtf8 (List.replicate n [lo, hi]).flatten =
      (List.replicate n (writeUtf8 (lo.toNat + 256 * hi.toNat))).flatten := by
  have hpoints : utf16le.toUtf8 (List.replicate n [lo, hi]).flatten =
      (codePoints (unitsOf (List.replicate n [lo, hi]).flatten)).flatMap writeUtf8 := rfl
  rw [hpoints, unitsOf_flatten_replicate, codePoints_replicate n h, List.flatMap_replicate]

end TextEncoding

/-! ## Bytes that are no text -/

/-- The length of a UTF-8 sequence by its first byte; 0 for a byte that starts none. -/
def sequenceWidth (b : UInt8) : ℕ :=
  if b < 0x80 then 1
  else if 0xc2 ≤ b ∧ b ≤ 0xdf then 2
  else if 0xe0 ≤ b ∧ b ≤ 0xef then 3
  else if 0xf0 ≤ b ∧ b ≤ 0xf4 then 4
  else 0

/-- What may stand behind the first byte of a longer sequence. -/
def isSecond (b c : UInt8) : Bool :=
  (if b = 0xe0 then 0xa0 else if b = 0xf0 then 0x90 else 0x80) ≤ c &&
    c ≤ if b = 0xed then 0x9f else if b = 0xf4 then 0x8f else 0xbf

/-- The further bytes of a sequence; a fault is the bytes seen, or that there are no more. -/
def tailFault : ℕ → ℕ → List UInt8 → Option (Option ℕ)
  | 0, _, _ => none
  | _ + 1, _, [] => some none
  | n + 1, seen, c :: bytes =>
      if 0x80 ≤ c ∧ c ≤ 0xbf then tailFault n (seen + 1) bytes else some (some seen)

def sequenceFault (b : UInt8) (bytes : List UInt8) : Option (Option ℕ) :=
  match sequenceWidth b, bytes with
  | 0, _ => some (some 1)
  | 1, _ => none
  | _, [] => some none
  | n, c :: bytes => if isSecond b c then tailFault (n - 2) 2 bytes else some (some 1)

/-- The first fault and where it is; the length of the bytes is fuel enough. -/
def utf8Fault : ℕ → ℕ → List UInt8 → Option (ℕ × Option ℕ)
  | 0, _, _ => none
  | _ + 1, _, [] => none
  | fuel + 1, i, b :: bytes =>
      match sequenceFault b bytes with
      | some fault => some (i, fault)
      | none => utf8Fault fuel (i + sequenceWidth b) (bytes.drop (sequenceWidth b - 1))

/-- The text of the fault. -/
def utf8Error (bytes : List UInt8) : String :=
  match utf8Fault bytes.length 0 bytes with
  | some (i, some n) => s!"invalid utf-8 sequence of {n} bytes from index {i}"
  | some (i, none) => s!"incomplete utf-8 byte sequence from index {i}"
  | none => ""

example : utf8Error [0x61, 0xe2, 0x82, 0x41] =
    "invalid utf-8 sequence of 2 bytes from index 1" := by
  decide

end Fnprint
