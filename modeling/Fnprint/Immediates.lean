import Fnprint.Lib.BitFields
import Fnprint.Decode
import Fnprint.Pages

/-!
# aarch64 immediates

What the two decoders read out of instruction words, against the layouts of
the instruction set: the targets of the branches the run-time decoder steers,
and the slot that the first two words of a plt stub address.
-/

namespace Fnprint

open BitFields

/-- A field of an instruction word. -/
def wordField (w : UInt32) (s len : ℕ) : BitVec len := w.toBitVec.extractLsb' s len

/-! ## Signed distances -/

theorem toNat_ofInt64 (d : ℤ) : ((UInt64.ofInt d).toNat : ℤ) = d % 2 ^ 64 := by
  have hlt := Int.emod_lt_of_pos d (show (0 : ℤ) < 2 ^ 64 by norm_num)
  have hnonneg := Int.emod_nonneg d (show (2 ^ 64 : ℤ) ≠ 0 by norm_num)
  rw [UInt64.ofInt, UInt64.toNat_ofNat_of_lt' (by change _ < 2 ^ 64; omega),
    Int.toNat_of_nonneg hnonneg]

theorem toNat_add_ofInt64 (addr : UInt64) (d : ℤ) :
    ((addr + UInt64.ofInt d).toNat : ℤ) = (addr.toNat + d) % 2 ^ 64 := by
  rw [UInt64.toNat_add, Int.natCast_emod, Nat.cast_add, toNat_ofInt64]
  push_cast
  exact Int.add_emod_emod _ _ _

section Signed

variable {n : ℕ} (x : BitVec n)

theorem ofBitVec_signExtend : UInt64.ofBitVec (x.signExtend 64) = UInt64.ofInt x.toInt := by
  apply UInt64.toNat_inj.mp
  apply Int.ofNat_inj.mp
  change ((BitVec.ofInt 64 x.toInt).toNat : ℤ) = _
  rw [toNat_ofInt64, BitVec.toNat_ofInt]
  exact Int.toNat_of_nonneg (Int.emod_nonneg _ (by norm_num))

/-- A field shifted to the top of a word and back, as the code does on signed
words. -/
theorem shift_back {s : UInt64} (hn : n ≤ 64)
    (hleft : s.toBitVec % 64 = BitVec.ofNat 64 (64 - n))
    (hright : s.toBitVec.smod 64 = BitVec.ofNat 64 (64 - n)) :
    ((UInt64.ofBitVec (x.setWidth 64) <<< s).toInt64 >>> s.toInt64).toUInt64 =
      UInt64.ofInt x.toInt := by
  rw [← ofBitVec_signExtend, ← sshiftRight_shiftLeft x hn]
  apply UInt64.toBitVec_inj.mp
  change (x.setWidth 64 <<< (s.toBitVec % 64)).sshiftRight' (s.toBitVec.smod 64) = _
  rw [hleft, hright, BitVec.shiftLeft_eq', BitVec.sshiftRight', BitVec.toNat_ofNat,
    Nat.mod_eq_of_lt (by omega)]

end Signed

theorem toUInt64_wordField (w : UInt32) {x : UInt32} {s len : ℕ}
    (h : x.toBitVec = w.toBitVec >>> s &&& (BitVec.allOnes len).setWidth 32) (hlen : len ≤ 32) :
    x.toUInt64 = UInt64.ofBitVec ((wordField w s len).setWidth 64) := by
  apply UInt64.toBitVec_inj.mp
  rw [UInt32.toBitVec_toUInt64, h, shiftRight_and]
  exact BitVec.setWidth_setWidth (by omega)

/-! ## Branch targets -/

theorem a64Rel_wordField (addr : UInt64) (w : UInt32) {imm bits : UInt32} {s len : ℕ}
    (himm : imm.toBitVec = w.toBitVec >>> s &&& (BitVec.allOnes len).setWidth 32)
    (hlen : len ≤ 32) (hleft : (64 - bits).toUInt64.toBitVec % 64 = BitVec.ofNat 64 (64 - len))
    (hright : (64 - bits).toUInt64.toBitVec.smod 64 = BitVec.ofNat 64 (64 - len)) :
    a64Rel addr imm bits = addr + UInt64.ofInt (4 * (wordField w s len).toInt) := by
  rw [a64Rel, toUInt64_wordField w himm hlen, shift_back _ (by omega) hleft hright, mul_comm,
    UInt64.ofInt_mul]
  rfl

theorem a64Rel_imm26 (addr : UInt64) (w : UInt32) :
    a64Rel addr (w &&& 0x03ffffff) 26 = addr + UInt64.ofInt (4 * (wordField w 0 26).toInt) :=
  a64Rel_wordField addr w rfl (by decide) (by decide) (by decide)

theorem a64Rel_imm19 (addr : UInt64) (w : UInt32) :
    a64Rel addr (w >>> 5 &&& 0x7ffff) 19 = addr + UInt64.ofInt (4 * (wordField w 5 19).toInt) :=
  a64Rel_wordField addr w rfl (by decide) (by decide) (by decide)

theorem a64Rel_imm14 (addr : UInt64) (w : UInt32) :
    a64Rel addr (w >>> 5 &&& 0x3fff) 14 = addr + UInt64.ofInt (4 * (wordField w 5 14).toInt) :=
  a64Rel_wordField addr w rfl (by decide) (by decide) (by decide)

/-- What the run-time decoder makes of a word, with signed distances for targets. -/
theorem a64Kind_eq (addr : UInt64) (w : UInt32) :
    a64Kind addr w =
      if isBl w then .call (some (addr + UInt64.ofInt (4 * (wordField w 0 26).toInt))) true
      else if isBlr w then .call none false
      else if isRet w then .ret
      else if isSvc w then .syscall
      else if isBCond w ∨ isCbz w then
        .branch (some (addr + UInt64.ofInt (4 * (wordField w 5 19).toInt)))
      else if isTbz w then .branch (some (addr + UInt64.ofInt (4 * (wordField w 5 14).toInt)))
      else .plain := by
  rw [a64Kind, a64Rel_imm26, a64Rel_imm19, a64Rel_imm14]

/-! ## Layouts -/

/-- `adrp rd, imm`: `1 immlo 10000 immhi rd`. -/
def adrp (rd : BitVec 5) (imm : BitVec 21) : BitVec (1 + 2 + 5 + 19 + 5) :=
  1#1 ++ imm.extractLsb' 0 2 ++ 16#5 ++ imm.extractLsb' 2 19 ++ rd

/-- `ldr xt, [xn, #imm12 * 8]`: `11 111 0 01 01 imm12 rn rt`. -/
def ldr64 (rt rn : BitVec 5) (imm12 : BitVec 12) : BitVec (10 + 12 + 5 + 5) :=
  0x3e5#10 ++ imm12 ++ rn ++ rt

/-- The pages an `adrp` word goes. -/
def adrpImm (w : UInt32) : BitVec 21 := wordField w 5 19 ++ wordField w 29 2

/-- The double words an `ldr` word goes. -/
def ldrImm (w : UInt32) : BitVec 12 := wordField w 10 12

section Layouts

open BitVec

theorem masked_adrp_iff (w : UInt32) :
    w &&& 0x9f000000 = 0x90000000 ↔ ∃ rd, w.toBitVec = adrp rd (adrpImm w) := by
  have hfields : w &&& 0x9f000000 = 0x90000000 ↔
      wordField w 31 1 = 1#1 ∧ wordField w 24 5 = 16#5 := by
    rw [← UInt32.toBitVec_inj]
    change w.toBitVec &&& (mask 32 31 1 ||| mask 32 24 5) =
      place 32 31 1#1 ||| place 32 24 16#5 ↔ _
    rw [and_or_eq_or_iff (by decide) (by decide) (by decide), and_mask_eq_iff (by decide),
      and_mask_eq_iff (by decide)]
    rfl
  rw [hfields]
  constructor
  · rintro ⟨hop, hfixed⟩
    have hlow : (adrpImm w).extractLsb' 0 2 = wordField w 29 2 := extractLsb'_append_eq_right
    have hhigh : (adrpImm w).extractLsb' 2 19 = wordField w 5 19 := extractLsb'_append_eq_left
    refine ⟨wordField w 0 5, ?_⟩
    rw [adrp, ← hop, ← hfixed, hlow, hhigh, wordField, wordField, wordField, wordField, wordField,
      extractLsb'_append_extractLsb'_eq_extractLsb' (by decide),
      extractLsb'_append_extractLsb'_eq_extractLsb' (by decide),
      extractLsb'_append_extractLsb'_eq_extractLsb' (by decide),
      extractLsb'_append_extractLsb'_eq_extractLsb' (by decide)]
    exact extractLsb'_eq_self.symm
  · rintro ⟨rd, hw⟩
    rw [wordField, wordField, hw, adrp, extractLsb'_append_eq_of_le (by decide),
      extractLsb'_append_eq_of_le (by decide), extractLsb'_append_eq_of_le (by decide),
      extractLsb'_append_eq_of_le (by decide), extractLsb'_append_eq_of_le (by decide),
      extractLsb'_append_eq_of_le (by decide), extractLsb'_append_eq_of_add_le (by decide)]
    exact ⟨extractLsb'_eq_self, extractLsb'_eq_self⟩

theorem masked_ldr64_iff (w : UInt32) :
    w &&& 0xffc00000 = 0xf9400000 ↔ ∃ rt rn, w.toBitVec = ldr64 rt rn (ldrImm w) := by
  have hfields : w &&& 0xffc00000 = 0xf9400000 ↔ wordField w 22 10 = 0x3e5#10 := by
    rw [← UInt32.toBitVec_inj]
    change w.toBitVec &&& mask 32 22 10 = place 32 22 0x3e5#10 ↔ _
    rw [and_mask_eq_iff (by decide)]
    rfl
  rw [hfields]
  constructor
  · intro hop
    refine ⟨wordField w 0 5, wordField w 5 5, ?_⟩
    rw [ldr64, ← hop, ldrImm, wordField, wordField, wordField, wordField,
      extractLsb'_append_extractLsb'_eq_extractLsb' (by decide),
      extractLsb'_append_extractLsb'_eq_extractLsb' (by decide),
      extractLsb'_append_extractLsb'_eq_extractLsb' (by decide)]
    exact extractLsb'_eq_self.symm
  · rintro ⟨rt, rn, hw⟩
    rw [wordField, hw, ldr64, extractLsb'_append_eq_of_le (by decide),
      extractLsb'_append_eq_of_le (by decide), extractLsb'_append_eq_of_le (by decide)]
    exact extractLsb'_eq_self

theorem adrpImm_adrp {w : UInt32} {rd : BitVec 5} {imm : BitVec 21} (h : w.toBitVec = adrp rd imm) :
    adrpImm w = imm := by
  have hlow : wordField w 29 2 = imm.extractLsb' 0 2 := by
    rw [wordField, h, adrp, extractLsb'_append_eq_of_le (by decide),
      extractLsb'_append_eq_of_le (by decide), extractLsb'_append_eq_of_le (by decide),
      extractLsb'_append_eq_of_add_le (by decide)]
    exact extractLsb'_eq_self
  have hhigh : wordField w 5 19 = imm.extractLsb' 2 19 := by
    rw [wordField, h, adrp, extractLsb'_append_eq_of_le (by decide),
      extractLsb'_append_eq_of_add_le (by decide)]
    exact extractLsb'_eq_self
  rw [adrpImm, hlow, hhigh, extractLsb'_append_extractLsb'_eq_extractLsb' (by decide)]
  exact extractLsb'_eq_self

theorem ldrImm_ldr64 {w : UInt32} {rt rn : BitVec 5} {imm : BitVec 12}
    (h : w.toBitVec = ldr64 rt rn imm) : ldrImm w = imm := by
  rw [ldrImm, wordField, h, ldr64, extractLsb'_append_eq_of_le (by decide),
    extractLsb'_append_eq_of_le (by decide), extractLsb'_append_eq_of_add_le (by decide)]
  exact extractLsb'_eq_self

end Layouts

/-! ## Slots -/

/-- The slot an `adrp` and an `ldr` address. -/
def slotOf (stubAddr : UInt64) (pages : BitVec 21) (words : BitVec 12) : UInt64 :=
  pageOf stubAddr + UInt64.ofInt (4096 * pages.toInt + 8 * words.toNat)

theorem toNat_slotOf (stubAddr : UInt64) (pages : BitVec 21) (words : BitVec 12) :
    ((slotOf stubAddr pages words).toNat : ℤ) =
      ((stubAddr.toNat / 4096 * 4096 : ℕ) + 4096 * pages.toInt + 8 * words.toNat) % 2 ^ 64 := by
  rw [slotOf, toNat_add_ofInt64, toNat_pageOf, add_assoc]

theorem shiftLeft_12 (x : UInt64) : x <<< 12 = x * 4096 := by
  apply UInt64.toNat_inj.mp
  rw [UInt64.toNat_shiftLeft, UInt64.toNat_mul]
  exact congrArg (· % 2 ^ 64) (Nat.shiftLeft_eq x.toNat 12)

theorem ofBitVec_setWidth {n : ℕ} (x : BitVec n) (hn : n ≤ 64) :
    UInt64.ofBitVec (x.setWidth 64) = UInt64.ofInt x.toNat := by
  apply UInt64.toNat_inj.mp
  apply Int.ofNat_inj.mp
  have hlt := x.isLt.trans_le (Nat.pow_le_pow_right Nat.two_pos hn)
  rw [toNat_ofInt64]
  change (((x.setWidth 64).toNat : ℕ) : ℤ) = _
  rw [BitVec.toNat_setWidth]
  norm_cast

/-- The two parts of an `adrp` immediate, put together and extended by the sign. -/
theorem adrpImm_signed (w : UInt32) :
    (((w >>> 5 &&& 0x7ffff).toUInt64 <<< 2 ||| (w >>> 29 &&& 0x3).toUInt64) <<< 43).toInt64 >>> 43 =
      (UInt64.ofInt (adrpImm w).toInt).toInt64 := by
  have hlow : (w >>> 29 &&& 0x3).toUInt64 = UInt64.ofBitVec ((wordField w 29 2).setWidth 64) :=
    toUInt64_wordField w rfl (by decide)
  have hhigh : (w >>> 5 &&& 0x7ffff).toUInt64 = UInt64.ofBitVec ((wordField w 5 19).setWidth 64) :=
    toUInt64_wordField w rfl (by decide)
  have hjoin : (w >>> 5 &&& 0x7ffff).toUInt64 <<< 2 ||| (w >>> 29 &&& 0x3).toUInt64 =
      UInt64.ofBitVec ((adrpImm w).setWidth 64) := by
    apply UInt64.toBitVec_inj.mp
    rw [hlow, hhigh, UInt64.toBitVec_or, adrpImm, BitVec.setWidth_append_eq_shiftLeft_setWidth_or]
    rfl
  rw [hjoin, ← shift_back (adrpImm w) (s := 43) (by decide) (by decide) (by decide)]
  rfl

theorem aarch64PltSlot_eq (stub : List UInt8) (stubAddr : UInt64) :
    aarch64PltSlot stub stubAddr =
      if le32 stub &&& 0x9f000000 = 0x90000000 ∧ le32 (stub.drop 4) &&& 0xffc00000 = 0xf9400000 then
        some (slotOf stubAddr (adrpImm (le32 stub)) (ldrImm (le32 (stub.drop 4))))
      else none := by
  have hpages := adrpImm_signed (le32 stub)
  have hwords : (le32 (stub.drop 4) >>> 10 &&& 0xfff).toUInt64 =
      UInt64.ofInt (ldrImm (le32 (stub.drop 4))).toNat := by
    rw [← ofBitVec_setWidth _ (by decide)]
    exact toUInt64_wordField (le32 (stub.drop 4)) rfl (by decide)
  unfold aarch64PltSlot
  dsimp only
  rw [hpages, hwords, shiftLeft_12]
  by_cases hadrp : le32 stub &&& 0x9f000000 = 0x90000000
  · by_cases hldr : le32 (stub.drop 4) &&& 0xffc00000 = 0xf9400000
    · rw [if_neg (by simpa using hadrp), if_neg (by simpa using hldr), if_pos ⟨hadrp, hldr⟩,
        slotOf, UInt64.ofInt_add, UInt64.ofInt_mul, UInt64.ofInt_mul, mul_comm (UInt64.ofInt 4096),
        mul_comm (UInt64.ofInt 8), ← add_assoc]
      rfl
    · rw [if_neg (by simpa using hadrp), if_pos (by simpa using hldr), if_neg fun h ↦ hldr h.2]
  · rw [if_pos (by simpa using hadrp), if_neg fun h ↦ hadrp h.1]

/-! ## Stubs -/

/-- The bytes of a word, the low one first. -/
def wordBytes (w : UInt32) : List UInt8 :=
  [w.toUInt8, (w >>> 8).toUInt8, (w >>> 16).toUInt8, (w >>> 24).toUInt8]

/-- A byte cut out of a word and put back is the word under a mask. -/
theorem byte_back (w : UInt32) {s : UInt32} {k : ℕ} (hs : s.toBitVec % 32 = BitVec.ofNat 32 k)
    (hk : k < 32) : ((w >>> s).toUInt8.toUInt32 <<< s).toBitVec = w.toBitVec &&& mask 32 k 8 := by
  have hbyte : (w >>> s).toUInt8.toBitVec = w.toBitVec.extractLsb' k 8 := by
    rw [UInt32.toBitVec_toUInt8, UInt32.toBitVec_shiftRight, hs, BitVec.ushiftRight_eq',
      BitVec.toNat_ofNat, Nat.mod_eq_of_lt (by omega)]
    rfl
  rw [and_mask, UInt32.toBitVec_shiftLeft, hs, UInt8.toBitVec_toUInt32, hbyte, place,
    BitVec.shiftLeft_eq', BitVec.toNat_ofNat, Nat.mod_eq_of_lt (by omega)]

theorem le32_wordBytes (w : UInt32) (rest : List UInt8) : le32 (wordBytes w ++ rest) = w := by
  have hlow : w.toUInt8.toUInt32.toBitVec = w.toBitVec &&& mask 32 0 8 := by
    have hback := byte_back w (s := 0) (k := 0) (by decide) (by decide)
    rwa [UInt32.shiftRight_zero, UInt32.shiftLeft_zero] at hback
  have hbytes : (le32 (wordBytes w ++ rest)).toBitVec =
      w.toBitVec &&& mask 32 0 8 ||| w.toBitVec &&& mask 32 8 8 ||| w.toBitVec &&& mask 32 16 8 |||
        w.toBitVec &&& mask 32 24 8 := by
    rw [← hlow, ← byte_back w (s := 8) (k := 8) (by decide) (by decide),
      ← byte_back w (s := 16) (k := 16) (by decide) (by decide),
      ← byte_back w (s := 24) (k := 24) (by decide) (by decide)]
    rfl
  apply UInt32.toBitVec_inj.mp
  rw [hbytes, ← BitVec.and_or_distrib_left, ← BitVec.and_or_distrib_left,
    ← BitVec.and_or_distrib_left]
  exact BitVec.and_allOnes

theorem aarch64PltSlot_words (w0 w1 : UInt32) (rest : List UInt8) (stubAddr : UInt64) :
    aarch64PltSlot (wordBytes w0 ++ wordBytes w1 ++ rest) stubAddr =
      if w0 &&& 0x9f000000 = 0x90000000 ∧ w1 &&& 0xffc00000 = 0xf9400000 then
        some (slotOf stubAddr (adrpImm w0) (ldrImm w1))
      else none := by
  have hdrop : (wordBytes w0 ++ wordBytes w1 ++ rest).drop 4 = wordBytes w1 ++ rest := rfl
  have hfirst : le32 (wordBytes w0 ++ wordBytes w1 ++ rest) = w0 := by
    rw [List.append_assoc, le32_wordBytes]
  rw [aarch64PltSlot_eq, hdrop, hfirst, le32_wordBytes]

/-- A stub gives a slot when its words are an `adrp` and an `ldr`. -/
theorem aarch64PltSlot_eq_some_iff {w0 w1 : UInt32} {rest : List UInt8} {stubAddr slot : UInt64} :
    aarch64PltSlot (wordBytes w0 ++ wordBytes w1 ++ rest) stubAddr = some slot ↔
      ∃ rd pages rt rn words, w0.toBitVec = adrp rd pages ∧ w1.toBitVec = ldr64 rt rn words ∧
        slotOf stubAddr pages words = slot := by
  rw [aarch64PltSlot_words, Option.ite_none_right_eq_some, Option.some.injEq, masked_adrp_iff,
    masked_ldr64_iff]
  constructor
  · rintro ⟨⟨⟨rd, hadrp⟩, rt, rn, hldr⟩, hslot⟩
    exact ⟨rd, _, rt, rn, _, hadrp, hldr, hslot⟩
  · rintro ⟨rd, pages, rt, rn, words, hadrp, hldr, hslot⟩
    rw [adrpImm_adrp hadrp, ldrImm_ldr64 hldr]
    exact ⟨⟨⟨rd, hadrp⟩, rt, rn, hldr⟩, hslot⟩

theorem slotOf_eq {stubAddr slot : UInt64} {d : ℤ} (halign : slot.toNat % 8 = 0)
    (hlo : -2 ^ 20 ≤ d) (hhi : d < 2 ^ 20)
    (hpage : (slot.toNat / 4096 : ℤ) = (stubAddr.toNat / 4096 + d) % 2 ^ 52) :
    slotOf stubAddr (BitVec.ofInt 21 d) (BitVec.ofNat 12 (slot.toNat % 4096 / 8)) = slot := by
  have hpages : (BitVec.ofInt 21 d).toInt = d := by
    rw [BitVec.toInt_ofInt]
    exact Int.bmod_eq_of_le (by omega) (by omega)
  have hwords : (BitVec.ofNat 12 (slot.toNat % 4096 / 8)).toNat = slot.toNat % 4096 / 8 := by
    rw [BitVec.toNat_ofNat]
    omega
  apply UInt64.toNat_inj.mp
  apply Int.ofNat_inj.mp
  have hlt := slot.toNat_lt
  rw [toNat_slotOf, hpages, hwords]
  omega

/-- The immediates of aarch64 words decode as the instruction set defines them. -/
theorem immediates_decoded :
    (∀ (addr : UInt64) (w : UInt32),
      ((a64Rel addr (w &&& 0x03ffffff) 26).toNat : ℤ) =
          (addr.toNat + 4 * (wordField w 0 26).toInt) % 2 ^ 64 ∧
        ((a64Rel addr (w >>> 5 &&& 0x7ffff) 19).toNat : ℤ) =
          (addr.toNat + 4 * (wordField w 5 19).toInt) % 2 ^ 64 ∧
        ((a64Rel addr (w >>> 5 &&& 0x3fff) 14).toNat : ℤ) =
          (addr.toNat + 4 * (wordField w 5 14).toInt) % 2 ^ 64) ∧
    (∀ (stubAddr slot : UInt64) (w0 w1 : UInt32) (rest : List UInt8),
      aarch64PltSlot (wordBytes w0 ++ wordBytes w1 ++ rest) stubAddr = some slot ↔
        ∃ rd pages rt rn words, w0.toBitVec = adrp rd pages ∧ w1.toBitVec = ldr64 rt rn words ∧
          (slot.toNat : ℤ) = ((stubAddr.toNat / 4096 * 4096 : ℕ) + 4096 * pages.toInt +
            8 * words.toNat) % 2 ^ 64) ∧
    ∀ (stubAddr slot : UInt64) (d : ℤ) (rd rt rn : BitVec 5) (rest : List UInt8),
      slot.toNat % 8 = 0 → -2 ^ 20 ≤ d → d < 2 ^ 20 →
        (slot.toNat / 4096 : ℤ) = (stubAddr.toNat / 4096 + d) % 2 ^ 52 →
          aarch64PltSlot (wordBytes (.ofBitVec (adrp rd (BitVec.ofInt 21 d))) ++
            wordBytes (.ofBitVec (ldr64 rt rn (BitVec.ofNat 12 (slot.toNat % 4096 / 8)))) ++ rest)
              stubAddr = some slot := by
  refine ⟨fun addr w ↦ ⟨?_, ?_, ?_⟩, fun stubAddr slot w0 w1 rest ↦ ?_, ?_⟩
  · rw [a64Rel_imm26, toNat_add_ofInt64]
  · rw [a64Rel_imm19, toNat_add_ofInt64]
  · rw [a64Rel_imm14, toNat_add_ofInt64]
  · have hslot (pages : BitVec 21) (words : BitVec 12) : slotOf stubAddr pages words = slot ↔
        (slot.toNat : ℤ) = ((stubAddr.toNat / 4096 * 4096 : ℕ) + 4096 * pages.toInt +
          8 * words.toNat) % 2 ^ 64 := by
      rw [← toNat_slotOf, Int.ofNat_inj, UInt64.toNat_inj, eq_comm]
    rw [aarch64PltSlot_eq_some_iff]
    simp only [hslot]
  · intro stubAddr slot d rd rt rn rest halign hlo hhi hpage
    exact aarch64PltSlot_eq_some_iff.mpr
      ⟨rd, _, rt, rn, _, rfl, rfl, slotOf_eq halign hlo hhi hpage⟩

end Fnprint
