import DistillFs.Foundation.ByteFile

/-!
# Bitmaps in files

Bit `idx` of a bitmap file is bit `idx % 8` of byte `idx / 8`. Setting and clearing a bit are the
usual masks, and the lemmas reduce them to equality of indices, so that nothing else looks at bytes.

## Main results

* `ByteFile.testBit_setBit`, `ByteFile.testBit_clearBit`: the bits after one of them changed.
-/

namespace DistillFs.Foundation

/-- The byte with only bit `s` set. -/
def bitMask (s : ℕ) : UInt8 := 1 <<< UInt8.ofNat s

/-- Whether bit `s` of the byte `b` is set. -/
def byteTest (b : UInt8) (s : ℕ) : Bool := b &&& bitMask s != 0

theorem toNat_bitMask {s : ℕ} (hs : s < 8) : (bitMask s).toNat = 2 ^ s := by
  interval_cases s <;> rfl

theorem byteTest_eq (b : UInt8) {s : ℕ} (hs : s < 8) : byteTest b s = b.toNat.testBit s := by
  have h : (b &&& bitMask s = 0) ↔ b.toNat.testBit s = false := by
    rw [← UInt8.toNat_inj, UInt8.toNat_and, toNat_bitMask hs, Nat.and_two_pow]
    cases b.toNat.testBit s <;> simp
  cases hb : b.toNat.testBit s <;> simp [byteTest, h, hb]

theorem byteTest_or (b : UInt8) {i j : ℕ} (hi : i < 8) (hj : j < 8) :
    byteTest (b ||| bitMask i) j = (byteTest b j || decide (i = j)) := by
  rw [byteTest_eq _ hj, byteTest_eq _ hj, UInt8.toNat_or, toNat_bitMask hi, Nat.testBit_or,
    Nat.testBit_two_pow]

theorem byteTest_and_not (b : UInt8) {i j : ℕ} (hi : i < 8) (hj : j < 8) :
    byteTest (b &&& ~~~bitMask i) j = (byteTest b j && !decide (i = j)) := by
  rw [byteTest_eq _ hj, byteTest_eq _ hj, UInt8.toNat_and, Nat.testBit_and, UInt8.toNat_not,
    toNat_bitMask hi]
  congr 1
  interval_cases i <;> interval_cases j <;> rfl

namespace ByteFile

variable (m : ByteFile) (idx : ℕ)

/-- Bit `idx` of the bitmap. -/
def testBit : Bool := byteTest (m.byte (idx / 8)) (idx % 8)

/-- Set bit `idx` of the bitmap. -/
def setBit : ByteFile := m.modify (idx / 8) (· ||| bitMask (idx % 8))

/-- Clear bit `idx` of the bitmap. -/
def clearBit : ByteFile := m.modify (idx / 8) (· &&& ~~~bitMask (idx % 8))

@[simp] theorem len_setBit : (m.setBit idx).len = m.len := m.len_modify _ _

@[simp] theorem len_clearBit : (m.clearBit idx).len = m.len := m.len_modify _ _

/-- An index is its byte and its bit in the byte. -/
private theorem idx_eq_iff {i j : ℕ} (h : j / 8 = i / 8) : i % 8 = j % 8 ↔ j = i := by omega

theorem testBit_setBit (h : idx / 8 < m.len) (j : ℕ) :
    (m.setBit idx).testBit j = (m.testBit j || decide (j = idx)) := by
  by_cases hj : j / 8 = idx / 8
  · simp only [testBit, setBit, byte_modify, hj, h, and_self, if_true]
    rw [byteTest_or _ (Nat.mod_lt _ (by decide)) (Nat.mod_lt _ (by decide))]
    simp only [idx_eq_iff hj]
  · have hne : j ≠ idx := fun he => hj (he ▸ rfl)
    simp [testBit, setBit, byte_modify, hj, hne]

theorem testBit_clearBit (j : ℕ) :
    (m.clearBit idx).testBit j = (m.testBit j && !decide (j = idx)) := by
  by_cases hj : j / 8 = idx / 8
  · by_cases h : idx / 8 < m.len
    · simp only [testBit, clearBit, byte_modify, hj, h, and_self, if_true]
      rw [byteTest_and_not _ (Nat.mod_lt _ (by decide)) (Nat.mod_lt _ (by decide))]
      simp only [idx_eq_iff hj]
    · -- Past the end every byte is zero, so no bit is set on either side.
      have hz : byteTest 0 (j % 8) = false := by simp [byteTest]
      simp [testBit, clearBit, byte_modify, hj, h, m.zero_beyond _ (Nat.not_lt.mp h), hz]
  · have hne : j ≠ idx := fun he => hj (he ▸ rfl)
    simp [testBit, clearBit, byte_modify, hj, hne]

end ByteFile

end DistillFs.Foundation
