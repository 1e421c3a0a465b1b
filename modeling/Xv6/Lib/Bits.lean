import Mathlib.Data.Nat.Bitwise
import Xv6.Lib.Bytes

/-!
Bitmaps in byte arrays: bit `i` is bit `i % 8` of byte `i / 8`.
-/

namespace Xv6.Lib

variable {n : ℕ}

def getBit (b : Bytes n) (i : ℕ) : Bool := (byte b (i / 8)).toNat.testBit (i % 8)

def setBit (b : Bytes n) (i : ℕ) : Bytes n :=
  patch b (i / 8) 1 fun _ => byte b (i / 8) ||| UInt8.ofNat (2 ^ (i % 8))

def clearBit (b : Bytes n) (i : ℕ) : Bytes n :=
  patch b (i / 8) 1 fun _ => byte b (i / 8) &&& ~~~UInt8.ofNat (2 ^ (i % 8))

theorem testBit_mask : ∀ i < 8, ∀ j < 8,
    (UInt8.ofNat (2 ^ i)).toNat.testBit j = decide (j = i) := by decide

theorem testBit_not_mask : ∀ i < 8, ∀ j < 8,
    (~~~UInt8.ofNat (2 ^ i)).toNat.testBit j = decide (j ≠ i) := by decide

variable {i : ℕ}

section
variable (b : Bytes n) (j : ℕ)

theorem getBit_patch (x : UInt8) (hi : i / 8 < n) :
    getBit (patch b (i / 8) 1 fun _ => x) j =
      if j / 8 = i / 8 then x.toNat.testBit (j % 8) else getBit b j := by
  unfold getBit
  by_cases h : j / 8 = i / 8
  · rw [if_pos h, byte_patch _ _ (h ▸ hi), if_pos (by omega)]
  · rw [if_neg h, byte_patch_of_not _ _ (by omega)]

theorem getBit_setBit (hi : i / 8 < n) :
    getBit (setBit b i) j = (decide (j = i) || getBit b j) := by
  rw [setBit, getBit_patch b j _ hi]
  by_cases h : j / 8 = i / 8
  · rw [if_pos h, UInt8.toNat_or, Nat.testBit_or, testBit_mask _ (by omega) _ (by omega), getBit,
      h, Bool.or_comm]
    congr 1
    exact decide_eq_decide.2 (by omega)
  · have hne : j ≠ i := fun hji => h (hji ▸ rfl)
    rw [if_neg h, decide_eq_false hne, Bool.false_or]

theorem getBit_clearBit (hi : i / 8 < n) :
    getBit (clearBit b i) j = (decide (j ≠ i) && getBit b j) := by
  rw [clearBit, getBit_patch b j _ hi]
  by_cases h : j / 8 = i / 8
  · rw [if_pos h, UInt8.toNat_and, Nat.testBit_and, testBit_not_mask _ (by omega) _ (by omega),
      getBit, h, Bool.and_comm]
    congr 1
    exact decide_eq_decide.2 (by omega)
  · have hne : j ≠ i := fun hji => h (hji ▸ rfl)
    rw [if_neg h, decide_eq_true hne, Bool.true_and]

end

theorem bytes_ext_bits {a b : Bytes n} (h : ∀ j, getBit a j = getBit b j) : a = b := by
  refine bytes_ext fun k _ => UInt8.toNat_inj.1 (Nat.eq_of_testBit_eq fun j => ?_)
  by_cases hj : j < 8
  · have hbit := h (8 * k + j)
    rwa [getBit, getBit, show (8 * k + j) / 8 = k by omega, show (8 * k + j) % 8 = j by omega]
      at hbit
  · have hpow : 2 ^ 8 ≤ 2 ^ j := Nat.pow_le_pow_right (by decide) (not_lt.1 hj)
    rw [Nat.testBit_lt_two_pow ((byte a k).toNat_lt.trans_le hpow),
      Nat.testBit_lt_two_pow ((byte b k).toNat_lt.trans_le hpow)]

theorem clearBit_setBit (b : Bytes n) (hi : i / 8 < n) (h : getBit b i = false) :
    clearBit (setBit b i) i = b := by
  refine bytes_ext_bits fun j => ?_
  rw [getBit_clearBit _ _ hi, getBit_setBit _ _ hi]
  by_cases hj : j = i
  · simp [hj, h]
  · simp [hj]

end Xv6.Lib
