import Mathlib.Tactic.Ring
import Mathlib.Data.Nat.ModEq

/-!
Fixed-size byte arrays and the little-endian fields laid out in them.

A C structure read from or written to a byte array is a set of fields, each a
number of bytes at an offset. `getLE` and `setLE` read and write one field;
the lemmas say that a field written is the field read back, that fields which
do not overlap do not see each other, and that a range copied in by `patch`
is visible exactly where it was copied.
-/

namespace Xv6.Lib

abbrev Bytes (n : ℕ) := Fin n → UInt8

variable {n : ℕ}

def byte (b : Bytes n) (i : ℕ) : UInt8 := if h : i < n then b ⟨i, h⟩ else 0

theorem byte_of_lt (b : Bytes n) {i : ℕ} (h : i < n) : byte b i = b ⟨i, h⟩ := dif_pos h

theorem byte_fin (b : Bytes n) (i : Fin n) : byte b i = b i := byte_of_lt b i.2

theorem bytes_ext {a b : Bytes n} (h : ∀ i < n, byte a i = byte b i) : a = b := by
  funext i
  rw [← byte_fin a, ← byte_fin b, h i i.2]

def patch (b : Bytes n) (off m : ℕ) (src : ℕ → UInt8) : Bytes n :=
  fun i => if off ≤ i.1 ∧ i.1 < off + m then src (i.1 - off) else b i

theorem byte_patch (b : Bytes n) {off m i : ℕ} (src : ℕ → UInt8) (hi : i < n) :
    byte (patch b off m src) i =
      if off ≤ i ∧ i < off + m then src (i - off) else byte b i := by
  rw [byte_of_lt _ hi, byte_of_lt _ hi]
  rfl

theorem byte_patch_of_not (b : Bytes n) {off m i : ℕ} (src : ℕ → UInt8)
    (h : ¬(off ≤ i ∧ i < off + m)) : byte (patch b off m src) i = byte b i := by
  by_cases hi : i < n
  · rw [byte_patch b src hi, if_neg h]
  · rw [byte, byte, dif_neg hi, dif_neg hi]

def getLE (b : Bytes n) (o : ℕ) : ℕ → ℕ
  | 0 => 0
  | w + 1 => (byte b o).toNat + 256 * getLE b (o + 1) w

def setLE (b : Bytes n) (o w v : ℕ) : Bytes n :=
  patch b o w fun k => UInt8.ofNat (v / 256 ^ k)

theorem getLE_lt (b : Bytes n) (o w : ℕ) : getLE b o w < 256 ^ w := by
  induction w generalizing o with
  | zero => simp [getLE]
  | succ w ih =>
    have hb : (byte b o).toNat < 256 := (byte b o).toNat_lt
    have hw := ih (o + 1)
    rw [getLE, pow_succ]
    omega

theorem getLE_congr {a b : Bytes n} {o w : ℕ}
    (h : ∀ i, o ≤ i → i < o + w → byte a i = byte b i) : getLE a o w = getLE b o w := by
  induction w generalizing o with
  | zero => rfl
  | succ w ih =>
    have htail : getLE a (o + 1) w = getLE b (o + 1) w :=
      ih fun i h1 h2 => h i (by omega) (by omega)
    rw [getLE, getLE, h o le_rfl (by omega), htail]

theorem getLE_of_digits {b : Bytes n} {o w v : ℕ}
    (h : ∀ k < w, byte b (o + k) = UInt8.ofNat (v / 256 ^ k)) : getLE b o w = v % 256 ^ w := by
  induction w generalizing o v with
  | zero => simp [getLE, Nat.mod_one]
  | succ w ih =>
    have h0 : byte b o = UInt8.ofNat v := by simpa using h 0 (by omega)
    have htail : getLE b (o + 1) w = v / 256 % 256 ^ w := by
      apply ih
      intro k hk
      rw [show o + 1 + k = o + (k + 1) by omega, h (k + 1) (by omega), pow_succ,
        Nat.div_div_eq_div_mul, Nat.mul_comm]
    rw [getLE, htail, h0, UInt8.toNat_ofNat', pow_succ' 256 w, Nat.mod_mul]

theorem getLE_setLE (b : Bytes n) {o w : ℕ} (v : ℕ) (h : o + w ≤ n) :
    getLE (setLE b o w v) o w = v % 256 ^ w := by
  apply getLE_of_digits
  intro k hk
  rw [setLE, byte_patch _ _ (by omega), if_pos (by omega)]
  congr 3
  omega

theorem getLE_patch_of_disjoint (b : Bytes n) {o w off m : ℕ} (src : ℕ → UInt8)
    (h : o + w ≤ off ∨ off + m ≤ o) : getLE (patch b off m src) o w = getLE b o w := by
  apply getLE_congr
  intro i h1 h2
  exact byte_patch_of_not b src (by omega)

theorem getLE_setLE_of_disjoint (b : Bytes n) {o w o' w' : ℕ} (v : ℕ)
    (h : o + w ≤ o' ∨ o' + w' ≤ o) : getLE (setLE b o' w' v) o w = getLE b o w :=
  getLE_patch_of_disjoint b _ h

theorem getLE_digit (b : Bytes n) (o : ℕ) {w k : ℕ} (hk : k < w) :
    UInt8.ofNat (getLE b o w / 256 ^ k) = byte b (o + k) := by
  induction w generalizing o k with
  | zero => omega
  | succ w ih =>
    have hb : (byte b o).toNat < 256 := (byte b o).toNat_lt
    cases k with
    | zero =>
      change _ = byte b o
      rw [getLE, pow_zero, Nat.div_one]
      apply UInt8.toNat_inj.mp
      rw [UInt8.toNat_ofNat', Nat.add_mul_mod_self_left, Nat.mod_eq_of_lt hb]
    | succ k =>
      have hdiv : getLE b o (w + 1) / 256 = getLE b (o + 1) w := by
        rw [getLE]
        omega
      rw [pow_succ, Nat.mul_comm, ← Nat.div_div_eq_div_mul, hdiv, ih (o + 1) (by omega)]
      congr 1
      omega

def ofList (l : List UInt8) : Bytes n := fun i => l.getD i 0

def digits (w v : ℕ) : List UInt8 := (List.range w).map fun k => UInt8.ofNat (v / 256 ^ k)

def zeros : Bytes n := fun _ => 0

@[simp] theorem byte_zeros (i : ℕ) : byte (zeros : Bytes n) i = 0 := by
  unfold byte zeros
  split <;> rfl

@[simp] theorem getLE_zeros (o w : ℕ) : getLE (zeros : Bytes n) o w = 0 := by
  induction w generalizing o with
  | zero => rfl
  | succ w ih => simp [getLE, ih]

end Xv6.Lib
