import Mathlib.Data.List.GetD
import Xv6.Lib.Bytes

/-!
A file as a sequence of blocks of one size, seen as a stream of bytes.

`splice` stores a list of bytes at a position of the stream. It can be done
block by block: a piece that does not cross the end of a block changes just
that block, and pieces that follow one another are stored one after the other.
-/

namespace Xv6.Lib

open Function

variable {n : ℕ}

def streamByte (φ : ℕ → Bytes n) (p : ℕ) : UInt8 := byte (φ (p / n)) (p % n)

def stream (φ : ℕ → Bytes n) (off m : ℕ) : List UInt8 :=
  (List.range m).map fun k => streamByte φ (off + k)

def splice (φ : ℕ → Bytes n) (off : ℕ) (src : List UInt8) : ℕ → Bytes n := fun k i =>
  if off ≤ k * n + i ∧ k * n + i < off + src.length then src.getD (k * n + i - off) 0 else φ k i

variable {φ ψ : ℕ → Bytes n} {off m p : ℕ} {src : List UInt8}

@[simp] theorem length_stream (φ : ℕ → Bytes n) (off m : ℕ) : (stream φ off m).length = m := by
  rw [stream, List.length_map, List.length_range]

theorem stream_add (φ : ℕ → Bytes n) (off m m' : ℕ) :
    stream φ off (m + m') = stream φ off m ++ stream φ (off + m) m' := by
  simp only [stream, List.range_add, List.map_append, List.map_map, Function.comp_def,
    Nat.add_assoc]

theorem stream_congr (h : ∀ p, off ≤ p → p < off + m → streamByte φ p = streamByte ψ p) :
    stream φ off m = stream ψ off m := by
  refine List.map_congr_left fun k hk => h _ (Nat.le_add_right off k) ?_
  exact Nat.add_lt_add_left (List.mem_range.1 hk) off

theorem take_stream (φ : ℕ → Bytes n) (off m k : ℕ) :
    (stream φ off m).take k = stream φ off (min k m) := by
  rw [stream, ← List.map_take, List.take_range, stream]

theorem drop_stream (φ : ℕ → Bytes n) (off m k : ℕ) :
    (stream φ off m).drop k = stream φ (off + k) (m - k) := by
  refine List.ext_getElem (by simp) fun i _ _ => ?_
  simp [stream, Nat.add_assoc]

theorem stream_part {bytes : List UInt8} (h : stream φ 0 bytes.length = bytes)
    (hm : off + m ≤ bytes.length) : stream φ off m = (bytes.drop off).take m := by
  have hsplit : bytes.length = off + (m + (bytes.length - off - m)) := by omega
  rw [hsplit, stream_add, stream_add, Nat.zero_add] at h
  rw [← h, List.drop_append_of_le_length (length_stream ..).ge,
    List.drop_of_length_le (length_stream ..).le, List.nil_append,
    List.take_append_of_le_length (length_stream ..).ge,
    List.take_of_length_le (length_stream ..).le]

theorem stream_block (h : off % n + m ≤ n) :
    stream φ off m = (List.range m).map fun k => byte (φ (off / n)) (off % n + k) := by
  refine List.map_congr_left fun k hk => ?_
  have hk := List.mem_range.1 hk
  have hlt : off % n + k < n := by omega
  have hsplit := Nat.div_add_mod off n
  have hdiv : (off + k) / n = off / n := by
    rw [← hsplit, Nat.add_assoc, Nat.mul_add_div (by omega), Nat.div_eq_of_lt hlt, Nat.add_zero,
      hsplit]
  have hmod : (off + k) % n = off % n + k := by
    conv_lhs => rw [← hsplit, Nat.add_assoc, Nat.mul_add_mod, Nat.mod_eq_of_lt hlt]
  rw [streamByte, hdiv, hmod]

theorem streamByte_splice (hn : 0 < n) : streamByte (splice φ off src) p =
    if off ≤ p ∧ p < off + src.length then src.getD (p - off) 0 else streamByte φ p := by
  have hp : p / n * n + p % n = p := Nat.div_add_mod' p n
  have hlt := Nat.mod_lt p hn
  rw [streamByte, byte_of_lt _ hlt, splice]
  simp only [hp]
  rw [streamByte, byte_of_lt _ hlt]

theorem stream_splice (hn : 0 < n) : stream (splice φ off src) off src.length = src := by
  refine List.ext_getElem (length_stream ..) fun k hk hk' => ?_
  simp only [stream, List.getElem_map, List.getElem_range]
  rw [streamByte_splice hn, if_pos ⟨Nat.le_add_right .., Nat.add_lt_add_left hk' off⟩,
    Nat.add_sub_cancel_left, List.getD_eq_getElem _ _ hk']

theorem stream_splice_end (hn : 0 < n) (φ : ℕ → Bytes n) (m : ℕ) (src : List UInt8) :
    stream (splice φ m src) 0 (m + src.length) = stream φ 0 m ++ src := by
  rw [stream_add, Nat.zero_add, stream_splice hn]
  congr 1
  refine stream_congr fun p _ hp => ?_
  rw [streamByte_splice hn, if_neg (by omega)]

@[simp] theorem splice_nil (φ : ℕ → Bytes n) (off : ℕ) : splice φ off [] = φ := by
  funext k i
  rw [splice, if_neg]
  simp only [List.length_nil]
  omega

theorem splice_append (φ : ℕ → Bytes n) (off : ℕ) (a b : List UInt8) :
    splice (splice φ off a) (off + a.length) b = splice φ off (a ++ b) := by
  funext k i
  simp only [splice, List.length_append]
  generalize k * n + (i : ℕ) = p
  by_cases h1 : off + a.length ≤ p ∧ p < off + a.length + b.length
  · rw [if_pos h1, if_pos (by omega), List.getD_append_right _ _ _ _ (by omega)]
    congr 1
    omega
  · rw [if_neg h1]
    by_cases h2 : off ≤ p ∧ p < off + a.length
    · rw [if_pos h2, if_pos (by omega), List.getD_append _ _ _ _ (by omega)]
    · rw [if_neg h2, if_neg (by omega)]

theorem splice_block (h : off % n + src.length ≤ n) :
    splice φ off src = update φ (off / n)
      (patch (φ (off / n)) (off % n) src.length fun k => src.getD k 0) := by
  funext k
  have hsplit := Nat.div_add_mod' off n
  by_cases hk : k = off / n
  · subst hk
    rw [update_self]
    refine bytes_ext fun i hi => ?_
    rw [byte_patch _ _ hi, byte_of_lt _ hi, byte_of_lt _ hi, splice]
    dsimp only
    by_cases hin : off % n ≤ i ∧ i < off % n + src.length
    · rw [if_pos hin, if_pos (by omega)]
      congr 1
      omega
    · rw [if_neg hin, if_neg (by omega)]
  · rw [update_of_ne hk]
    funext i
    rw [splice, if_neg]
    rintro ⟨h1, h2⟩
    refine hk ?_
    have hi := i.2
    have hlo : off / n ≤ k := by
      have : off / n * n < (k + 1) * n := by
        rw [Nat.succ_mul]
        omega
      exact Nat.le_of_lt_succ (Nat.lt_of_mul_lt_mul_right this)
    have hhi : k ≤ off / n := by
      have : k * n < (off / n + 1) * n := by
        rw [Nat.succ_mul]
        omega
      exact Nat.le_of_lt_succ (Nat.lt_of_mul_lt_mul_right this)
    exact Nat.le_antisymm hhi hlo

end Xv6.Lib
