import Xv6.Param

/-!
The log header block of `log.c`: the count `n` in the first word and the block
numbers `block[0..n)` in the words after it.

The in-memory header `log.lh` is the list of its first `n` block numbers; what
`lh.block` holds past `n` is never read.
-/

namespace Xv6.Log

open Lib

def headCount (hb : Block) : ℕ :=
  if word hb 0 < 2 ^ 31 then word hb 0 else 0

def loadHead (hb : Block) : List ℕ :=
  (List.range (headCount hb)).map fun i => word hb (1 + i)

def storeBlocks (hb : Block) : ℕ → List ℕ → Block
  | _, [] => hb
  | i, b :: bs => storeBlocks (setWord hb (1 + i) b) (i + 1) bs

def storeHead (lh : List ℕ) (hb : Block) : Block :=
  storeBlocks (setWord hb 0 lh.length) 0 lh

def absorb (lh : List ℕ) (b : ℕ) : List ℕ :=
  let i := lh.findIdx (· == b)
  if i = lh.length then lh ++ [b] else lh.set i b

variable {lh : List ℕ} {b : ℕ}

theorem absorb_of_notMem (h : b ∉ lh) : absorb lh b = lh ++ [b] := by
  have hidx : lh.findIdx (· == b) = lh.length := by
    rw [List.findIdx_eq_length]
    intro c hc
    exact beq_false_of_ne fun hcb => h (hcb ▸ hc)
  rw [absorb, hidx, if_pos rfl]

theorem absorb_of_mem (h : b ∈ lh) : absorb lh b = lh := by
  have hlt : lh.findIdx (· == b) < lh.length :=
    List.findIdx_lt_length_of_exists ⟨b, h, beq_self_eq_true b⟩
  have hget : lh[lh.findIdx (· == b)] = b := by simpa using List.findIdx_getElem (w := hlt)
  have hset := List.set_getElem_self hlt
  rw [hget] at hset
  rw [absorb, if_neg hlt.ne, hset]

theorem mem_absorb {c : ℕ} : c ∈ absorb lh b ↔ c ∈ lh ∨ c = b := by
  by_cases h : b ∈ lh
  · rw [absorb_of_mem h]
    constructor
    · exact .inl
    · rintro (hc | rfl)
      · exact hc
      · exact h
  · rw [absorb_of_notMem h, List.mem_append, List.mem_singleton]

theorem length_absorb_le (lh : List ℕ) (b : ℕ) : (absorb lh b).length ≤ lh.length + 1 := by
  by_cases h : b ∈ lh
  · rw [absorb_of_mem h]
    exact Nat.le_succ _
  · rw [absorb_of_notMem h, List.length_append, List.length_singleton]

theorem absorb_nodup (h : lh.Nodup) (b : ℕ) : (absorb lh b).Nodup := by
  by_cases hb : b ∈ lh
  · rwa [absorb_of_mem hb]
  rw [absorb_of_notMem hb]
  refine List.nodup_append.mpr ⟨h, by simp, fun c hc e he => ?_⟩
  rw [List.mem_singleton] at he
  rintro rfl
  exact hb (he ▸ hc)

theorem subset_absorb (lh : List ℕ) (b : ℕ) : lh ⊆ absorb lh b :=
  fun _ hc => mem_absorb.2 (.inl hc)

theorem length_le_absorb (lh : List ℕ) (b : ℕ) : lh.length ≤ (absorb lh b).length := by
  by_cases hb : b ∈ lh
  · rw [absorb_of_mem hb]
  · rw [absorb_of_notMem hb]
    simp

theorem word_storeBlocks_of_le (hb : Block) {i k : ℕ} (lh : List ℕ) (h : k ≤ i) :
    word (storeBlocks hb i lh) k = word hb k := by
  induction lh generalizing hb i with
  | nil => rfl
  | cons b bs ih =>
    rw [storeBlocks, ih (setWord hb (1 + i) b) (by omega), word_setWord_of_ne _ _ (by omega)]

theorem word_storeBlocks (hb : Block) {i k : ℕ} (lh : List ℕ) (hk : k < lh.length)
    (hlen : 1 + i + lh.length ≤ 128) (hlt : ∀ b ∈ lh, b < 2 ^ 32) :
    word (storeBlocks hb i lh) (1 + i + k) = lh[k] := by
  induction lh generalizing hb i k with
  | nil => simp at hk
  | cons b bs ih =>
    rw [List.length_cons] at hk hlen
    rw [storeBlocks]
    cases k with
    | zero =>
      change word _ (1 + i) = b
      rw [word_storeBlocks_of_le _ _ (by omega),
        word_setWord hb (by omega) (hlt b List.mem_cons_self)]
    | succ k =>
      rw [show 1 + i + (k + 1) = 1 + (i + 1) + k by omega,
        ih (setWord hb (1 + i) b) (by omega) (by omega)
          fun c hc => hlt c (List.mem_cons_of_mem _ hc)]
      rfl

theorem headCount_storeHead (hb : Block) (hlen : lh.length ≤ LOGSIZE) :
    headCount (storeHead lh hb) = lh.length := by
  simp only [LOGSIZE, MAXOPBLOCKS] at hlen
  have hw : word (storeHead lh hb) 0 = lh.length := by
    rw [storeHead, word_storeBlocks_of_le _ _ le_rfl, word_setWord hb (by omega) (by omega)]
  rw [headCount, hw, if_pos (by omega)]

theorem loadHead_storeHead (hb : Block) (hlen : lh.length ≤ LOGSIZE) (hlt : ∀ b ∈ lh, b < 2 ^ 32) :
    loadHead (storeHead lh hb) = lh := by
  apply List.ext_getElem
  · rw [loadHead, List.length_map, List.length_range, headCount_storeHead hb hlen]
  intro k h1 h2
  have hroom : 1 + 0 + lh.length ≤ 128 := by
    simp only [LOGSIZE, MAXOPBLOCKS] at hlen
    omega
  have hw := word_storeBlocks (setWord hb 0 lh.length) lh h2 hroom hlt
  simpa [loadHead, storeHead] using hw

theorem loadHead_eq_nil {hb : Block} (h : headCount hb = 0) : loadHead hb = [] := by
  rw [loadHead, h]
  rfl

end Xv6.Log
