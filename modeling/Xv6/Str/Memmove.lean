import Mathlib

/-!
`memmove` of the kernel (`string.c`) and of the user library (`ulib.c`).

Addresses are numbers modulo `2 ^ 32`. The kernel copies from the last byte down
if the destination starts inside the source, and from the first byte up
otherwise. The user library always copies up. A loop that copies up is right
unless it writes bytes of the source before it has read them.
-/

namespace Xv6.Str

open Function

abbrev Mem := ℕ → UInt8

def copyUp : ℕ → ℕ → ℕ → Mem → Mem
  | 0, _, _, m => m
  | n + 1, d, s, m => copyUp n ((d + 1) % 2 ^ 32) ((s + 1) % 2 ^ 32) (update m d (m s))

def before (a : ℕ) : ℕ := (a + (2 ^ 32 - 1)) % 2 ^ 32

def copyDown : ℕ → ℕ → ℕ → Mem → Mem
  | 0, _, _, m => m
  | n + 1, d, s, m => copyDown n (before d) (before s) (update m (before d) (m (before s)))

def memmove (m : Mem) (dst src n : ℕ) : ℕ × Mem :=
  if src < dst ∧ (src + n) % 2 ^ 32 > dst then
    (dst, copyDown n ((dst + n) % 2 ^ 32) ((src + n) % 2 ^ 32) m)
  else (dst, copyUp n dst src m)

def Ulib.memmove (m : Mem) (dst src : ℕ) (n : Int32) : ℕ × Mem :=
  (dst, copyUp n.toInt.toNat dst src m)

def moved (m : Mem) (dst src n : ℕ) : Mem := fun a =>
  if dst ≤ a ∧ a < dst + n then m (src + (a - dst)) else m a

variable {m : Mem} {d s n : ℕ}

theorem moved_zero : moved m d s 0 = m := by
  funext a
  exact if_neg (by omega)

section
variable (hd : d + n ≤ 2 ^ 32) (hs : s + n ≤ 2 ^ 32)
include hd hs

theorem copyUp_eq (h : d ≤ s ∨ s + n ≤ d) : copyUp n d s m = moved m d s n := by
  induction n generalizing d s m with
  | zero => exact moved_zero.symm
  | succ n ih =>
    rw [copyUp, ih (by omega) (by omega) (by omega)]
    funext a
    unfold moved
    by_cases ha : a = d
    · subst ha
      rw [if_neg (by omega), update_self, if_pos (by omega), Nat.sub_self, Nat.add_zero]
    by_cases hin : d ≤ a ∧ a < d + (n + 1)
    · have hread : (s + 1) % 2 ^ 32 + (a - (d + 1) % 2 ^ 32) = s + (a - d) := by omega
      rw [if_pos (by omega), if_pos hin, hread, update_of_ne (by omega)]
    · rw [if_neg (by omega), if_neg hin, update_of_ne ha]

theorem copyDown_eq (h : s ≤ d) :
    copyDown n ((d + n) % 2 ^ 32) ((s + n) % 2 ^ 32) m = moved m d s n := by
  induction n generalizing m with
  | zero => exact moved_zero.symm
  | succ n ih =>
    have hbd : before ((d + (n + 1)) % 2 ^ 32) = (d + n) % 2 ^ 32 := by
      unfold before
      omega
    have hbs : before ((s + (n + 1)) % 2 ^ 32) = (s + n) % 2 ^ 32 := by
      unfold before
      omega
    have hdn : (d + n) % 2 ^ 32 = d + n := Nat.mod_eq_of_lt (by omega)
    have hsn : (s + n) % 2 ^ 32 = s + n := Nat.mod_eq_of_lt (by omega)
    rw [copyDown, hbd, hbs, ih (by omega) (by omega), hdn, hsn]
    funext a
    unfold moved
    by_cases hlast : a = d + n
    · subst hlast
      rw [if_neg (by omega), update_self, if_pos (by omega), Nat.add_sub_cancel_left]
    by_cases hin : d ≤ a ∧ a < d + n
    · rw [if_pos hin, if_pos (by omega), update_of_ne (by omega)]
    · rw [if_neg hin, if_neg (by omega), update_of_ne hlast]

theorem memmove_eq : memmove m d s n = (d, moved m d s n) := by
  unfold memmove
  split
  · rw [copyDown_eq hd hs (by omega)]
  · rename_i hup
    rw [copyUp_eq hd hs]
    by_contra hoverlap
    refine hup ⟨by omega, ?_⟩
    rw [Nat.mod_eq_of_lt (by omega)]
    omega

end

theorem memmove_moves (m : Mem) (dst src n : ℕ) (hdst : dst + n ≤ 2 ^ 32)
    (hsrc : src + n ≤ 2 ^ 32) :
    (∀ i < n, (memmove m dst src n).2 (dst + i) = m (src + i)) ∧
      ∀ a, ¬(dst ≤ a ∧ a < dst + n) → (memmove m dst src n).2 a = m a := by
  rw [memmove_eq hdst hsrc]
  constructor
  · intro i hi
    show moved m dst src n (dst + i) = m (src + i)
    rw [moved, if_pos (by omega), Nat.add_sub_cancel_left]
  · intro a ha
    exact if_neg ha

def ramp : Mem := fun a => .ofNat a

theorem memmove_moves_up :
    (∀ i < 4, (memmove ramp 101 100 4).2 (101 + i) = ramp (100 + i)) ∧
      ∀ a, ¬(101 ≤ a ∧ a < 101 + 4) → (memmove ramp 101 100 4).2 a = ramp a :=
  memmove_moves ramp 101 100 4 (by decide) (by decide)

theorem copyUp_of_not {a : ℕ} (hd : d + n ≤ 2 ^ 32) (ha : ¬(d ≤ a ∧ a < d + n)) :
    copyUp n d s m a = m a := by
  induction n generalizing d s m with
  | zero => rfl
  | succ n ih => rw [copyUp, ih (by omega) (by omega), update_of_ne (by omega)]

theorem copyUp_repeats (hd : d + n ≤ 2 ^ 32) (h : s < d) {i : ℕ} (hi : i < n) :
    copyUp n d s m (d + i) = copyUp n d s m (s + i) := by
  induction n generalizing d s m i with
  | zero => omega
  | succ n ih =>
    rw [copyUp]
    cases i with
    | zero =>
      rw [copyUp_of_not (by omega) (by omega), copyUp_of_not (by omega) (by omega)]
      exact (update_self ..).trans (update_of_ne (by omega) ..).symm
    | succ i =>
      have hd1 : (d + 1) % 2 ^ 32 = d + 1 := Nat.mod_eq_of_lt (by omega)
      have hs1 : (s + 1) % 2 ^ 32 = s + 1 := Nat.mod_eq_of_lt (by omega)
      rw [hd1, hs1, show d + (i + 1) = d + 1 + i by omega, show s + (i + 1) = s + 1 + i by omega]
      exact ih (by omega) (by omega) (Nat.lt_of_succ_lt_succ hi)

theorem memmove_agrees_iff (dst src : ℕ) (n : Int32) (hdst : dst + n.toInt.toNat ≤ 2 ^ 32)
    (hsrc : src + n.toInt.toNat ≤ 2 ^ 32) :
    (∀ m, Ulib.memmove m dst src n = memmove m dst src n.toInt.toNat) ↔
      dst ≤ src ∨ src + n.toInt.toNat ≤ dst := by
  constructor
  · intro hall
    by_contra hinside
    rw [not_or, not_le, not_le] at hinside
    have hm := hall (update (fun _ => 0) src 1)
    rw [memmove_eq hdst hsrc, Ulib.memmove, Prod.mk.injEq] at hm
    have hfar := congrFun hm.2 (dst + (dst - src))
    have hfirst := copyUp_repeats (m := update (fun _ => 0) src 1) hdst hinside.1 (i := 0)
      (by omega)
    rw [copyUp_repeats hdst hinside.1 (by omega), Nat.add_sub_cancel' hinside.1.le, moved,
      if_pos (by omega), Nat.add_sub_cancel_left, Nat.add_sub_cancel' hinside.1.le,
      update_of_ne (by omega)] at hfar
    rw [Nat.add_zero, Nat.add_zero, hfar, copyUp_of_not hdst (by omega), update_self] at hfirst
    exact absurd hfirst (by decide)
  · intro h m
    rw [memmove_eq hdst hsrc, Ulib.memmove, copyUp_eq hdst hsrc h]

theorem memmove_agrees_down :
    Ulib.memmove ramp 100 103 8 = memmove ramp 100 103 8 :=
  (memmove_agrees_iff 100 103 8 (by decide) (by decide)).2 (.inl (by decide)) ramp

theorem memmove_user_repeats : 101 + 2 ≤ 2 ^ 32 ∧ 100 + 2 ≤ 2 ^ 32 ∧ (0 : Int32) ≤ 2 ∧
    (memmove ramp 101 100 2).2 102 = 101 ∧ (Ulib.memmove ramp 101 100 2).2 102 = 100 := by
  decide

end Xv6.Str
