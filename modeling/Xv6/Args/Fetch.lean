import Mathlib
import Xv6.Param

/-!
The arguments of a system call (`syscall.c`).

Addresses and sums of addresses are numbers modulo `2 ^ 32`. Every function also
returns the addresses it has read. What keeps the sums of the checks from
wrapping around is that a process ends at `KERNBASE` or below it.
-/

namespace Xv6.Args

structure Proc where
  sz : ℕ
  esp : ℕ
  mem : ℕ → UInt8

abbrev Res (α : Type) := List ℕ × Option α

def Proc.word (c : Proc) (addr : ℕ) : ℕ :=
  (c.mem addr).toNat + 2 ^ 8 * (c.mem (addr + 1)).toNat + 2 ^ 16 * (c.mem (addr + 2)).toNat +
    2 ^ 24 * (c.mem (addr + 3)).toNat

def fetchint (c : Proc) (addr : ℕ) : Res ℕ :=
  if addr ≥ c.sz ∨ (addr + 4) % 2 ^ 32 > c.sz then ([], none)
  else ([addr, addr + 1, addr + 2, addr + 3], some (c.word addr))

def strLoop (c : Proc) (s : ℕ) : ℕ → Res ℕ
  | 0 => ([], none)
  | n + 1 =>
    if c.mem s = 0 then ([s], some 0)
    else
      let r := strLoop c (s + 1) n
      (s :: r.1, r.2.map (· + 1))

def fetchstr (c : Proc) (addr : ℕ) : Res (ℕ × ℕ) :=
  if addr ≥ c.sz then ([], none)
  else
    let r := strLoop c addr (c.sz - addr)
    (r.1, r.2.map fun n => (addr, n))

def argAddr (c : Proc) (n : ℕ) : ℕ := (c.esp + 4 + 4 * n) % 2 ^ 32

def argint (c : Proc) (n : ℕ) : Res ℕ := fetchint c (argAddr c n)

def argptr (c : Proc) (n : ℕ) (size : Int32) : Res ℕ :=
  match argint c n with
  | (l, none) => (l, none)
  | (l, some i) =>
    if size < 0 ∨ i ≥ c.sz ∨ (i + size.toInt.toNat) % 2 ^ 32 > c.sz then (l, none)
    else (l, some i)

def argstr (c : Proc) (n : ℕ) : Res (ℕ × ℕ) :=
  match argint c n with
  | (l, none) => (l, none)
  | (l, some addr) =>
    let r := fetchstr c addr
    (l ++ r.1, r.2)

def Readable (c : Proc) (n : ℕ) : Prop := argAddr c n + 4 ≤ c.sz

def Proc.arg (c : Proc) (n : ℕ) : ℕ := c.word (argAddr c n)

def IsStr (c : Proc) (addr len : ℕ) : Prop :=
  addr + len < c.sz ∧ c.mem (addr + len) = 0 ∧ ∀ j < len, c.mem (addr + j) ≠ 0

variable {c : Proc} {addr s n k : ℕ} {size : Int32}

section
variable (h : c.sz ≤ KERNBASE)
include h

theorem argint_eq (hr : Readable c n) :
    argint c n = ([argAddr c n, argAddr c n + 1, argAddr c n + 2, argAddr c n + 3],
      some (c.arg n)) := by
  unfold Readable at hr
  unfold KERNBASE at h
  rw [argint, fetchint, if_neg (by omega), Proc.arg]

theorem argint_none (hr : ¬Readable c n) : argint c n = ([], none) := by
  unfold Readable at hr
  unfold KERNBASE at h
  rw [argint, fetchint, if_pos (by omega)]

theorem argint_inside : ∀ a ∈ (argint c n).1, a < c.sz := by
  by_cases hr : Readable c n
  · rw [argint_eq h hr]
    unfold Readable at hr
    simp only [List.mem_cons, List.not_mem_nil, or_false]
    omega
  · simp [argint_none h hr]

end

theorem strLoop_some {len : ℕ} (hs : s + k = c.sz) :
    (strLoop c s k).2 = some len ↔ IsStr c s len := by
  induction k generalizing s len with
  | zero =>
    refine ⟨fun h => (by cases h), fun h => ?_⟩
    have := h.1
    omega
  | succ k ih =>
    unfold strLoop
    split
    · rename_i hz
      constructor
      · rintro ⟨⟩
        exact ⟨by omega, hz, fun j hj => absurd hj (Nat.not_lt_zero j)⟩
      · rintro ⟨-, -, hlen⟩
        cases len with
        | zero => rfl
        | succ len => exact absurd hz (hlen 0 (Nat.succ_pos len))
    · rename_i hz
      cases len with
      | zero => simp [IsStr, hz]
      | succ len =>
        have hshift : ∀ j, s + 1 + j = s + (j + 1) := by omega
        simp only [Option.map_eq_some_iff, Nat.add_right_cancel_iff, exists_eq_right,
          ih (show s + 1 + k = c.sz by omega), IsStr, hshift, Nat.forall_lt_succ_left]
        simp [hz]

theorem strLoop_inside (hs : s + k = c.sz) : ∀ a ∈ (strLoop c s k).1, a < c.sz := by
  induction k generalizing s with
  | zero => exact fun a ha => absurd ha List.not_mem_nil
  | succ k ih =>
    unfold strLoop
    split
    · simp only [List.mem_singleton]
      omega
    · simp only [List.forall_mem_cons]
      exact ⟨by omega, ih (by omega)⟩

theorem fetchstr_some {a len : ℕ} :
    (fetchstr c addr).2 = some (a, len) ↔ a = addr ∧ IsStr c addr len := by
  unfold fetchstr
  split
  · refine ⟨fun h => (by cases h), fun h => ?_⟩
    have := h.2.1
    omega
  · simp only [Option.map_eq_some_iff, Prod.mk.injEq,
      strLoop_some (show addr + (c.sz - addr) = c.sz by omega)]
    grind

theorem fetchstr_inside : ∀ a ∈ (fetchstr c addr).1, a < c.sz := by
  unfold fetchstr
  split
  · exact fun a ha => absurd ha List.not_mem_nil
  · exact strLoop_inside (by omega)

theorem exists_isStr : (∃ len, IsStr c addr len) ↔ ∃ x, addr ≤ x ∧ x < c.sz ∧ c.mem x = 0 := by
  constructor
  · rintro ⟨len, hlt, hz, -⟩
    exact ⟨addr + len, Nat.le_add_right .., hlt, hz⟩
  rintro ⟨x, hle, hlt, hz⟩
  obtain ⟨d, rfl⟩ := Nat.exists_eq_add_of_le hle
  have hex : ∃ j, c.mem (addr + j) = 0 := ⟨d, hz⟩
  have hfind := Nat.find_min' hex hz
  exact ⟨.find hex, by omega, Nat.find_spec hex, fun j hj => Nat.find_min hex hj⟩

section
variable (h : c.sz ≤ KERNBASE)
include h

theorem argptr_some {i : ℕ} :
    (argptr c n size).2 = some i ↔
      0 ≤ size ∧ Readable c n ∧ i = c.arg n ∧ i < c.sz ∧ i + size.toInt.toNat ≤ c.sz := by
  by_cases hr : Readable c n
  · have hsize := size.toInt_lt
    have hneg : size < 0 ↔ ¬0 ≤ size := Int32.not_le.symm
    unfold KERNBASE at h
    simp only [argptr, argint_eq h hr, hr, true_and, hneg]
    split
    · rename_i hbad
      refine ⟨fun h => (by cases h), ?_⟩
      rintro ⟨h0, rfl, hi⟩
      rcases hbad with hbad | hbad
      · exact absurd h0 hbad
      · omega
    · grind
  · simp [argptr, argint_none h hr, hr]

theorem argstr_some {a len : ℕ} :
    (argstr c n).2 = some (a, len) ↔ Readable c n ∧ a = c.arg n ∧ IsStr c (c.arg n) len := by
  by_cases hr : Readable c n
  · simp only [argstr, argint_eq h hr, fetchstr_some, hr, true_and]
  · simp [argstr, argint_none h hr, hr]

theorem argstr_inside : ∀ a ∈ (argstr c n).1, a < c.sz := by
  have hin := argint_inside (n := n) h
  unfold argstr
  split
  · rename_i l hl
    rwa [hl] at hin
  · rename_i l addr hl
    rw [hl] at hin
    exact List.forall_mem_append.2 ⟨hin, fetchstr_inside⟩

end

theorem args_checked (c : Proc) (n : ℕ) (size : Int32) (h : c.sz ≤ KERNBASE) :
    ((argint c n).2 ≠ none → Readable c n) ∧ (∀ a ∈ (argint c n).1, a < c.sz) ∧
    (∀ i, (argptr c n size).2 = some i ↔
      0 ≤ size ∧ Readable c n ∧ i = c.arg n ∧ i < c.sz ∧ i + size.toInt.toNat ≤ c.sz) ∧
    ((∃ r, (argstr c n).2 = some r) ↔
      Readable c n ∧ ∃ x, c.arg n ≤ x ∧ x < c.sz ∧ c.mem x = 0) ∧
    (∀ a len, (argstr c n).2 = some (a, len) → a = c.arg n ∧ IsStr c a len) ∧
    ∀ a ∈ (argstr c n).1, a < c.sz := by
  refine ⟨fun hne => ?_, argint_inside h, fun i => argptr_some h, ?_, fun a len hr => ?_,
    argstr_inside h⟩
  · by_contra hr
    exact hne (by rw [argint_none h hr])
  · rw [← exists_isStr, Prod.exists]
    simp only [argstr_some h]
    grind
  · obtain ⟨-, rfl, hstr⟩ := (argstr_some h).1 hr
    exact ⟨rfl, hstr⟩

theorem args_checked_small :
    let c : Proc := ⟨8, 2 ^ 32 - 4, fun a => [4, 0, 0, 0, 65, 66, 0, 65].getD a 0⟩
    (argptr c 0 4).2 = some 4 ∧ (argptr c 0 5).2 ≠ some 4 ∧
      ∀ a len, (argstr c 0).2 = some (a, len) → a = 4 ∧ IsStr c a len := by
  intro c
  have h := fun size => args_checked c 0 size (by decide)
  have hread : Readable c 0 := by unfold Readable; decide
  refine ⟨((h 4).2.2.1 4).2 ⟨by decide, hread, by decide⟩, fun hi => ?_, fun a len hr => ?_⟩
  · exact absurd (((h 5).2.2.1 4).1 hi).2.2.2.2 (by decide)
  · have harg : c.arg 0 = 4 := by decide
    exact harg ▸ (h 0).2.2.2.2.1 a len hr

end Xv6.Args
