import Mathlib.Data.Nat.ModEq

/-!
Ring buffers with free-running counters.

The counters say how many items have been put and taken, modulo `2 ^ 32`,
and only the index of a cell is reduced to the size of the buffer. That
the cells are used in turn, also when a counter wraps, is due to the size
being a divisor of `2 ^ 32`.
-/

namespace Xv6.Lib

open Function

structure Ring (α : Type) (N : ℕ) where
  data : Fin N → α
  nread : UInt32
  nwrite : UInt32

namespace Ring

variable {α : Type} {N : ℕ}

def used (r : Ring α N) : ℕ := (r.nwrite - r.nread).toNat

def full (r : Ring α N) : Prop := r.nwrite = r.nread + UInt32.ofNat N

instance (r : Ring α N) : Decidable r.full := inferInstanceAs (Decidable (_ = _))

def empty (r : Ring α N) : Prop := r.nread = r.nwrite

instance (r : Ring α N) : Decidable r.empty := inferInstanceAs (Decidable (_ = _))

variable {r : Ring α N}

theorem used_lt : r.used < 2 ^ 32 := UInt32.toNat_lt _

theorem nwrite_eq : r.nwrite = r.nread + UInt32.ofNat r.used := by
  rw [used, UInt32.ofNat_toNat, UInt32.add_comm, UInt32.sub_add_cancel]

theorem used_eq_iff {k : ℕ} (hk : k < 2 ^ 32) :
    r.used = k ↔ r.nwrite = r.nread + UInt32.ofNat k := by
  constructor
  · rintro rfl
    exact nwrite_eq
  · intro h
    rw [used, h, UInt32.add_comm, UInt32.add_sub_cancel]
    exact UInt32.toNat_ofNat_of_lt hk

theorem empty_iff : r.empty ↔ r.used = 0 := by
  rw [used_eq_iff (by decide), empty, eq_comm]
  simp

theorem full_iff (hlt : N < 2 ^ 32) : r.full ↔ r.used = N := (used_eq_iff hlt).symm

def pop (r : Ring α N) : Ring α N := { r with nread := r.nread + 1 }

theorem used_pop (h : 0 < r.used) : r.pop.used = r.used - 1 := by
  rw [used_eq_iff (by have := r.used_lt; omega)]
  show r.nwrite = r.nread + 1 + UInt32.ofNat (r.used - 1)
  rw [UInt32.add_assoc, show (1 : UInt32) = UInt32.ofNat 1 from rfl, ← UInt32.ofNat_add,
    Nat.add_sub_cancel' h]
  exact nwrite_eq

def unput (r : Ring α N) : Ring α N := { r with nwrite := r.nwrite - 1 }

theorem used_unput (h : 0 < r.used) : r.unput.used = r.used - 1 := by
  rw [used_eq_iff (by have := r.used_lt; omega)]
  show r.nwrite - 1 = r.nread + UInt32.ofNat (r.used - 1)
  have hsucc : UInt32.ofNat r.used = UInt32.ofNat (r.used - 1) + 1 := by
    rw [show (1 : UInt32) = UInt32.ofNat 1 from rfl, ← UInt32.ofNat_add, Nat.sub_add_cancel h]
  conv_lhs => rw [nwrite_eq, hsucc, ← UInt32.add_assoc]
  exact UInt32.add_sub_cancel _ _

variable [NeZero N]

def index (n : UInt32) : Fin N := Fin.ofNat N n.toNat

def put (r : Ring α N) (a : α) : Ring α N :=
  { r with data := update r.data (index r.nwrite) a, nwrite := r.nwrite + 1 }

def front (r : Ring α N) : α := r.data (index r.nread)

def contents (r : Ring α N) : List α :=
  (List.range r.used).map fun i => r.data (index (r.nread + UInt32.ofNat i))

@[simp] theorem length_contents : r.contents.length = r.used := by simp [contents]

theorem used_put (h : r.used + 1 < 2 ^ 32) (a : α) : (r.put a).used = r.used + 1 := by
  rw [used_eq_iff h, UInt32.ofNat_add, ← UInt32.add_assoc]
  show r.nwrite + 1 = r.nread + UInt32.ofNat r.used + 1
  rw [← nwrite_eq]

theorem index_add (hN : N ∣ 2 ^ 32) (n : UInt32) (i : ℕ) :
    ((index (n + UInt32.ofNat i) : Fin N) : ℕ) = (n.toNat + i) % N := by
  rw [index, Fin.val_ofNat, UInt32.toNat_add, Nat.mod_mod_of_dvd _ hN, Nat.add_mod,
    UInt32.toNat_ofNat', Nat.mod_mod_of_dvd _ hN, ← Nat.add_mod]

theorem index_ne (hN : N ∣ 2 ^ 32) (n : UInt32) {i j : ℕ} (hij : i < j) (hj : j < i + N) :
    (index (n + UInt32.ofNat i) : Fin N) ≠ index (n + UInt32.ofNat j) := by
  intro h
  have hmod : (n.toNat + i) % N = (n.toNat + j) % N := by
    rw [← index_add hN, ← index_add hN, h]
  have hdvd : N ∣ n.toNat + j - (n.toNat + i) := (Nat.modEq_iff_dvd' (by omega)).1 hmod
  have := Nat.le_of_dvd (by omega) hdvd
  omega

theorem contents_put (hN : N ∣ 2 ^ 32) (hlt : N < 2 ^ 32) (h : r.used < N) (a : α) :
    (r.put a).contents = r.contents ++ [a] := by
  rw [contents, used_put (by omega), List.range_succ, List.map_append, contents]
  congr 1
  · refine List.map_congr_left fun i hi => ?_
    refine update_of_ne ?_ _ _
    rw [nwrite_eq]
    exact index_ne hN _ (List.mem_range.1 hi) (by omega)
  · simp only [List.map_cons, List.map_nil, put, ← nwrite_eq, update_self]

theorem contents_pop (h : 0 < r.used) : r.contents = r.front :: r.pop.contents := by
  obtain ⟨k, hk⟩ : ∃ k, r.used = k + 1 := ⟨r.used - 1, by omega⟩
  have hpop : r.pop.used = k := by rw [used_pop h, hk, Nat.add_sub_cancel]
  rw [contents, hk, List.range_succ_eq_map, List.map_cons, List.map_map, contents, hpop]
  congr 1
  · simp [front]
  refine List.map_congr_left fun i _ => ?_
  show r.data (index (r.nread + UInt32.ofNat (i + 1))) =
    r.data (index (r.nread + 1 + UInt32.ofNat i))
  rw [UInt32.add_assoc, show (1 : UInt32) = UInt32.ofNat 1 from rfl, ← UInt32.ofNat_add,
    add_comm i 1]

def back (r : Ring α N) : α := r.data (index (r.nwrite - 1))

theorem contents_unput (h : 0 < r.used) : r.contents = r.unput.contents ++ [r.back] := by
  obtain ⟨k, hk⟩ : ∃ k, r.used = k + 1 := ⟨r.used - 1, by omega⟩
  have hunput : r.unput.used = k := by rw [used_unput h, hk, Nat.add_sub_cancel]
  have hlast : r.nread + UInt32.ofNat k = r.nwrite - 1 := by
    rw [← hunput]
    exact (nwrite_eq (r := r.unput)).symm
  rw [contents, hk, List.range_succ, List.map_append, contents, hunput]
  simp only [List.map_cons, List.map_nil, hlast]
  rfl

theorem contents_take {q : Ring α N} (hdata : q.data = r.data) (hread : q.nread = r.nread)
    (hle : q.used ≤ r.used) : q.contents = r.contents.take q.used := by
  rw [contents, contents, ← List.map_take, List.take_range, min_eq_left hle, hdata, hread]

theorem contents_drop {k : ℕ} (hk : k ≤ r.used) :
    contents { r with nread := r.nread + UInt32.ofNat k } = r.contents.drop k := by
  induction k with
  | zero => simp
  | succ k ih =>
    have hlen : (contents { r with nread := r.nread + UInt32.ofNat k }).length = r.used - k := by
      rw [ih (by omega), List.length_drop, length_contents]
    rw [length_contents] at hlen
    have hpop := contents_pop (r := { r with nread := r.nread + UInt32.ofNat k }) (by omega)
    rw [ih (by omega)] at hpop
    rw [← List.tail_drop, hpop, List.tail_cons, pop, UInt32.ofNat_add, ← UInt32.add_assoc]
    rfl

end Ring

end Xv6.Lib
