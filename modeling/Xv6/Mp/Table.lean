import Mathlib
import Xv6.Param

/-!
The walk of `mpinit` over the entries of the MP configuration table (`mp.c`).

The table is the bytes from `conf` on, and the cursor `p` is an offset into it.
A `continue` in the switch is followed by the test of the loop, and so is the
`break` of its default case, which leaves the cursor where it is: an entry of an
unknown type is looked at again and again, and the panic behind the loop is not
reached.
-/

namespace Xv6.Mp

abbrev Table := ℕ → UInt8

def Table.length (conf : Table) : ℕ := (conf 4).toNat + 256 * (conf 5).toNat

def Table.sum (conf : Table) (len : ℕ) : UInt8 := ((List.range len).map conf).sum

def Table.Accepted (conf : Table) : Prop :=
  (List.range 4).map conf = "PCMP".toList.map (·.toUInt8) ∧ (conf 6 = 1 ∨ conf 6 = 4) ∧
    conf.sum conf.length = 0

structure St where
  p : ℕ
  ismp : Bool
  cpus : List UInt8
  ioapicid : UInt8

def start : St := ⟨44, true, [], 0⟩

def Known (type : UInt8) : Prop := type.toNat ≤ 4

def entrySize (type : UInt8) : ℕ := if type.toNat = 0 then 20 else 8

inductive EntryAt (conf : Table) : ℕ → Prop
  | first : EntryAt conf 44
  | next {p : ℕ} (h : EntryAt conf p) (hp : p < conf.length) (hk : Known (conf p)) :
      EntryAt conf (p + entrySize (conf p))

def step (conf : Table) (s : St) : St :=
  match (conf s.p).toNat with
  | 0 =>
    { s with
      cpus := if s.cpus.length < NCPU then s.cpus ++ [conf (s.p + 1)] else s.cpus
      p := s.p + 20 }
  | 2 => { s with ioapicid := conf (s.p + 1), p := s.p + 8 }
  | 1 | 3 | 4 => { s with p := s.p + 8 }
  | _ => { s with ismp := false }

def loop (conf : Table) : ℕ → St → St
  | 0, s => s
  | n + 1, s => if s.p < conf.length then loop conf n (step conf s) else s

variable {conf : Table} {s : St} {n : ℕ}

theorem step_known (h : Known (conf s.p)) : (step conf s).p = s.p + entrySize (conf s.p) := by
  unfold Known at h
  unfold step entrySize
  generalize (conf s.p).toNat = type at h ⊢
  obtain rfl | rfl | rfl | rfl | rfl : type = 0 ∨ type = 1 ∨ type = 2 ∨ type = 3 ∨ type = 4 := by
    omega
  all_goals rfl

theorem entrySize_pos (type : UInt8) : 0 < entrySize type := by
  unfold entrySize
  split <;> decide

theorem step_unknown (h : ¬Known (conf s.p)) : (step conf s).p = s.p := by
  unfold Known at h
  unfold step
  generalize (conf s.p).toNat = type at h ⊢
  split
  case h_6 => rfl
  all_goals omega

theorem length_cpus_step (h : s.cpus.length ≤ NCPU) : (step conf s).cpus.length ≤ NCPU := by
  unfold step
  split
  · dsimp only
    split
    · simp only [List.length_append, List.length_singleton]
      omega
    · exact h
  all_goals exact h

theorem length_cpus_loop (h : s.cpus.length ≤ NCPU) : (loop conf n s).cpus.length ≤ NCPU := by
  induction n generalizing s with
  | zero => exact h
  | succ n ih =>
    unfold loop
    split
    · exact ih (length_cpus_step h)
    · exact h

theorem loop_unknown (h : ¬Known (conf s.p)) : (loop conf n s).p = s.p := by
  induction n generalizing s with
  | zero => rfl
  | succ n ih =>
    unfold loop
    split
    · have hp := step_unknown h
      rw [ih (by rwa [hp]), hp]
    · rfl

theorem loop_add (m : ℕ) : loop conf (n + m) s = loop conf m (loop conf n s) := by
  induction n generalizing s with
  | zero => rw [Nat.zero_add]; rfl
  | succ n ih =>
    rw [Nat.add_right_comm, loop, loop]
    split
    · exact ih
    · rename_i hp
      cases m with
      | zero => rfl
      | succ m => rw [loop, if_neg hp]

theorem loop_succ (n : ℕ) (hp : (loop conf n s).p < conf.length) :
    loop conf (n + 1) s = step conf (loop conf n s) := by
  rw [loop_add, loop, if_pos hp, loop]

theorem loop_ended (h : conf.length ≤ s.p) : loop conf n s = s := by
  cases n with
  | zero => rfl
  | succ n => rw [loop, if_neg (Nat.not_lt.2 h)]

theorem entryAt_loop (n : ℕ) : EntryAt conf (loop conf n start).p := by
  induction n with
  | zero => exact .first
  | succ n ih =>
    by_cases hp : (loop conf n start).p < conf.length
    · rw [loop_succ n hp]
      by_cases hk : Known (conf (loop conf n start).p)
      · rw [step_known hk]
        exact .next ih hp hk
      · rwa [step_unknown hk]
    · rwa [loop_add, loop_ended (Nat.not_lt.1 hp)]

theorem EntryAt.reached {p : ℕ} (h : EntryAt conf p) : ∃ n, (loop conf n start).p = p := by
  induction h with
  | first => exact ⟨0, rfl⟩
  | @next p _ hp hk ih =>
    obtain ⟨n, hn⟩ := ih
    refine ⟨n + 1, ?_⟩
    rw [loop_succ n (by rwa [hn]), step_known (by rwa [hn]), hn]

def Table.AllKnown (conf : Table) : Prop := ∀ p, EntryAt conf p → p < conf.length → Known (conf p)

theorem loop_known (h : conf.AllKnown) (n : ℕ) :
    conf.length ≤ (loop conf n start).p ∨ n ≤ (loop conf n start).p := by
  induction n with
  | zero => exact .inr (Nat.zero_le _)
  | succ n ih =>
    by_cases hp : (loop conf n start).p < conf.length
    · rw [loop_succ n hp, step_known (h _ (entryAt_loop n) hp)]
      have := entrySize_pos (conf (loop conf n start).p)
      omega
    · rw [loop_add, loop_ended (Nat.not_lt.1 hp)]
      exact .inl (Nat.not_lt.1 hp)

def EndsAfter (conf : Table) (n : ℕ) : Prop :=
  conf.length ≤ (loop conf n start).p ∧
    ((∀ p, EntryAt conf p → p < conf.length → ∃ m < n, (loop conf m start).p = p) ∨
      (loop conf n start).ismp = false)

theorem endsAfter_of_le (h : conf.length ≤ (loop conf n start).p) : EndsAfter conf n := by
  refine ⟨h, .inl fun p he hp => ?_⟩
  obtain ⟨m, rfl⟩ := he.reached
  refine ⟨m, ?_, rfl⟩
  by_contra hmn
  have hlast : loop conf m start = loop conf n start := by
    rw [← Nat.add_sub_cancel' (Nat.not_lt.1 hmn), loop_add, loop_ended h]
  rw [hlast] at hp
  omega

theorem mpinit_ends_iff (conf : Table) :
    ((∃ n, EndsAfter conf n) ↔ conf.AllKnown) ∧
    ∀ n, (loop conf n start).cpus.length ≤ NCPU := by
  refine ⟨⟨?_, fun h => ⟨conf.length, endsAfter_of_le ?_⟩⟩,
    fun n => length_cpus_loop (Nat.zero_le NCPU)⟩
  · rintro ⟨n, hend, -⟩ p he hp
    obtain ⟨m, rfl⟩ := he.reached
    by_contra hk
    have hstay : (loop conf n (loop conf m start)).p = (loop conf m start).p := loop_unknown hk
    rw [← loop_add, Nat.add_comm, loop_add, loop_ended hend] at hstay
    omega
  · exact (loop_known h conf.length).elim id id

def odd : Table
  | 0 => 80 | 1 => 67 | 2 => 77 | 3 => 80 | 4 => 45 | 6 => 4 | 7 => 154 | 44 => 5 | _ => 0

theorem mpinit_spins : odd.Accepted ∧ ∀ n, (loop odd n start).p < odd.length := by
  refine ⟨by unfold Table.Accepted; decide, fun n => ?_⟩
  rw [loop_unknown (by unfold Known; decide)]
  decide

end Xv6.Mp
