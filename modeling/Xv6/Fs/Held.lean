import Xv6.Fs.Content

/-!
References to inodes: `iget`, `idup`, `ilock` and `iput`.

A call that only looks takes references and gives them back, and reads inodes
into memory; the disk stays as it is. `Held` follows such a call from the state
in which it starts: `m` are the references that it has, each as often as it has
it. An inode with no links that is still allocated has a reference from before,
so giving back one's own frees nothing.
-/

namespace Xv6.Fs

open Lib Function

def Live (sb : Super) (I : ℕ → Dinode) (s : State) : Prop :=
  ∀ i < sb.ninodes, (I i).type ≠ 0 → (I i).nlink = 0 → 0 < s.ref i

structure Held (sb : Super) (I : ℕ → Dinode) (Φ : ℕ → ℕ → Block) (s₀ : State) (m : Multiset ℕ)
    (s : State) : Prop where
  settled : Settled sb I Φ s
  disk : s.disk = s₀.disk
  ref : ∀ i, s.ref i = s₀.ref i + m.count i

variable {sb : Super} {I : ℕ → Dinode} {Φ : ℕ → ℕ → Block} {s0 s : State} {m : Multiset ℕ}
  {i : ℕ}

theorem Held.start (h : Settled sb I Φ s) : Held sb I Φ s 0 s :=
  ⟨h, rfl, fun _ => by rw [Multiset.count_zero, Nat.add_zero]⟩

theorem Held.ref_eq (h : Held sb I Φ s0 0 s) : s.ref = s0.ref := by
  funext i
  rw [h.ref i, Multiset.count_zero, Nat.add_zero]

theorem Held.cons {s' : State} (h : Held sb I Φ s0 m s) (hdisk : s'.disk = s.disk)
    (hmem : ∀ j < sb.ninodes, s'.valid j = true → s.valid j = true ∧ s'.inode j = s.inode j)
    (href : s'.ref = update s.ref i (s.ref i + 1)) : Held sb I Φ s0 (i ::ₘ m) s' := by
  refine ⟨h.settled.forget hdisk hmem, hdisk.trans h.disk, fun j => ?_⟩
  rw [href]
  by_cases hj : j = i
  · rw [hj, update_self, h.ref i, Multiset.count_cons_self, Nat.add_assoc]
  · rw [update_of_ne hj, h.ref j, Multiset.count_cons_of_ne hj]

theorem Held.iget : Triple (Held sb I Φ s0 m) (iget sb i)
    (fun _ => Held sb I Φ s0 (i ::ₘ m)) fun e _ => e = .igetNoInodes := by
  constructor
  intro s h
  show Prog.Ends _ _ (Prog.result (if s.ref i = 0 ∧ NINODE ≤ s.cached sb then _ else _) _)
  by_cases hfull : s.ref i = 0 ∧ NINODE ≤ s.cached sb
  · rw [if_pos hfull]
    rfl
  rw [if_neg hfull]
  show Held sb I Φ s0 (i ::ₘ m) (if 0 < s.ref i then _ else _)
  by_cases href : 0 < s.ref i
  · rw [if_pos href]
    exact h.cons rfl (fun _ _ hv => ⟨hv, rfl⟩) rfl
  rw [if_neg href]
  refine h.cons rfl (fun j _ hv => ?_) (by rw [Nat.eq_zero_of_not_pos href])
  by_cases hj : j = i
  · rw [hj] at hv
    exact absurd ((update_self ..).symm.trans hv) Bool.false_ne_true
  · exact ⟨(update_of_ne hj ..).symm.trans hv, rfl⟩

theorem Held.idup : Triple (Held sb I Φ s0 m) (idup i) (fun _ => Held sb I Φ s0 (i ::ₘ m)) Never :=
  .modify fun _ h => h.cons rfl (fun _ _ hv => ⟨hv, rfl⟩) rfl

theorem Held.load (h : Held sb I Φ s0 m s) (ht : (I i).type ≠ 0) :
    Held sb I Φ s0 m (s.load i (I i)) := ⟨h.settled.load ht, h.disk, h.ref⟩

theorem Held.ilock (hi : i < sb.ninodes) (hpos : 0 < s0.ref i + m.count i) :
    Triple (Held sb I Φ s0 m) (ilock sb i)
      (fun _ s => (I i).type ≠ 0 ∧ s.valid i = true ∧ Held sb I Φ s0 m s)
      fun e _ => e = .noType ∧ (I i).type = 0 := by
  constructor
  intro s h
  have href : ¬s.ref i < 1 := by
    rw [h.ref i]
    omega
  show Prog.Ends _ _ (Prog.result (if s.ref i < 1 then _ else _) s)
  rw [if_neg href]
  by_cases hv : s.valid i = true
  · rw [if_pos hv]
    exact ⟨(h.settled.cache i hi (Option.some_ne_none i) hv).2, hv, h⟩
  rw [if_neg hv]
  show Prog.Ends _ _ (Prog.result (if (sb.dinode s.disk i).type = 0 then _ else _)
    (s.load i (sb.dinode s.disk i)))
  rw [h.settled.disk i hi]
  by_cases ht : (I i).type = 0
  · rw [if_pos ht]
    exact ⟨rfl, ht⟩
  · rw [if_neg ht]
    exact ⟨ht, State.load_valid .., h.load ht⟩

theorem Held.iput (hlive : Live sb I s0) (hi : i < sb.ninodes) (hm : i ∈ m) :
    Triple (Held sb I Φ s0 m) (iput sb i) (fun _ => Held sb I Φ s0 (m.erase i))
      Never := by
  have hcount := Multiset.count_pos.2 hm
  refine .bind (R := fun dead s => dead = false ∧ Held sb I Φ s0 m s)
    (.read fun s h => ⟨?_, h⟩) fun dead => .of_and fun hdead => ?_
  · rw [Bool.and_eq_false_iff, Bool.and_eq_false_iff, or_assoc]
    by_cases hv : s.valid i = true
    · obtain ⟨hmem, ht⟩ := h.settled.cache i hi (Option.some_ne_none i) hv
      refine .inr ?_
      by_cases hlink : (s.inode i).nlink = 0
      · refine .inr (decide_eq_false ?_)
        have := hlive i hi ht (hmem ▸ hlink)
        rw [h.ref i]
        omega
      · exact .inl (decide_eq_false hlink)
    · exact .inl (Bool.eq_false_iff.2 hv)
  · rw [hdead, if_neg Bool.false_ne_true]
    refine .bind (R := fun _ => Held sb I Φ s0 m) (.pure fun s h => h)
      fun _ => .modify fun s h => ?_
    refine ⟨h.settled.forget rfl fun _ _ hv => ⟨hv, rfl⟩, h.disk, fun j => ?_⟩
    show update s.ref i (s.ref i - 1) j = _
    by_cases hj : j = i
    · rw [hj, update_self, h.ref i, Multiset.count_erase_self]
      omega
    · rw [update_of_ne hj, h.ref j, Multiset.count_erase_of_ne hj]

end Xv6.Fs
