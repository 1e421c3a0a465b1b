import Xv6.Fs.Inode
import Xv6.Lib.Transition

/-!
The blocks that inodes own.

An inode has `MAXFILE` slots for data blocks. The first ones are its
direct addresses, the others are the entries of its indirect block, if it
has one. It owns the blocks in its slots that are not 0, and the indirect
block. `total` is what all allocated inodes own, each block as often as it
is referred to.

`bmap` changes one slot at a time, from 0 to a block, so it adds that block
to what the inode owns; there is one lemma for each of its three stores.
-/

namespace Xv6.Fs

open Lib Function

def nz (a : ℕ) : Multiset ℕ := if a = 0 then 0 else {a}

def slot (x : Dinode) (disk : ℕ → Block) (k : ℕ) : ℕ :=
  if k < NDIRECT then x.addrs k
  else if k < MAXFILE ∧ x.addrs NDIRECT ≠ 0 then word (disk (x.addrs NDIRECT)) (k - NDIRECT)
  else 0

def blockOf (x : Dinode) (disk : ℕ → Block) (k : ℕ) : Block :=
  if slot x disk k = 0 then zeros else disk (slot x disk k)

@[irreducible] def blocks (f : ℕ → ℕ) : Multiset ℕ := ∑ k ∈ Finset.range MAXFILE, nz (f k)

def refs (x : Dinode) (disk : ℕ → Block) : Multiset ℕ :=
  nz (x.addrs NDIRECT) + blocks (slot x disk)

def own (x : Dinode) (disk : ℕ → Block) : Multiset ℕ := if x.type = 0 then 0 else refs x disk

@[irreducible] def total (sb : Super) (J : ℕ → Dinode) (disk : ℕ → Block) : Multiset ℕ :=
  ∑ i ∈ Finset.range sb.ninodes, own (J i) disk

section
variable {x : Dinode} {disk disk' : ℕ → Block} {k j a b : ℕ} {f : ℕ → ℕ}

theorem mem_nz : b ∈ nz a ↔ a ≠ 0 ∧ b = a := by
  unfold nz
  split <;> simp [*]

theorem mem_blocks : b ∈ blocks f ↔ ∃ k < MAXFILE, f k ≠ 0 ∧ b = f k := by
  unfold blocks
  simp only [Multiset.mem_sum, Finset.mem_range, mem_nz]

theorem mem_refs :
    b ∈ refs x disk ↔ x.addrs NDIRECT ≠ 0 ∧ b = x.addrs NDIRECT ∨
      ∃ k < MAXFILE, slot x disk k ≠ 0 ∧ b = slot x disk k := by
  rw [refs, Multiset.mem_add, mem_nz, mem_blocks]

theorem slot_mem_refs (hk : k < MAXFILE) (h : slot x disk k ≠ 0) : slot x disk k ∈ refs x disk :=
  mem_refs.2 (.inr ⟨k, hk, h, rfl⟩)

theorem indirect_mem_refs (h : x.addrs NDIRECT ≠ 0) : x.addrs NDIRECT ∈ refs x disk :=
  mem_refs.2 (.inl ⟨h, rfl⟩)

theorem blocks_update (hk : k < MAXFILE) (hf : f k = 0) (a : ℕ) :
    blocks (update f k a) = nz a + blocks f := by
  have h := sum_update_mem (Finset.mem_range.2 hk) f nz a
  have hz : nz (f k) = 0 := if_pos hf
  rw [hz, add_zero] at h
  unfold blocks
  rw [h, add_comm]

theorem blocks_zero : blocks (fun _ => 0) = 0 := by
  unfold blocks
  exact Finset.sum_const_zero

theorem slot_of_lt (hk : k < NDIRECT) : slot x disk k = x.addrs k := if_pos hk

theorem slot_of_le (hk : NDIRECT ≤ k) (hk' : k < MAXFILE) (hx : x.addrs NDIRECT ≠ 0) :
    slot x disk k = word (disk (x.addrs NDIRECT)) (k - NDIRECT) := by
  rw [slot, if_neg (by omega), if_pos ⟨hk', hx⟩]

theorem slot_of_not (hk : NDIRECT ≤ k) (hx : x.addrs NDIRECT = 0) : slot x disk k = 0 := by
  rw [slot, if_neg (by omega), if_neg fun h => h.2 hx]

theorem slot_congr (h : x.addrs NDIRECT ≠ 0 → disk' (x.addrs NDIRECT) = disk (x.addrs NDIRECT)) :
    slot x disk' = slot x disk := by
  funext k
  unfold slot
  by_cases hx : x.addrs NDIRECT = 0
  · simp only [hx, ne_eq, not_true_eq_false, and_false, if_false]
  · rw [h hx]

theorem refs_congr (h : x.addrs NDIRECT ≠ 0 → disk' (x.addrs NDIRECT) = disk (x.addrs NDIRECT)) :
    refs x disk' = refs x disk := by
  rw [refs, refs, slot_congr h]

theorem own_congr (h : x.type ≠ 0 → x.addrs NDIRECT ≠ 0 →
    disk' (x.addrs NDIRECT) = disk (x.addrs NDIRECT)) : own x disk' = own x disk := by
  unfold own
  by_cases hx : x.type = 0
  · rw [if_pos hx, if_pos hx]
  · rw [if_neg hx, if_neg hx, refs_congr (h hx)]

theorem own_of_ne (h : x.type ≠ 0) (disk : ℕ → Block) : own x disk = refs x disk := if_neg h

theorem own_free (h : x.type = 0) : own x disk = 0 := if_pos h

@[simp] theorem setAddr_self (x : Dinode) (k a : ℕ) : (x.setAddr k a).addrs k = a := by
  show update x.addrs k a k = a
  rw [update_self]

theorem setAddr_of_ne (x : Dinode) {k j : ℕ} (a : ℕ) (h : j ≠ k) :
    (x.setAddr k a).addrs j = x.addrs j := by
  show update x.addrs k a j = x.addrs j
  rw [update_of_ne h]

theorem slot_setAddr (hk : k < NDIRECT) : slot (x.setAddr k a) disk = update (slot x disk) k a := by
  have hind : (x.setAddr k a).addrs NDIRECT = x.addrs NDIRECT := setAddr_of_ne x a (by omega)
  funext j
  by_cases hj : j = k
  · subst hj
    rw [update_self, slot_of_lt hk, setAddr_self]
  · rw [update_of_ne hj, slot, slot, hind]
    by_cases hlt : j < NDIRECT
    · rw [if_pos hlt, if_pos hlt, setAddr_of_ne x a hj]
    · rw [if_neg hlt, if_neg hlt]

theorem slot_setIndirect (hx : x.addrs NDIRECT = 0) (ha : disk a = zeros) :
    slot (x.setAddr NDIRECT a) disk = slot x disk := by
  funext j
  by_cases hlt : j < NDIRECT
  · rw [slot_of_lt hlt, slot_of_lt hlt, setAddr_of_ne x a (by omega)]
  · rw [slot_of_not (by omega) hx, slot, if_neg hlt, setAddr_self, ha, word_zeros]
    exact ite_self 0

theorem slot_setWord (disk : ℕ → Block) (hx : x.addrs NDIRECT ≠ 0) (hk : k < NINDIRECT)
    (ha : a < 2 ^ 32) :
    slot x (update disk (x.addrs NDIRECT) (setWord (disk (x.addrs NDIRECT)) k a)) =
      update (slot x disk) (NDIRECT + k) a := by
  funext j
  by_cases hj : j = NDIRECT + k
  · subst hj
    have hk' : NDIRECT + k < MAXFILE := Nat.add_lt_add_left hk NDIRECT
    rw [update_self, slot_of_le (by omega) hk' hx, update_self,
      Nat.add_sub_cancel_left, word_setWord _ hk ha]
  rw [update_of_ne hj]
  by_cases hlt : j < NDIRECT
  · rw [slot_of_lt hlt, slot_of_lt hlt]
  by_cases hmax : j < MAXFILE
  · rw [slot_of_le (by omega) hmax hx, slot_of_le (by omega) hmax hx, update_self,
      word_setWord_of_ne _ _ (by omega)]
  · rw [slot, slot, if_neg hlt, if_neg hlt, if_neg (fun h => hmax h.1), if_neg fun h => hmax h.1]

end

variable {sb : Super} {J : ℕ → Dinode} {disk disk' : ℕ → Block} {i j w b : ℕ} {x : Dinode}

theorem mem_total : b ∈ total sb J disk ↔ ∃ i < sb.ninodes, b ∈ own (J i) disk := by
  unfold total
  simp only [Multiset.mem_sum, Finset.mem_range]

theorem total_update (hw : w < sb.ninodes) (x : Dinode) :
    total sb (update J w x) disk + own (J w) disk = total sb J disk + own x disk := by
  unfold total
  exact sum_update_mem (Finset.mem_range.2 hw) J (own · disk) x

theorem total_congr (h : ∀ i < sb.ninodes, own (J i) disk' = own (J i) disk) :
    total sb J disk' = total sb J disk := by
  unfold total
  exact Finset.sum_congr rfl fun i hi => h i (Finset.mem_range.1 hi)

theorem total_eq_add (hw : w < sb.ninodes) :
    total sb J disk = own (J w) disk + total sb (update J w (.new 0)) disk := by
  have h : total sb (update J w (.new 0)) disk + own (J w) disk =
      total sb J disk + own (.new 0) disk := total_update hw (.new 0)
  rw [own_free (x := .new 0) rfl, add_zero] at h
  rw [← h, add_comm]

theorem not_mem_own (hnd : (total sb J disk).Nodup) (hi : i < sb.ninodes) (hj : j < sb.ninodes)
    (hij : j ≠ i) (hb : b ∈ own (J i) disk) : b ∉ own (J j) disk := by
  rw [total_eq_add hi] at hnd
  intro hbj
  refine Multiset.disjoint_left.1 (Multiset.nodup_add.1 hnd).2.2 hb (mem_total.2 ⟨j, hj, ?_⟩)
  rwa [update_of_ne hij]

theorem refs_nodup (hnd : (total sb J disk).Nodup) (hi : i < sb.ninodes)
    (htype : (J i).type ≠ 0) : (refs (J i) disk).Nodup := by
  rw [total_eq_add hi, own_of_ne htype] at hnd
  exact (Multiset.nodup_add.1 hnd).1

theorem slot_inj {f : ℕ → ℕ} {k l : ℕ} (hnd : (blocks f).Nodup) (hk : k < MAXFILE)
    (hl : l < MAXFILE) (hne : f k ≠ 0) (heq : f k = f l) : k = l := by
  by_contra hkl
  have hsplit : blocks f = nz (f k) + blocks (update f k 0) := by
    have h := blocks_update (f := update f k 0) hk (update_self ..) (f k)
    rwa [update_idem, update_eq_self] at h
  rw [hsplit] at hnd
  refine Multiset.disjoint_left.1 (Multiset.nodup_add.1 hnd).2.2 (mem_nz.2 ⟨hne, rfl⟩)
    (mem_blocks.2 ⟨l, hl, ?_, ?_⟩)
  · rw [update_of_ne (.symm hkl), ← heq]
    exact hne
  · rw [update_of_ne (.symm hkl), heq]

variable (hnd : (total sb J disk).Nodup) (hi : i < sb.ninodes) (hj : j < sb.ninodes)
  (hti : (J i).type ≠ 0) (htj : (J j).type ≠ 0)
include hnd hi hj hti htj

theorem slot_ne_indirect {k : ℕ} (hk : k < MAXFILE) (hne : slot (J i) disk k ≠ 0)
    (hx : (J j).addrs NDIRECT ≠ 0) : (J j).addrs NDIRECT ≠ slot (J i) disk k := by
  intro heq
  by_cases hij : j = i
  · subst hij
    have h := refs_nodup hnd hj htj
    exact Multiset.disjoint_left.1 (Multiset.nodup_add.1 h).2.2 (mem_nz.2 ⟨hx, rfl⟩)
      (mem_blocks.2 ⟨k, hk, hne, heq⟩)
  · refine not_mem_own hnd hi hj hij ((own_of_ne hti _).symm ▸ slot_mem_refs hk hne) ?_
    rw [own_of_ne htj, ← heq]
    exact indirect_mem_refs hx

theorem slot_store {k : ℕ} (hk : k < MAXFILE) (hne : slot (J i) disk k ≠ 0) (v : Block) :
    slot (J j) (update disk (slot (J i) disk k) v) = slot (J j) disk :=
  slot_congr fun hx =>
    update_of_ne (slot_ne_indirect hnd hi hj hti htj hk hne hx) _ _

theorem slot_unique {k l : ℕ} (hk : k < MAXFILE) (hl : l < MAXFILE) (hne : slot (J i) disk k ≠ 0)
    (heq : slot (J i) disk k = slot (J j) disk l) : j = i ∧ l = k := by
  by_cases hij : j = i
  · subst hij
    have h := (Multiset.nodup_add.1 (refs_nodup hnd hj htj)).2.1
    exact ⟨rfl, (slot_inj h hk hl hne heq).symm⟩
  · refine absurd ?_ (not_mem_own hnd hi hj hij ((own_of_ne hti _).symm ▸ slot_mem_refs hk hne))
    rw [own_of_ne htj, heq]
    exact slot_mem_refs hl (heq ▸ hne)

end Xv6.Fs
