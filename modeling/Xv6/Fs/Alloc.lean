import Mathlib.Algebra.Order.BigOperators.Group.Finset
import Mathlib.Order.Interval.Finset.Nat
import Xv6.Fs.Owned
import Xv6.Lib.Triple

namespace Xv6.Fs

open Lib Function
open Finset (mem_range range sum_congr)
open Multiset (add_cons card card_add card_sum mem_cons)

section
variable {sb : Super} {b : ℕ}

theorem bblock_add (sb : Super) {bi : ℕ} (hb : b % BPB = 0) (hbi : bi < BPB) :
    sb.bblock (b + bi) = sb.bblock b ∧ (b + bi) % BPB = bi := by
  unfold Super.bblock
  simp only [BPB, BSIZE] at *
  omega

theorem freeBit_some {disk : ℕ → Block} {bi : ℕ} (hb : b % BPB = 0)
    (h : freeBit sb (disk (sb.bblock b)) b = some bi) :
    bi < BPB ∧ b + bi < sb.size ∧ sb.inUse disk (b + bi) = false ∧
      ∀ c, b ≤ c → c < b + bi → sb.inUse disk c = true := by
  unfold freeBit at h
  obtain ⟨hp, hmem, hmin⟩ := List.find?_range_eq_some.1 h
  have hlt := List.mem_range.1 hmem
  rw [Bool.and_eq_true, decide_eq_true_eq, Bool.not_eq_true'] at hp
  have hadd := bblock_add sb hb hlt
  refine ⟨hlt, hp.1, ?_, fun c h1 h2 => ?_⟩
  · rw [Super.inUse, hadd.1, hadd.2]
    exact hp.2
  have hc := hmin (c - b) (by omega)
  have hcadd := bblock_add sb hb (show c - b < BPB by omega)
  rw [Nat.add_sub_cancel' h1] at hcadd
  rw [Nat.add_sub_cancel' h1, decide_eq_true (show c < sb.size by omega), Bool.true_and,
    Bool.not_not] at hc
  rw [Super.inUse, hcadd.1, hcadd.2]
  exact hc

theorem freeBit_none {disk : ℕ → Block} (hb : b % BPB = 0)
    (h : freeBit sb (disk (sb.bblock b)) b = none) {c : ℕ} (h1 : b ≤ c) (h2 : c < b + BPB)
    (hc : c < sb.size) : sb.inUse disk c = true := by
  unfold freeBit at h
  have hp := List.find?_range_eq_none.1 h (c - b) (by omega)
  have hadd := bblock_add sb hb (show c - b < BPB by omega)
  rw [Nat.add_sub_cancel' h1] at hadd
  rw [Nat.add_sub_cancel' h1, decide_eq_true hc, Bool.true_and, Bool.not_not] at hp
  rw [Super.inUse, hadd.1, hadd.2]
  exact hp

def State.take (sb : Super) (s : State) (b : ℕ) : State :=
  (s.write (sb.bblock b) (setBit · (b % BPB))).write b fun _ => zeros

variable {s0 : State}

theorem ballocLoop_spec {turns k : ℕ} (hturns : sb.size / BPB < k + turns)
    (hbefore : ∀ c < k * BPB, c < sb.size → sb.inUse s0.disk c = true) :
    Triple (· = s0) (ballocLoop sb turns k)
      (fun a s => a < sb.size ∧ sb.inUse s0.disk a = false ∧
        (∀ c < a, sb.inUse s0.disk c = true) ∧ s = s0.take sb a)
      fun e s => e = .outOfBlocks ∧ s = s0 ∧ ∀ c < sb.size, sb.inUse s0.disk c = true := by
  have hb : k * BPB % BPB = 0 := Nat.mul_mod_left k BPB
  induction turns generalizing k with
  | zero =>
    have hlt : sb.size < k * BPB := (Nat.div_lt_iff_lt_mul (by decide)).1 hturns
    exact .panic fun s hs => ⟨rfl, hs, fun c hc => hbefore c (hc.trans hlt) hc⟩
  | succ turns ih =>
    unfold ballocLoop
    refine .ite (fun hlt => ?_) fun hge =>
      .panic fun s hs => ⟨rfl, hs, fun c hc => hbefore c (hc.trans_le (not_lt.1 hge)) hc⟩
    refine .bind (R := fun blk s => blk = s0.disk (sb.bblock (k * BPB)) ∧ s = s0)
      (.read fun s hs => ⟨by rw [hs], hs⟩) fun blk => .of_and fun hblk => ?_
    subst hblk
    cases hfree : freeBit sb (s0.disk (sb.bblock (k * BPB))) (k * BPB) with
    | none =>
      refine ih (by omega) (fun c hc hsize => ?_) (Nat.mul_mod_left _ BPB)
      rw [Nat.succ_mul] at hc
      by_cases hcb : c < k * BPB
      · exact hbefore c hcb hsize
      · exact freeBit_none hb hfree (not_lt.1 hcb) hc hsize
    | some bi =>
      obtain ⟨hbi, hsize, hclear, hset⟩ := freeBit_some hb hfree
      have hadd := bblock_add sb hb hbi
      refine .bind (R := fun _ s => s = s0.write (sb.bblock (k * BPB)) (setBit · bi))
        (.modify fun s hs => by rw [hs]) fun _ => ?_
      refine .bind (R := fun _ s => s = s0.take sb (k * BPB + bi))
        (.modify fun s hs => ?_) fun _ => .pure fun s hs => ⟨hsize, hclear, fun c hc => ?_, hs⟩
      · rw [hs, State.take, hadd.1, hadd.2]
      · by_cases hcb : c < k * BPB
        · exact hbefore c hcb (hc.trans hsize)
        · exact hset c (not_lt.1 hcb) hc

theorem balloc_spec : Triple (· = s0) (balloc sb)
      (fun a s => a < sb.size ∧ sb.inUse s0.disk a = false ∧
        (∀ c < a, sb.inUse s0.disk c = true) ∧ s = s0.take sb a)
      fun e s => e = .outOfBlocks ∧ s = s0 ∧ ∀ c < sb.size, sb.inUse s0.disk c = true := by
  refine ballocLoop_spec ?_ fun c hc => ?_
  · rw [Nat.zero_add]
    exact Nat.lt_succ_self _
  · rw [Nat.zero_mul] at hc
    exact absurd hc (Nat.not_lt_zero c)

theorem bfree_spec (hb : sb.inUse s0.disk b = true) : Triple (· = s0) (bfree sb b)
      (fun _ s => s = s0.write (sb.bblock b) (clearBit · (b % BPB))) Never := by
  unfold bfree
  refine .bind (R := fun blk s => blk = s0.disk (sb.bblock b) ∧ s = s0)
    (.read fun s hs => ⟨by rw [hs], hs⟩) fun blk => .of_and fun hblk => ?_
  subst hblk
  refine .ite (fun hclear => ?_) fun _ => .modify fun s hs => by rw [hs]
  exact absurd (hb.symm.trans hclear) (by decide)

theorem balloc_bfree (sb : Super) (s : State)
    (hmeta : ∀ c < sb.nmeta, sb.inUse s.disk c = true) :
    Prog.Ends
      (fun b t => b < sb.size ∧ sb.inUse s.disk b = false ∧ (∀ c < b, sb.inUse s.disk c = true) ∧
        (∀ c < sb.size, sb.inUse t.disk c = (decide (c = b) || sb.inUse s.disk c)) ∧
        t.disk b = zeros ∧ t.disk (sb.bblock b) = setBit (s.disk (sb.bblock b)) (b % BPB) ∧
        (∀ a, a ≠ b → a ≠ sb.bblock b → t.disk a = s.disk a) ∧
        Prog.Ends (fun _ u => ∀ a, a ≠ b → u.disk a = s.disk a) (fun _ _ => False)
          ((bfree sb b).result t))
      (fun e t => e = .outOfBlocks ∧ t = s ∧ ∀ c < sb.size, sb.inUse s.disk c = true)
      ((balloc sb).result s) ∧
    ∀ b < sb.size, sb.inUse s.disk b = true →
      Prog.Ends
        (fun _ t => (∀ c, sb.inUse t.disk c = (decide (c ≠ b) && sb.inUse s.disk c)) ∧
          t.disk (sb.bblock b) = clearBit (s.disk (sb.bblock b)) (b % BPB) ∧
          ∀ a, a ≠ sb.bblock b → t.disk a = s.disk a)
        (fun _ _ => False) ((bfree sb b).result s) := by
  constructor
  · refine (balloc_spec.post fun b t ht => ?_).ends s rfl
    obtain ⟨hlt, hfree, hleast, rfl⟩ := ht
    have hdata : sb.nmeta ≤ b := by
      by_contra hb
      rw [hmeta b (not_le.1 hb)] at hfree
      cases hfree
    have hne : sb.bblock b ≠ b := ((sb.bblock_lt hlt).trans_le hdata).ne
    have hbits : ∀ c < sb.size,
        sb.inUse (s.take sb b).disk c = (decide (c = b) || sb.inUse s.disk c) := fun c hc =>
      (Super.inUse_update hc (.inr hdata) _).trans Super.inUse_setBit
    have hmap : (s.take sb b).disk (sb.bblock b) = setBit (s.disk (sb.bblock b)) (b % BPB) :=
      (update_of_ne hne ..).trans (update_self ..)
    have hrest : ∀ a, a ≠ b → a ≠ sb.bblock b → (s.take sb b).disk a = s.disk a :=
      fun a hab ham => (update_of_ne hab ..).trans (update_of_ne ham ..)
    refine ⟨hlt, hfree, hleast, hbits, update_self .., hmap, hrest, ?_⟩
    have hset : sb.inUse (s.take sb b).disk b = true := by simp [hbits b hlt]
    refine ((bfree_spec hset).post fun _ u hu a hab => ?_).ends _ rfl
    rw [hu]
    by_cases ham : a = sb.bblock b
    · have hbyte : b % BPB / 8 < BSIZE := by
        simp only [BPB, BSIZE]
        omega
      rw [ham]
      exact (update_self ..).trans (hmap ▸ clearBit_setBit _ hbyte hfree)
    · exact (update_of_ne ham ..).trans (hrest a hab ham)
  · intro b _ hb
    refine ((bfree_spec hb).post fun _ t ht => ?_).ends s rfl
    rw [ht]
    exact ⟨fun c => Super.inUse_clearBit, update_self .., fun a ha => update_of_ne ha ..⟩

def tiny : Super where
  size := 4
  nblocks := 1
  ninodes := 0
  nlog := 0
  logstart := 2
  inodestart := 2
  bmapstart := 2
  boot_le := by decide
  log_le := by decide
  inode_le := by decide
  bmap_le := by decide
  size_lt := by decide

def tinyState : State :=
  ⟨fun _ => setBit (setBit (setBit zeros 0) 1) 2, fun _ => .new 0, fun _ => false, fun _ => 0, []⟩

theorem balloc_bfree_tiny : ((balloc tiny).result tinyState).1 = .ok 3 := by
  have hbits : ∀ b < 4, tiny.inUse tinyState.disk b = false → b = 3 := by decide
  have h := (balloc_bfree tiny tinyState (by decide)).1
  rcases hr : (balloc tiny).result tinyState with ⟨r, t⟩
  rw [hr] at h
  cases r with
  | ok b => exact congrArg Except.ok (hbits b h.1 h.2.1)
  | error e => exact absurd (h.2.2 3 (by decide)) (by decide)

end

structure Filled (x : Dinode) (disk : ℕ → Block) (c : ℕ) : Prop where
  slots : ∀ k < MAXFILE, slot x disk k ≠ 0 ↔ k < c
  indirect : x.addrs NDIRECT ≠ 0 ↔ NDIRECT < c
  le : c ≤ MAXFILE

def blks (c : ℕ) : ℕ := c + if NDIRECT < c then 1 else 0

@[irreducible] def used (sb : Super) (J : ℕ → Dinode) (c : ℕ → ℕ) : ℕ :=
  ∑ i ∈ Finset.range sb.ninodes, if (J i).type = 0 then 0 else blks (c i)

structure Core (sb : Super) (w : Option ℕ) (I J : ℕ → Dinode) (Φ : ℕ → ℕ → Block) (c : ℕ → ℕ)
    (Y : Multiset ℕ) (s : State) : Prop where
  disk : ∀ i < sb.ninodes, sb.dinode s.disk i = I i
  same : ∀ i < sb.ninodes, some i ≠ w → J i = I i
  cache : ∀ i < sb.ninodes, some i ≠ w → s.valid i = true → s.inode i = I i ∧ (I i).type ≠ 0
  files : ∀ i < sb.ninodes, (J i).type ≠ 0 → ∀ k, blockOf (J i) s.disk k = Φ i k
  filled : ∀ i < sb.ninodes, (J i).type ≠ 0 → Filled (J i) s.disk (c i)
  bits : ∀ b < sb.size, sb.inUse s.disk b = true ↔ b < sb.nmeta ∨ b ∈ total sb J s.disk + Y
  nodup : (total sb J s.disk + Y).Nodup
  range : ∀ b ∈ total sb J s.disk + Y, sb.nmeta ≤ b ∧ b < sb.size

section
variable {sb : Super} {w : Option ℕ} {I J : ℕ → Dinode} {Φ : ℕ → ℕ → Block} {c : ℕ → ℕ}
  {Y : Multiset ℕ} {s : State} {x : Dinode} {disk : ℕ → Block} {n : ℕ}

theorem card_nz (a : ℕ) : card (nz a) = if a = 0 then 0 else 1 := by
  unfold nz
  split <;> simp

theorem card_blocks {f : ℕ → ℕ} (h : ∀ k < MAXFILE, f k ≠ 0 ↔ k < n) (hn : n ≤ MAXFILE) :
    card (blocks f) = n := by
  have hset : {k ∈ range MAXFILE | f k ≠ 0} = range n := by
    ext k
    rw [Finset.mem_filter, mem_range, mem_range]
    exact ⟨fun hk => (h k hk.1).1 hk.2, fun hk => ⟨hk.trans_le hn, (h k (hk.trans_le hn)).2 hk⟩⟩
  have hone : ∀ k, card (nz (f k)) = if f k ≠ 0 then 1 else 0 := by
    intro k
    rw [card_nz]
    by_cases hk : f k = 0
    · rw [if_pos hk, if_neg (not_not.2 hk)]
    · rw [if_neg hk, if_pos hk]
  unfold blocks
  rw [card_sum, sum_congr rfl fun k _ => hone k, ← Finset.card_filter, hset, Finset.card_range]

theorem Filled.card_refs (h : Filled x disk n) : card (refs x disk) = blks n := by
  rw [refs, card_add, card_blocks h.slots h.le, card_nz, blks, Nat.add_comm]
  by_cases hx : NDIRECT < n
  · rw [if_pos hx, if_neg (h.indirect.2 hx)]
  · rw [if_neg hx, if_pos (not_not.1 (mt h.indirect.1 hx))]

theorem Core.card_total (h : Core sb w I J Φ c Y s) : card (total sb J s.disk) = used sb J c := by
  unfold total used
  rw [card_sum]
  refine sum_congr rfl fun i hi => ?_
  by_cases ht : (J i).type = 0
  · rw [if_pos ht, own_free ht, Multiset.card_zero]
  · rw [if_neg ht, own_of_ne ht, (h.filled i (Finset.mem_range.1 hi) ht).card_refs]

theorem Core.used_eq (h : Core sb w I J Φ c Y s) (hall : ∀ b < sb.size, sb.inUse s.disk b = true) :
    used sb J c + card Y = sb.nblocks := by
  have hset : (total sb J s.disk + Y).toFinset = Finset.Ico sb.nmeta sb.size := by
    ext b
    rw [Multiset.mem_toFinset, Finset.mem_Ico]
    refine ⟨h.range b, fun hb => ?_⟩
    exact ((h.bits b hb.2).1 (hall b hb.2)).resolve_left (not_lt.2 hb.1)
  have hcard := congrArg Finset.card hset
  have hadd := sb.nmeta_add
  rw [Multiset.toFinset_card_of_nodup h.nodup, Nat.card_Ico, card_add, h.card_total] at hcard
  omega

theorem Core.used_le (h : Core sb w I J Φ c Y s) : used sb J c + card Y ≤ sb.nblocks := by
  have hsub : (total sb J s.disk + Y).toFinset ⊆ Finset.Ico sb.nmeta sb.size := by
    intro b hb
    exact Finset.mem_Ico.2 (h.range b (Multiset.mem_toFinset.1 hb))
  have hcard := Finset.card_le_card hsub
  have hadd := sb.nmeta_add
  rw [Multiset.toFinset_card_of_nodup h.nodup, Nat.card_Ico, card_add, h.card_total] at hcard
  omega

theorem used_update {J : ℕ → Dinode} {w : ℕ} (hw : w < sb.ninodes) (x : Dinode) (n : ℕ) :
    used sb (update J w x) (update c w n) +
        (if (J w).type = 0 then 0 else blks (c w)) =
      used sb J c + if x.type = 0 then 0 else blks n := by
  have h := sum_update_mem (Finset.mem_range.2 hw) (fun i => (J i, c i))
    (fun y => if y.1.type = 0 then 0 else blks y.2) (x, n)
  unfold used
  rw [← h]
  congr 1
  refine sum_congr rfl fun i _ => ?_
  by_cases hi : i = w
  · subst hi
    simp only [update_self]
  · simp only [update_of_ne hi]

end

variable {sb : Super} {w : Option ℕ} {I I' J : ℕ → Dinode} {Φ : ℕ → ℕ → Block} {c : ℕ → ℕ}
  {Y Y' : Multiset ℕ} {s s' : State} {b : ℕ}

theorem Core.total_nodup (h : Core sb w I J Φ c Y s) : (total sb J s.disk).Nodup :=
  (Multiset.nodup_add.1 h.nodup).1

variable {disk : ℕ → Block}

theorem indirect_mem_total {i : ℕ} (hi : i < sb.ninodes) (ht : (J i).type ≠ 0)
    (hx : (J i).addrs NDIRECT ≠ 0) : (J i).addrs NDIRECT ∈ total sb J disk :=
  mem_total.2 ⟨i, hi, own_of_ne ht disk ▸ indirect_mem_refs hx⟩

theorem slot_mem_total {i k : ℕ} (hi : i < sb.ninodes) (ht : (J i).type ≠ 0) (hk : k < MAXFILE)
    (hx : slot (J i) disk k ≠ 0) : slot (J i) disk k ∈ total sb J disk :=
  mem_total.2 ⟨i, hi, own_of_ne ht disk ▸ slot_mem_refs hk hx⟩

theorem slot_past {x : Dinode} {k : ℕ} (hk : MAXFILE ≤ k) : slot x disk k = 0 := by
  have hle : NDIRECT ≤ MAXFILE := by decide
  rw [slot, if_neg (not_lt.2 (hle.trans hk)), if_neg fun h => not_lt.2 hk h.1]

theorem Core.change (h : Core sb w I J Φ c Y s)
    (hagree : ∀ b ∈ total sb J s.disk, s'.disk b = s.disk b)
    (hdisk : ∀ i < sb.ninodes, sb.dinode s'.disk i = I' i)
    (hsame : ∀ i < sb.ninodes, some i ≠ w → J i = I' i)
    (hcache : ∀ i < sb.ninodes, some i ≠ w → s'.valid i = true →
      s'.inode i = I' i ∧ (I' i).type ≠ 0)
    (hbits : ∀ b < sb.size,
      sb.inUse s'.disk b = true ↔ b < sb.nmeta ∨ b ∈ total sb J s.disk + Y')
    (hnodup : (total sb J s.disk + Y').Nodup)
    (hrange : ∀ b ∈ total sb J s.disk + Y', sb.nmeta ≤ b ∧ b < sb.size) :
    Core sb w I' J Φ c Y' s' := by
  have hslot : ∀ i < sb.ninodes, (J i).type ≠ 0 → slot (J i) s'.disk = slot (J i) s.disk :=
    fun i hi ht => slot_congr fun hx => hagree _ (indirect_mem_total hi ht hx)
  have htotal : total sb J s'.disk = total sb J s.disk :=
    total_congr fun i hi => own_congr fun ht hx => hagree _ (indirect_mem_total hi ht hx)
  refine ⟨hdisk, hsame, hcache, fun i hi ht k => ?_, fun i hi ht => ?_, ?_, ?_, ?_⟩
  · rw [← h.files i hi ht k, blockOf, blockOf, hslot i hi ht]
    by_cases hx : slot (J i) s.disk k = 0
    · rw [if_pos hx, if_pos hx]
    · have hk : k < MAXFILE := by
        by_contra hk
        exact hx (slot_past (not_lt.1 hk))
      rw [if_neg hx, if_neg hx, hagree _ (slot_mem_total hi ht hk hx)]
  · obtain ⟨h1, h2, h3⟩ := h.filled i hi ht
    exact ⟨hslot i hi ht ▸ h1, h2, h3⟩
  · rwa [htotal]
  · rwa [htotal]
  · rwa [htotal]

theorem Core.take (h : Core sb w I J Φ c Y s) (hb : b < sb.size)
    (hfree : sb.inUse s.disk b = false) : Core sb w I J Φ c (b ::ₘ Y) (s.take sb b) := by
  have hnot : ¬(b < sb.nmeta ∨ b ∈ total sb J s.disk + Y) := fun hc =>
    Bool.false_ne_true (hfree.symm.trans ((h.bits b hb).2 hc))
  rw [not_or, not_lt] at hnot
  have hbb := sb.bblock_lt hb
  have hmeta := sb.bmapstart_le
  refine h.change (fun a ha => ?_) (fun i hi => ?_) h.same h.cache (fun a ha => ?_) ?_ ?_
  · have hadata := h.range a (Multiset.mem_add.2 (.inl ha))
    have hab : a ≠ b := by
      rintro rfl
      exact hnot.2 (Multiset.mem_add.2 (.inl ha))
    show update (update s.disk _ _) b _ a = s.disk a
    rw [update_of_ne hab, update_of_ne (by omega)]
  · rw [← h.disk i hi]
    exact (Super.dinode_update hi (hmeta.trans hnot.1) _).trans
      (Super.dinode_update hi Super.bmapstart_le_bblock _)
  · have hin : sb.inUse (s.take sb b).disk a = (decide (a = b) || sb.inUse s.disk a) :=
      (Super.inUse_update ha (.inr hnot.1) _).trans Super.inUse_setBit
    rw [hin, Bool.or_eq_true, decide_eq_true_eq, h.bits a ha, add_cons, mem_cons]
    tauto
  · rw [add_cons, Multiset.nodup_cons]
    exact ⟨hnot.2, h.nodup⟩
  · intro a ha
    rw [add_cons, mem_cons] at ha
    rcases ha with rfl | ha
    · exact ⟨hnot.1, hb⟩
    · exact h.range a ha

theorem Core.take_zeros : (s.take sb b).disk b = zeros := update_self ..

end Xv6.Fs
