import Xv6.Fs.Alloc

namespace Xv6.Fs

open Lib Function
open Multiset (card mem_cons_self singleton_add)

structure Work (sb : Super) (w : ℕ) (I J : ℕ → Dinode) (Φ : ℕ → ℕ → Block) (c : ℕ → ℕ)
    (Y : Multiset ℕ) (s : State) : Prop where
  core : Core sb (some w) I J Φ c Y s
  lt : w < sb.ninodes
  valid : s.valid w = true
  mem : s.inode w = J w
  type : (J w).type ≠ 0
  fits : (J w).Fits

section
variable {sb : Super} {w : ℕ} {I J : ℕ → Dinode} {Φ : ℕ → ℕ → Block} {c : ℕ → ℕ}
  {Y Y' : Multiset ℕ} {s s' : State} {x : Dinode} {φ : ℕ → Block} {n : ℕ}

structure Apart (sb : Super) (w : ℕ) (J : ℕ → Dinode) (s s' : State) : Prop where
  base : ∀ b < sb.nmeta, s'.disk b = s.disk b
  others : ∀ i < sb.ninodes, i ≠ w → ∀ b ∈ own (J i) s.disk, s'.disk b = s.disk b
  inode : ∀ i, i ≠ w → s'.inode i = s.inode i
  valid : ∀ i, i ≠ w → s'.valid i = s.valid i

section
variable (h : Apart sb w J s s')
include h

variable {i : ℕ}

theorem Apart.dinode (hi : i < sb.ninodes) : sb.dinode s'.disk i = sb.dinode s.disk i := by
  rw [Super.dinode, Super.dinode, h.base _ (Super.iblock_lt_nmeta hi)]

theorem Apart.inUse {b : ℕ} (hb : b < sb.size) : sb.inUse s'.disk b = sb.inUse s.disk b := by
  rw [Super.inUse, Super.inUse, h.base _ (Super.bblock_lt hb)]

theorem Apart.slot (hi : i < sb.ninodes) (hiw : i ≠ w)
    (ht : (J i).type ≠ 0) : slot (J i) s'.disk = slot (J i) s.disk :=
  slot_congr fun hx => h.others i hi hiw _ (own_of_ne ht s.disk ▸ indirect_mem_refs hx)

theorem Apart.blockOf (hi : i < sb.ninodes) (hiw : i ≠ w)
    (ht : (J i).type ≠ 0) (k : ℕ) : blockOf (J i) s'.disk k = blockOf (J i) s.disk k := by
  rw [Fs.blockOf, Fs.blockOf, h.slot hi hiw ht]
  by_cases hx : Fs.slot (J i) s.disk k = 0
  · rw [if_pos hx, if_pos hx]
  have hk : k < MAXFILE := by
    by_contra hk
    exact hx (slot_past (not_lt.1 hk))
  rw [if_neg hx, if_neg hx]
  exact h.others i hi hiw _ (own_of_ne ht s.disk ▸ slot_mem_refs hk hx)

theorem Apart.rest :
    total sb (update J w (.new 0)) s'.disk =
      total sb (update J w (.new 0)) s.disk := by
  refine total_congr fun i hi => own_congr fun ht hx => ?_
  by_cases hiw : i = w
  · rw [hiw, update_self] at ht
    exact absurd rfl ht
  · rw [update_of_ne hiw] at ht hx ⊢
    exact h.others i hi hiw _ (own_of_ne ht s.disk ▸ indirect_mem_refs hx)

end

theorem Core.replace (h : Core sb (some w) I J Φ c Y s) (hw : w < sb.ninodes)
    (hap : Apart sb w J s s')
    (hfiles : x.type ≠ 0 → ∀ k, blockOf x s'.disk k = φ k)
    (hfilled : x.type ≠ 0 → Filled x s'.disk n)
    (hown : own x s'.disk + Y' = own (J w) s.disk + Y) :
    Core sb (some w) I (update J w x) (update Φ w φ) (update c w n)
      Y' s' := by
  have htotal : total sb (update J w x) s'.disk + Y' = total sb J s.disk + Y := by
    rw [total_eq_add (J := update J w x) hw, update_idem, update_self,
      total_eq_add (J := J) hw, hap.rest, add_right_comm, hown, add_right_comm]
  have hne : ∀ i : ℕ, some i ≠ some w → i ≠ w := fun i hi hiw => hi (hiw ▸ rfl)
  refine ⟨fun i hi => ?_, fun i hi hiw => ?_, fun i hi hiw hv => ?_, fun i hi => ?_,
    fun i hi => ?_, fun b hb => ?_, htotal ▸ h.nodup, htotal ▸ h.range⟩
  · rw [hap.dinode hi, h.disk i hi]
  · rw [update_of_ne (hne i hiw)]
    exact h.same i hi hiw
  · rw [hap.valid i (hne i hiw)] at hv
    rw [hap.inode i (hne i hiw)]
    exact h.cache i hi hiw hv
  · by_cases hiw : i = w
    · subst hiw
      rw [update_self, update_self]
      exact hfiles
    · rw [update_of_ne hiw, update_of_ne hiw]
      intro ht k
      rw [hap.blockOf hi hiw ht, h.files i hi ht k]
  · by_cases hiw : i = w
    · subst hiw
      rw [update_self, update_self]
      exact hfilled
    · rw [update_of_ne hiw, update_of_ne hiw]
      intro ht
      obtain ⟨h1, h2, h3⟩ := h.filled i hi ht
      exact ⟨hap.slot hi hiw ht ▸ h1, h2, h3⟩
  · rw [htotal, hap.inUse hb]
    exact h.bits b hb

theorem Apart.refl (s : State) : Apart sb w J s s :=
  ⟨fun _ _ => rfl, fun _ _ _ _ _ => rfl, fun _ _ => rfl, fun _ _ => rfl⟩

theorem Core.setInode (h : Core sb (some w) I J Φ c Y s) (x : Dinode) :
    Core sb (some w) I J Φ c Y (s.setInode w x) :=
  h.change (fun _ _ => rfl) h.disk h.same (fun i hi hiw hv => by
    have hne : i ≠ w := fun hc => hiw (hc ▸ rfl)
    rw [show (s.setInode w x).inode i = s.inode i from update_of_ne hne _ _]
    exact h.cache i hi hiw hv) h.bits h.nodup h.range

theorem Apart.write {b : ℕ} (f : Block → Block) (hb : sb.nmeta ≤ b)
    (hown : ∀ i < sb.ninodes, i ≠ w → b ∉ own (J i) s.disk) : Apart sb w J s (s.write b f) := by
  refine ⟨fun a ha => update_of_ne (by omega) _ _, fun i hi hiw a ha => ?_,
    fun _ _ => rfl, fun _ _ => rfl⟩
  refine update_of_ne ?_ _ _
  rintro rfl
  exact hown i hi hiw ha

end

section
variable {sb : Super} {w : ℕ} {I J : ℕ → Dinode} {Φ : ℕ → ℕ → Block} {c : ℕ → ℕ}
  {Y : Multiset ℕ} {s0 : State} {k bn : ℕ}

theorem addrOf_present (h : s0.inode w = J w) (hk : (J w).addrs k ≠ 0) (E : Panic → State → Prop) :
    Triple (· = s0) (addrOf sb w k) (fun a s => a = (J w).addrs k ∧ s = s0) E := by
  unfold addrOf
  refine .bind (R := fun a s => a = (J w).addrs k ∧ s = s0)
    (.read fun s hs => ⟨by rw [hs, h], hs⟩) fun a => .of_and fun ha => ?_
  subst ha
  rw [if_neg hk]
  exact .pure fun s hs => ⟨rfl, hs⟩

theorem bmap_present (h : Work sb w I J Φ c Y s0) (hbn : bn < c w) :
    Triple (· = s0) (bmap sb w bn) (fun a s => a = slot (J w) s0.disk bn ∧ s = s0)
      Never := by
  have hfill := h.core.filled w h.lt h.type
  have hmax : bn < MAXFILE := hbn.trans_le hfill.le
  have hslot := (hfill.slots bn hmax).2 hbn
  unfold bmap
  refine .ite (fun hd => ?_) fun hd => .ite (fun _ => ?_) fun hout => ?_
  · rw [slot_of_lt hd] at hslot ⊢
    exact addrOf_present h.mem hslot _
  · have hind : (J w).addrs NDIRECT ≠ 0 := hfill.indirect.2 ((not_lt.1 hd).trans_lt hbn)
    rw [slot_of_le (not_lt.1 hd) hmax hind] at hslot ⊢
    refine .bind (addrOf_present h.mem hind _) fun ind => .of_and fun hi => ?_
    subst hi
    refine .bind (R := fun a s => a = word (s0.disk ((J w).addrs NDIRECT))
      (bn - NDIRECT) ∧ s = s0) (.read fun s hs => ⟨by rw [hs], hs⟩) fun a => .of_and fun ha => ?_
    subst ha
    rw [if_neg hslot]
    exact .pure fun s hs => ⟨rfl, hs⟩
  · exact absurd (Nat.sub_lt_left_of_lt_add (not_lt.1 hd) hmax) hout

end

structure Logs (w : ℕ) (D : Finset ℕ) (m : ℕ) (s₀ s : State) : Prop where
  blocks : ∃ (l : List ℕ) (B : Finset ℕ), s.logged = l ++ s₀.logged ∧ B.card ≤ m ∧
    ∀ b ∈ l, b ∈ D ∨ b ∈ B ∨ (s.inode w).addrs NDIRECT ≠ 0 ∧ b = (s.inode w).addrs NDIRECT
  keeps : (s₀.inode w).addrs NDIRECT ≠ 0 →
    (s.inode w).addrs NDIRECT = (s₀.inode w).addrs NDIRECT

section
variable {w m m' : ℕ} {D D' : Finset ℕ} {s0 s s' : State}

theorem Logs.refl (w : ℕ) (D : Finset ℕ) (m : ℕ) (s : State) : Logs w D m s s :=
  ⟨⟨[], ∅, rfl, Nat.zero_le m, fun _ hb => absurd hb List.not_mem_nil⟩, fun _ => rfl⟩

variable (h : Logs w D m s0 s)
include h

theorem Logs.trans (h' : Logs w D' m' s s') : Logs w (D ∪ D') (m + m') s0 s' := by
  obtain ⟨l, B, hl, hB, hmem⟩ := h.blocks
  obtain ⟨l', B', hl', hB', hmem'⟩ := h'.blocks
  refine ⟨⟨l' ++ l, B ∪ B', by rw [hl', hl, List.append_assoc],
    (Finset.card_union_le B B').trans (Nat.add_le_add hB hB'), fun b hb => ?_⟩, fun hne => ?_⟩
  · rw [Finset.mem_union, Finset.mem_union]
    rcases List.mem_append.1 hb with hb | hb
    · rcases hmem' b hb with hb | hb | hb
      · exact .inl (.inr hb)
      · exact .inr (.inl (.inr hb))
      · exact .inr (.inr hb)
    rcases hmem b hb with hb | hb | ⟨hne, hb⟩
    · exact .inl (.inl hb)
    · exact .inr (.inl (.inl hb))
    · rw [h'.keeps hne]
      exact .inr (.inr ⟨hne, hb⟩)
  · have hkeep := h.keeps hne
    rw [← hkeep] at hne
    rw [h'.keeps hne, hkeep]

theorem Logs.mono (hD : D ⊆ D') (hm : m ≤ m') : Logs w D' m' s0 s := by
  obtain ⟨l, B, hl, hB, hmem⟩ := h.blocks
  exact ⟨⟨l, B, hl, hB.trans hm, fun b hb => (hmem b hb).imp_left fun hb => hD hb⟩, h.keeps⟩

theorem Logs.write {b : ℕ} (f : Block → Block)
    (hb : b ∈ D ∨ (s.inode w).addrs NDIRECT ≠ 0 ∧ b = (s.inode w).addrs NDIRECT) :
    Logs w D m s0 (s.write b f) := by
  obtain ⟨l, B, hl, hB, hmem⟩ := h.blocks
  refine ⟨⟨b :: l, B, by rw [List.cons_append, ← hl]; rfl, hB, fun a ha => ?_⟩, h.keeps⟩
  rcases List.mem_cons.1 ha with rfl | ha
  · exact hb.imp_right .inr
  · exact hmem a ha

theorem Logs.take {sb : Super} {a : ℕ} : Logs w (insert a D) (m + 1) s0 (s.take sb a) := by
  obtain ⟨l, B, hl, hB, hmem⟩ := h.blocks
  refine ⟨⟨a :: sb.bblock a :: l, insert (sb.bblock a) B, ?_,
    (Finset.card_insert_le _ _).trans (Nat.succ_le_succ hB), fun b hb => ?_⟩, h.keeps⟩
  · rw [List.cons_append, List.cons_append, ← hl]
    rfl
  rw [Finset.mem_insert, Finset.mem_insert]
  rcases List.mem_cons.1 hb with hb | hb
  · exact .inl (.inl hb)
  · rcases List.mem_cons.1 hb with hb | hb
    · exact .inr (.inl (.inl hb))
    · exact (hmem b hb).imp .inr fun h => h.imp_left .inr

theorem Logs.setInode {x : Dinode}
    (hx : (s.inode w).addrs NDIRECT ≠ 0 → x.addrs NDIRECT = (s.inode w).addrs NDIRECT)
    (hD : ∀ b ∈ D, b ∈ D' ∨ x.addrs NDIRECT ≠ 0 ∧ b = x.addrs NDIRECT) :
    Logs w D' m s0 (s.setInode w x) := by
  have hself : (s.setInode w x).inode w = x := update_self ..
  obtain ⟨l, B, hl, hB, hmem⟩ := h.blocks
  refine ⟨⟨l, B, hl, hB, fun b hb => ?_⟩, fun hne => ?_⟩
  · rw [hself]
    rcases hmem b hb with hb | hb | ⟨hne, hb⟩
    · exact (hD b hb).imp_right .inr
    · exact .inr (.inl hb)
    · rw [hx hne]
      exact .inr (.inr ⟨hne, hb⟩)
  · have hkeep := h.keeps hne
    rw [hself, hx (hkeep ▸ hne), hkeep]

end

variable {sb : Super} {w : ℕ} {I J : ℕ → Dinode} {Φ : ℕ → ℕ → Block} {c : ℕ → ℕ}
  {Y : Multiset ℕ} {s s0 : State} {k bn a : ℕ}

theorem Core.balloc {v : Option ℕ} (h : Core sb v I J Φ c Y s0) :
    Triple (· = s0) (balloc sb)
      (fun a s => s = s0.take sb a ∧ sb.nmeta ≤ a ∧ a < sb.size ∧
        a ∉ total sb J s0.disk + Y ∧ Core sb v I J Φ c (a ::ₘ Y) s)
      fun e s => e = .outOfBlocks ∧ used sb J c + card Y = sb.nblocks ∧ s = s0 := by
  refine balloc_spec.mono (fun a s ⟨hlt, hfree, _, hs⟩ => ?_)
    fun e s ⟨he, hs, hall⟩ => ⟨he, h.used_eq hall, hs⟩
  subst hs
  have hcore := h.take hlt hfree
  have hnd := hcore.nodup
  have hrange := hcore.range a (Multiset.mem_add.2 (.inr (mem_cons_self ..)))
  refine ⟨rfl, hrange.1, hlt, fun hmem => ?_, hcore⟩
  have hbit := (h.bits a hlt).2 (.inr hmem)
  exact Bool.false_ne_true (hfree.symm.trans hbit)

theorem take_disk {b : ℕ} (ha : a < sb.size) (hb : sb.nmeta ≤ b) (hab : b ≠ a) :
    (s.take sb a).disk b = s.disk b := by
  have := sb.bblock_lt ha
  show update (update s.disk _ _) a _ b = s.disk b
  rw [update_of_ne hab, update_of_ne (by omega)]

theorem addrOf_absent (h : Core sb (some w) I J Φ c Y s0) (hmem : s0.inode w = J w)
    (hk : (J w).addrs k = 0) :
    Triple (· = s0) (addrOf sb w k)
      (fun a s => s = (s0.take sb a).setInode w ((J w).setAddr k a) ∧ sb.nmeta ≤ a ∧
        a < sb.size ∧ a ∉ total sb J s0.disk + Y ∧ Core sb (some w) I J Φ c (a ::ₘ Y) s)
      fun e s => e = .outOfBlocks ∧ used sb J c + card Y = sb.nblocks ∧ s = s0 := by
  unfold addrOf
  refine .bind (R := fun a s => a = (J w).addrs k ∧ s = s0)
    (.read fun s hs => ⟨by rw [hs, hmem], hs⟩) fun a => .of_and fun ha => ?_
  subst ha
  rw [if_pos hk]
  refine .bind h.balloc fun a => ?_
  refine .bind (R := fun _ s => s = (s0.take sb a).setInode w ((J w).setAddr k a) ∧
    sb.nmeta ≤ a ∧ a < sb.size ∧ a ∉ total sb J s0.disk + Y ∧ Core sb (some w) I J Φ c (a ::ₘ Y) s)
    (.modify fun s ⟨hs, hlo, hhi, hnew, hcore⟩ => ?_) fun _ => .pure fun s hs => hs
  have hin : s.inode w = J w := by
    rw [hs]
    exact hmem
  refine ⟨by rw [hin, hs], hlo, hhi, hnew, ?_⟩
  rw [hin]
  exact hcore.setInode _

theorem Filled.succ {x y : Dinode} {disk disk' : ℕ → Block} {n : ℕ} (h : Filled x disk n)
    (hn : n < MAXFILE) (ha : a ≠ 0) (hslot : slot y disk' = update (slot x disk) n a)
    (hind : y.addrs NDIRECT ≠ 0 ↔ NDIRECT < n + 1) : Filled y disk' (n + 1) := by
  refine ⟨fun k hk => ?_, hind, hn⟩
  rw [hslot]
  by_cases hkn : k = n
  · subst hkn
    rw [update_self]
    exact ⟨fun _ => Nat.lt_succ_self k, fun _ => ha⟩
  · rw [update_of_ne hkn, h.slots k hk]
    omega

theorem blockOf_new {x y : Dinode} {disk disk' : ℕ → Block} {n : ℕ}
    (hslot : slot y disk' = update (slot x disk) n a) (hn : slot x disk n = 0)
    (ha : disk' a = zeros) (hsame : ∀ j, slot x disk j ≠ 0 → disk' (slot x disk j) =
      disk (slot x disk j)) (j : ℕ) : blockOf y disk' j = blockOf x disk j := by
  rw [blockOf, blockOf, hslot]
  by_cases hj : j = n
  · subst hj
    rw [update_self, if_pos hn, ha]
    exact ite_self _
  · rw [update_of_ne hj]
    by_cases hz : slot x disk j = 0
    · rw [if_pos hz, if_pos hz]
    · rw [if_neg hz, if_neg hz, hsame j hz]

theorem used_grow (hw : w < sb.ninodes) (ht : (J w).type ≠ 0) (n : ℕ) :
    used sb J (update c w n) + blks (c w) = used sb J c + blks n := by
  have h := used_update (c := c) (J := J) hw (J w) n
  rwa [update_eq_self, if_neg ht, if_neg ht] at h

theorem Work.enter {x : Dinode} {s' : State} (h : Work sb w I J Φ c Y s0)
    (hcore : Core sb (some w) I (update J w x) Φ (update c w (c w + 1)) Y s')
    (hvalid : s'.valid w = true) (hmem : s'.inode w = x) (hx : x.type = (J w).type)
    (hfits : x.Fits) : Work sb w I (update J w x) Φ (update c w (c w + 1)) Y s' where
  core := hcore
  lt := h.lt
  valid := hvalid
  mem := by rw [update_self, hmem]
  type := by
    rw [update_self, hx]
    exact h.type
  fits := by
    rw [update_self]
    exact hfits

theorem Dinode.Fits.setAddr {x : Dinode} (h : x.Fits) (hk : k ≤ NDIRECT) (ha : a < 2 ^ 32) :
    (x.setAddr k a).Fits where
  type := h.type
  major := h.major
  minor := h.minor
  nlink := h.nlink
  size := h.size
  addrs j := by
    by_cases hj : j = k
    · rw [hj, setAddr_self]
      exact ha
    · rw [setAddr_of_ne x a hj]
      exact h.addrs j
  past j hj := by
    rw [setAddr_of_ne x a (by omega)]
    exact h.past j hj

variable (h : Work sb w I J Φ c Y s0)
include h

theorem addrOf_next (hc : c w < NDIRECT) :
    Triple (· = s0) (addrOf sb w (c w))
      (fun a s => ∃ x, x = (J w).setAddr (c w) a ∧
        Work sb w I (update J w x) Φ (update c w (c w + 1)) Y s ∧
        a = slot x s.disk (c w) ∧ Logs w {a} 1 s0 s)
      fun e s => e = .outOfBlocks ∧
        sb.nblocks < used sb J (update c w (c w + 1)) + card Y ∧ s = s0 := by
  have hfill := h.core.filled w h.lt h.type
  have hmax : c w < MAXFILE := hc.trans (by decide)
  have hz : slot (J w) s0.disk (c w) = 0 := by
    by_contra hne
    exact lt_irrefl _ ((hfill.slots (c w) hmax).1 hne)
  have hk : (J w).addrs (c w) = 0 := by rwa [slot_of_lt hc] at hz
  refine (addrOf_absent h.core h.mem hk).mono (fun a s ⟨hs, hlo, hhi, hnew, hcore⟩ => ?_)
    fun e _ ⟨he, hused, hs⟩ => ⟨he, ?_, hs⟩
  · have ha : a ≠ 0 := fun h0 => absurd hlo (not_le.2 (h0 ▸ sb.pos_nmeta))
    have hz' : slot (J w) s.disk (c w) = 0 := by rw [slot_of_lt hc, hk]
    have hslot : slot ((J w).setAddr (c w) a) s.disk =
        update (slot (J w) s.disk) (c w) a := slot_setAddr hc
    have hzero : s.disk a = zeros := by
      rw [hs]
      exact Core.take_zeros
    refine ⟨_, rfl, h.enter ?_ ?_ ?_ rfl (h.fits.setAddr hc.le ?_), ?_, ?_⟩
    · rw [← update_eq_self w Φ]
      refine hcore.replace h.lt (.refl s) (fun _ j => ?_) (fun _ => ?_) ?_
      · rw [blockOf_new hslot hz' hzero (fun _ _ => rfl), hcore.files w h.lt h.type]
      · refine (hcore.filled w h.lt h.type).succ hmax ha hslot ?_
        rw [setAddr_of_ne _ _ (by omega), hfill.indirect]
        omega
      · rw [own_of_ne (x := (J w).setAddr (c w) a) h.type, own_of_ne h.type, refs, refs, hslot,
          blocks_update hmax hz', setAddr_of_ne _ _ (by omega), nz, nz, if_neg ha,
          ← singleton_add a Y]
        ac_rfl
    · rw [hs]
      exact h.valid
    · rw [hs]
      exact update_self ..
    · have := sb.size_lt
      omega
    · rw [hslot, update_self]
    · rw [hs]
      refine ((Logs.refl w ∅ 0 s0).take).setInode (fun _ => ?_) fun b hb => .inl hb
      rw [setAddr_of_ne _ _ (by omega), ← h.mem]
      rfl
  · have hu := used_grow (c := c) h.lt h.type (c w + 1)
    have hb : blks (c w) < blks (c w + 1) := by
      rw [blks, blks, if_neg (by omega), if_neg (by omega)]
      omega
    omega

theorem entryOf_next (hc : NDIRECT < c w) (hmax : c w < MAXFILE) :
    Triple (· = s0) (entryOf sb ((J w).addrs NDIRECT) (c w - NDIRECT))
      (fun a s => Work sb w I J Φ (update c w (c w + 1)) Y s ∧
        a = slot (J w) s.disk (c w) ∧ Logs w {a} 1 s0 s)
      fun e s => e = .outOfBlocks ∧
        sb.nblocks < used sb J (update c w (c w + 1)) + card Y ∧ s = s0 := by
  have hfill := h.core.filled w h.lt h.type
  have hind : (J w).addrs NDIRECT ≠ 0 := hfill.indirect.2 hc
  have hz : slot (J w) s0.disk (c w) = 0 := by
    by_contra hne
    exact lt_irrefl _ ((hfill.slots (c w) hmax).1 hne)
  rw [slot_of_le hc.le hmax hind] at hz
  unfold entryOf
  refine .bind (R := fun a s => a = word (s0.disk ((J w).addrs NDIRECT))
    (c w - NDIRECT) ∧ s = s0) (.read fun s hs => ⟨by rw [hs], hs⟩) fun a => .of_and fun ha => ?_
  subst ha
  rw [if_pos hz]
  refine .bind (h.core.balloc.err fun e _ he => ⟨he.1, ?_, he.2.2⟩) fun a => ?_
  · have hused := he.2.1
    have hu := used_grow (c := c) h.lt h.type (c w + 1)
    have hb : blks (c w) < blks (c w + 1) := by
      rw [blks, blks, if_pos hc, if_pos (by omega)]
      omega
    omega
  · refine .bind (R := fun _ s => Work sb w I J Φ (update c w (c w + 1)) Y s ∧
      a = slot (J w) s.disk (c w) ∧ Logs w {a} 1 s0 s) (.modify fun s hr => ?_)
      fun _ => .pure fun s hs => hs
    obtain ⟨hs, hlo, hhi, hnew, hcore⟩ := hr
    have ha : a ≠ 0 := fun h0 => absurd hlo (not_le.2 (h0 ▸ sb.pos_nmeta))
    have hnd := hcore.total_nodup
    have hmem : (J w).addrs NDIRECT ∈ total sb J s.disk := indirect_mem_total h.lt h.type hind
    have hrange := hcore.range _ (Multiset.mem_add.2 (.inl hmem))
    have hna : a ≠ (J w).addrs NDIRECT := by
      rintro rfl
      exact hnew (Multiset.mem_add.2 (.inl (indirect_mem_total h.lt h.type hind)))
    have hslot : slot (J w) (s.write ((J w).addrs NDIRECT) (setWord · (c w - NDIRECT) a)).disk =
        update (slot (J w) s.disk) (c w) a := by
      have hlt : c w - NDIRECT < NINDIRECT := Nat.sub_lt_left_of_lt_add hc.le hmax
      have hset := slot_setWord s.disk hind hlt (hhi.trans (sb.size_lt.trans (by decide)))
      rwa [Nat.add_sub_cancel' hc.le] at hset
    have hz' : slot (J w) s.disk (c w) = 0 := by
      by_contra hne
      exact lt_irrefl _ (((hcore.filled w h.lt h.type).slots (c w) hmax).1 hne)
    refine ⟨⟨?_, h.lt, ?_, ?_, h.type, h.fits⟩, ?_, ?_⟩
    · rw [← update_eq_self w Φ]
      have hrep : Core sb (some w) I (update J w (J w)) (update Φ w (Φ w)) (update c w (c w + 1)) Y
          (s.write ((J w).addrs NDIRECT) (setWord · (c w - NDIRECT) a)) := by
        refine hcore.replace h.lt (.write _ hrange.1 fun i hi hiw => ?_) (fun _ j => ?_)
          (fun _ => ?_) ?_
        · exact not_mem_own hnd h.lt hi hiw (own_of_ne h.type s.disk ▸ indirect_mem_refs hind)
        · rw [blockOf_new hslot hz' ?_ fun j hj => ?_, hcore.files w h.lt h.type]
          · refine (update_of_ne hna _ _).trans ?_
            rw [hs]
            exact Core.take_zeros
          refine update_of_ne (.symm ?_) _ _
          have hjmax : j < MAXFILE := by
            by_contra hjmax
            exact hj (slot_past (not_lt.1 hjmax))
          exact slot_ne_indirect hnd h.lt h.lt h.type h.type hjmax hj hind
        · refine (hcore.filled w h.lt h.type).succ hmax ha hslot ?_
          rw [hfill.indirect]
          omega
        · have hnza : nz a = {a} := if_neg ha
          rw [own_of_ne h.type, own_of_ne h.type, refs, refs, hslot, blocks_update hmax hz', hnza,
            ← singleton_add a Y]
          ac_rfl
      rwa [update_eq_self w J] at hrep
    · rw [hs]
      exact h.valid
    · rw [hs]
      exact h.mem
    · rw [hslot, update_self]
    · rw [hs]
      refine ((Logs.refl w ∅ 0 s0).take).write _ (.inr ?_)
      rw [show (s0.take sb a).inode w = J w from h.mem]
      exact ⟨hind, rfl⟩

theorem indirect_next (hc : c w = NDIRECT) :
    Triple (· = s0) (addrOf sb w NDIRECT >>= fun ind => entryOf sb ind 0)
      (fun a s => ∃ x, (∃ ind, x = (J w).setAddr NDIRECT ind) ∧
        Work sb w I (update J w x) Φ (update c w (c w + 1)) Y s ∧
        a = slot x s.disk (c w) ∧ Logs w {a} 2 s0 s)
      fun e s => e = .outOfBlocks ∧
        sb.nblocks < used sb J (update c w (c w + 1)) + card Y ∧
        Logs w ∅ 2 s0 s := by
  have hfill := h.core.filled w h.lt h.type
  have hmax : NDIRECT < MAXFILE := by decide
  have hk : (J w).addrs NDIRECT = 0 := by
    by_contra hne
    exact absurd (hfill.indirect.1 hne) (by omega)
  have hu := used_grow (c := c) h.lt h.type (c w + 1)
  have hb : blks (c w) + 2 = blks (c w + 1) := by
    rw [blks, blks, if_neg (by omega), if_pos (by omega)]
  refine .bind ((addrOf_absent h.core h.mem hk).err fun e s he => ⟨he.1, ?_,
    he.2.2 ▸ Logs.refl w ∅ 2 s0⟩)
    fun ind => .of_state fun s1 hr1 => ?_
  · have hused := he.2.1
    omega
  obtain ⟨hs1, hilo, hihi, hinew, hcore1⟩ := hr1
  have hzero1 : s1.disk ind = zeros := by
    rw [hs1]
    exact Core.take_zeros
  have hi0 : ind ≠ 0 := fun h0 => absurd hilo (not_le.2 (h0 ▸ sb.pos_nmeta))
  have hind1 : (s1.inode w).addrs NDIRECT = ind := by
    rw [hs1, show ((s0.take sb ind).setInode w ((J w).setAddr NDIRECT ind)).inode w =
      (J w).setAddr NDIRECT ind from update_self .., setAddr_self]
  have hlogs1 : Logs w ∅ 1 s0 s1 := by
    rw [hs1]
    refine ((Logs.refl w ∅ 0 s0).take).setInode (fun hne => ?_) fun b hb => ?_
    · refine absurd ?_ hne
      rw [show (s0.take sb ind).inode w = J w from h.mem, hk]
    · rw [setAddr_self]
      exact .inr ⟨hi0, by simpa using hb⟩
  unfold entryOf
  refine .bind (R := fun a s => a = 0 ∧ s = s1)
    (.read fun s hs => ⟨by rw [hs, hzero1, word_zeros], hs⟩) fun a => .of_and fun ha => ?_
  subst ha
  rw [if_pos rfl]
  refine .bind (hcore1.balloc.err fun e _ he => ⟨he.1, ?_,
    he.2.2 ▸ hlogs1.mono subset_rfl (by omega)⟩) fun a => ?_
  · have hused := he.2.1
    rw [Multiset.card_cons] at hused
    omega
  refine .bind (R := fun _ s => ∃ x, (∃ ind, x = (J w).setAddr NDIRECT ind) ∧
    Work sb w I (update J w x) Φ (update c w (c w + 1)) Y s ∧
    a = slot x s.disk (c w) ∧ Logs w {a} 2 s0 s) (.modify fun s hr => ?_)
    fun _ => .pure fun s hs => hs
  obtain ⟨hs, hlo, hhi, hnew, hcore⟩ := hr
  have ha : a ≠ 0 := fun h0 => absurd hlo (not_le.2 (h0 ▸ sb.pos_nmeta))
  have hna : a ≠ ind := by
    rintro rfl
    exact hnew (Multiset.mem_add.2 (.inr (mem_cons_self ..)))
  have hzero : s.disk ind = zeros := by
    rw [hs, take_disk hhi hilo (.symm hna), hzero1]
  have hzeroa : s.disk a = zeros := by
    rw [hs]
    exact Core.take_zeros
  have hfree : ind ∉ total sb J s.disk := by
    intro hmem
    refine Multiset.disjoint_left.1 (Multiset.nodup_add.1 hcore.nodup).2.2 hmem ?_
    exact Multiset.mem_cons_of_mem (mem_cons_self ..)
  have hz : slot (J w) s.disk (c w) = 0 := by
    rw [hc]
    exact slot_of_not le_rfl hk
  have hslot : slot ((J w).setAddr NDIRECT ind) (s.write ind (setWord · 0 a)).disk =
      update (slot (J w) s.disk) (c w) a := by
    have hset := slot_setWord (x := (J w).setAddr NDIRECT ind) (k := 0) (a := a) s.disk
      (by rwa [setAddr_self]) (by decide) (hhi.trans (sb.size_lt.trans (by decide)))
    rw [setAddr_self, slot_setIndirect hk hzero, Nat.add_zero] at hset
    rw [hc]
    exact hset
  refine ⟨_, ⟨ind, rfl⟩, h.enter ?_ ?_ ?_ rfl (h.fits.setAddr le_rfl ?_), ?_, ?_⟩
  · rw [← update_eq_self w Φ]
    refine hcore.replace h.lt (.write _ hilo fun i hi _ hmem => ?_) (fun _ j => ?_) (fun _ => ?_) ?_
    · exact hfree (mem_total.2 ⟨i, hi, hmem⟩)
    · rw [blockOf_new hslot hz ?_ fun j hj => ?_, hcore.files w h.lt h.type]
      · exact (update_of_ne hna _ _).trans hzeroa
      refine update_of_ne ?_ _ _
      have hjmax : j < MAXFILE := by
        by_contra hjmax
        exact hj (slot_past (not_lt.1 hjmax))
      intro heq
      exact hfree (heq ▸ slot_mem_total h.lt h.type hjmax hj)
    · refine (hcore.filled w h.lt h.type).succ (by omega) ha hslot ?_
      rw [setAddr_self, hc]
      exact ⟨fun _ => Nat.lt_succ_self _, fun _ => hi0⟩
    · rw [own_of_ne (x := (J w).setAddr NDIRECT ind) h.type, own_of_ne h.type, refs, refs, hslot,
        blocks_update (by omega) hz, setAddr_self, hk, nz, nz, nz, if_neg ha, if_neg hi0,
        if_pos rfl, ← singleton_add a, ← singleton_add ind Y, zero_add]
      ac_rfl
  · rw [hs, hs1]
    exact h.valid
  · rw [hs, hs1]
    exact update_self ..
  · exact hihi.trans (sb.size_lt.trans (by decide))
  · rw [hslot, update_self]
  · rw [hs]
    refine (hlogs1.take).write _ (.inr ?_)
    rw [show (s1.take sb a).inode w = s1.inode w from rfl, hind1]
    exact ⟨hi0, rfl⟩

theorem bmap_next (hmax : c w < MAXFILE) :
    Triple (· = s0) (bmap sb w (c w))
      (fun a s => ∃ x, x = { J w with addrs := x.addrs } ∧
        Work sb w I (update J w x) Φ (update c w (c w + 1)) Y s ∧
        a = slot x s.disk (c w) ∧ Logs w {a} (blks (c w + 1) - blks (c w)) s0 s)
      fun e s => e = .outOfBlocks ∧
        sb.nblocks < used sb J (update c w (c w + 1)) + card Y ∧
        Logs w ∅ (blks (c w + 1) - blks (c w)) s0 s := by
  unfold bmap
  refine .ite (fun hd => ?_) fun hd => .ite (fun _ => ?_) fun hout => ?_
  · have hone : blks (c w + 1) - blks (c w) = 1 := by
      rw [blks, blks, if_neg (by omega), if_neg (by omega)]
      omega
    rw [hone]
    refine (addrOf_next h hd).mono (fun a s hr => ?_)
      fun e s he => ⟨he.1, he.2.1, he.2.2 ▸ Logs.refl w ∅ 1 s0⟩
    obtain ⟨x, hx, hs⟩ := hr
    exact ⟨x, by rw [hx]; rfl, hs⟩
  · by_cases hc : c w = NDIRECT
    · have hzero : c w - NDIRECT = 0 := by omega
      have htwo : blks (c w + 1) - blks (c w) = 2 := by
        rw [blks, blks, if_pos (by omega), if_neg (by omega)]
        omega
      rw [hzero, htwo]
      refine (indirect_next h hc).post fun a s hr => ?_
      obtain ⟨x, ⟨ind, hx⟩, hs⟩ := hr
      exact ⟨x, by rw [hx]; rfl, hs⟩
    · have hlt : NDIRECT < c w := lt_of_le_of_ne (not_lt.1 hd) (.symm hc)
      have hind : (J w).addrs NDIRECT ≠ 0 := (h.core.filled w h.lt h.type).indirect.2 hlt
      have hone : blks (c w + 1) - blks (c w) = 1 := by
        rw [blks, blks, if_pos (by omega), if_pos hlt]
        omega
      rw [hone]
      refine .bind (addrOf_present h.mem hind _) fun ind => .of_and fun hi => ?_
      subst hi
      refine (entryOf_next h hlt hmax).mono (fun a s hr => ⟨J w, rfl, ?_, hr.2⟩)
        fun e s he => ⟨he.1, he.2.1, he.2.2 ▸ Logs.refl w ∅ 1 s0⟩
      rw [update_eq_self]
      exact hr.1
  · exact absurd (Nat.sub_lt_left_of_lt_add (not_lt.1 hd) hmax) hout

end Xv6.Fs
