import Xv6.Fs.Held

/-!
Allocating an inode, `ialloc`, and freeing it: `itrunc` and the last `iput`.

An inode that is freed gives up its blocks at once; they are then in the hands of
`itrunc`, which gives them to `bfree` one after the other. So each of them is in
use when `bfree` gets it, and no other inode has it.
-/

namespace Xv6.Fs

open Lib Function
open List (map_cons map_nil mem_cons_self range sum_cons sum_nil)
open Multiset (add_cons singleton_add)

section
variable {sb : Super} {I : ℕ → Dinode} {Φ : ℕ → ℕ → Block} {s1 : State} {type : ℕ}

theorem keeps_iget {i : ℕ} :
    Prog.Keeps (fun s => ∀ j, j ≠ i → s.valid j = s1.valid j) (fun _ _ => True) (iget sb i) := by
  constructor
  intro s h
  show Prog.Ends _ _ (Prog.result (if s.ref i = 0 ∧ NINODE ≤ s.cached sb then _ else _) _)
  split
  · trivial
  show ∀ j, j ≠ i → (if 0 < s.ref i then _ else _ : State).valid j = _
  split
  · exact h
  · exact fun j hj => (update_of_ne hj ..).trans (h j hj)

theorem iallocLoop_spec (h : Settled sb I Φ s1) (ht : type ≠ 0) (htype : type < 2 ^ 16)
    {l : List ℕ} (hl : ∀ i ∈ l, i < sb.ninodes) :
    Triple (· = s1) (iallocLoop sb type l)
      (fun ip s => ip ∈ l ∧ (I ip).type = 0 ∧
        Settled sb (update I ip (.new type)) (update Φ ip fun _ => zeros) s ∧
        0 < s.ref ip ∧ ∀ j, j ≠ ip → s.valid j = s1.valid j)
      fun e _ => (e = .noInodes ∧ ∀ i ∈ l, (I i).type ≠ 0) ∨ e = .igetNoInodes := by
  induction l with
  | nil => exact .panic fun _ _ => .inl ⟨rfl, fun i hi => absurd hi List.not_mem_nil⟩
  | cons inum rest ih =>
    have hlt := hl inum mem_cons_self
    unfold iallocLoop
    refine .bind (R := fun blk s => getDinode blk (inum % IPB) = I inum ∧ s = s1)
      (.read fun s hs => ⟨by rw [hs]; exact h.disk inum hlt, hs⟩) fun blk =>
      .of_and fun hblk => ?_
    rw [hblk]
    refine .ite (fun hfree => ?_) fun hused => ?_
    · have hadopt := h.adopt hlt hfree (x := .new type) ht (Dinode.new_fits htype) rfl rfl
      refine .bind (R := fun _ s => s =
        s1.write (sb.iblock inum) (putDinode · (inum % IPB) (.new type)))
        (.modify fun s hs => by rw [hs]) fun _ => ?_
      have hget : Triple (· = s1.write (sb.iblock inum) (putDinode · (inum % IPB) (.new type)))
          (iget sb inum) _ _ := (Held.iget.and keeps_iget).pre fun s hs => by
        rw [hs]
        exact ⟨.start hadopt, fun _ _ => rfl⟩
      refine .bind (hget.err fun e _ he => .inr he.1) fun _ =>
        .pure fun s hs => ⟨mem_cons_self, hfree, hs.1.settled, ?_, hs.2⟩
      rw [hs.1.ref, Multiset.count_cons_self]
      exact Nat.succ_pos _
    · refine (ih fun i hi => hl i (List.mem_cons_of_mem _ hi)).mono
        (fun ip s hs => ⟨List.mem_cons_of_mem _ hs.1, hs.2⟩) fun e _ he =>
        he.imp_left fun hnone => ⟨hnone.1, List.forall_mem_cons.2 ⟨hused, hnone.2⟩⟩

end

section
variable {sb : Super} {w : Option ℕ} {I J : ℕ → Dinode} {Φ : ℕ → ℕ → Block} {c : ℕ → ℕ}
  {Y : Multiset ℕ} {s : State} {b : ℕ}

theorem Core.give (h : Core sb w I J Φ c (b ::ₘ Y) s) :
    Core sb w I J Φ c Y (s.write (sb.bblock b) (clearBit · (b % BPB))) := by
  have hnd := h.nodup
  rw [add_cons, Multiset.nodup_cons] at hnd
  have hb := h.range b (Multiset.mem_add.2 (.inr (Multiset.mem_cons_self ..)))
  have hbb := sb.bblock_lt hb.2
  refine h.change (fun a ha => ?_) (fun i hi => ?_) h.same h.cache (fun a ha => ?_) hnd.2
    fun a ha => h.range a ?_
  · have hadata := h.range a (Multiset.mem_add.2 (.inl ha))
    exact update_of_ne (by omega) ..
  · rw [← h.disk i hi]
    exact Super.dinode_update hi Super.bmapstart_le_bblock _
  · have hin : sb.inUse (s.write (sb.bblock b) (clearBit · (b % BPB))).disk a =
        (decide (a ≠ b) && sb.inUse s.disk a) := Super.inUse_clearBit
    rw [hin, Bool.and_eq_true, decide_eq_true_eq, h.bits a ha, add_cons, Multiset.mem_cons]
    constructor
    · rintro ⟨hab, hlt | hab' | hmem⟩
      · exact .inl hlt
      · exact absurd hab' hab
      · exact .inr hmem
    · rintro (hlt | hmem)
      · exact ⟨by omega, .inl hlt⟩
      · exact ⟨fun hab => hnd.1 (hab ▸ hmem), .inr (.inr hmem)⟩
  · rw [add_cons]
    exact Multiset.mem_cons_of_mem ha

end

structure Freeing (sb : Super) (w : ℕ) (I J : ℕ → Dinode) (Φ : ℕ → ℕ → Block) (c : ℕ → ℕ)
    (s₀ : State) (x : Dinode) (Y : Multiset ℕ) (s : State) : Prop where
  core : Core sb (some w) I J Φ c Y s
  mem : s.inode w = x
  fits : x.Fits
  data : ∀ b, sb.nmeta ≤ b → s.disk b = s₀.disk b

variable {sb : Super} {w : ℕ} {I J : ℕ → Dinode} {Φ : ℕ → ℕ → Block} {c : ℕ → ℕ}
  {Y : Multiset ℕ} {s0 s : State} {b : ℕ} {x y : Dinode}

theorem Freeing.bfree : Triple (Freeing sb w I J Φ c s0 x (b ::ₘ Y)) (bfree sb b)
    (fun _ => Freeing sb w I J Φ c s0 x Y) Never := by
  refine .of_state fun s h => ?_
  have hmem : b ∈ total sb J s.disk + b ::ₘ Y :=
    Multiset.mem_add.2 (.inr (Multiset.mem_cons_self ..))
  have hb := h.core.range b hmem
  have hbb := sb.bblock_lt hb.2
  refine (bfree_spec ((h.core.bits b hb.2).2 (.inr hmem))).post fun _ s' hs' => ?_
  rw [hs']
  refine ⟨h.core.give, h.mem, h.fits, fun a ha => ?_⟩
  rw [← h.data a ha]
  exact update_of_ne (by omega) ..

theorem Freeing.setInode (h : Freeing sb w I J Φ c s0 x Y s) (hy : y.Fits) :
    Freeing sb w I J Φ c s0 y Y (s.setInode w y) :=
  ⟨h.core.setInode y, update_self .., hy, h.data⟩

theorem truncDirect_spec {l : List ℕ} (hl : l.Nodup) (hlt : ∀ k ∈ l, k < NDIRECT) :
    Triple (Freeing sb w I J Φ c s0 x ((l.map fun k => nz (x.addrs k)).sum + Y))
      (truncDirect sb w l)
      (fun _ s => ∃ y, y.addrs NDIRECT = x.addrs NDIRECT ∧ Freeing sb w I J Φ c s0 y Y s)
      Never := by
  induction l generalizing x with
  | nil => exact .pure fun s hs => ⟨x, rfl, by rwa [map_nil, sum_nil, zero_add] at hs⟩
  | cons k rest ih =>
    obtain ⟨hk, hrest⟩ := List.nodup_cons.1 hl
    have hkd := hlt k mem_cons_self
    have ih {x} := ih (x := x) hrest fun j hj => hlt j (List.mem_cons_of_mem k hj)
    rw [map_cons, sum_cons, add_assoc]
    unfold truncDirect
    refine .bind (R := fun a s => a = x.addrs k ∧ Freeing sb w I J Φ c s0 x _ s)
      (.read fun s hs => ⟨by rw [hs.mem], hs⟩) fun a => .of_and fun ha => ?_
    subst ha
    refine .ite (fun hzero => ih.pre fun s hs => ?_) fun hne => ?_
    · rwa [hzero, nz, if_pos rfl, zero_add] at hs
    rw [nz, if_neg hne, singleton_add]
    have hsum : (rest.map fun j => nz ((x.setAddr k 0).addrs j)) =
        rest.map fun j => nz (x.addrs j) := by
      refine List.map_congr_left fun j hj => ?_
      rw [setAddr_of_ne x 0 (ne_of_mem_of_not_mem hj hk)]
    refine .bind Freeing.bfree fun _ => .bind (R := fun _ => Freeing sb w I J Φ c s0
      (x.setAddr k 0) ((rest.map fun j => nz ((x.setAddr k 0).addrs j)).sum + Y))
      (.modify fun s hs => ?_) fun _ => ih.post fun _ s hs => ?_
    · rw [hsum, hs.mem]
      exact hs.setInode (hs.fits.setAddr hkd.le (by decide))
    · rwa [setAddr_of_ne x 0 hkd.ne'] at hs

theorem truncEntries_spec {l : List ℕ} :
    Triple (Freeing sb w I J Φ c s0 x ((l.map nz).sum + Y)) (truncEntries sb l)
      (fun _ => Freeing sb w I J Φ c s0 x Y) Never := by
  induction l with
  | nil => exact .pure fun s hs => by rwa [map_nil, sum_nil, zero_add] at hs
  | cons a rest ih =>
    rw [map_cons, sum_cons, add_assoc]
    unfold truncEntries
    refine .ite (fun hzero => ih.pre fun s hs => ?_) fun hne => ?_
    · rwa [hzero, nz, if_pos rfl, zero_add] at hs
    · rw [nz, if_neg hne, singleton_add]
      exact .bind Freeing.bfree fun _ => ih

def entries (ind : ℕ) (disk : ℕ → Block) : Multiset ℕ :=
  if ind = 0 then 0 else (((List.range NINDIRECT).map (word (disk ind))).map nz).sum

theorem refs_eq (x : Dinode) (disk : ℕ → Block) :
    refs x disk = ((range NDIRECT).map fun k => nz (x.addrs k)).sum +
      (entries (x.addrs NDIRECT) disk + nz (x.addrs NDIRECT)) := by
  have hsplit : blocks (slot x disk) = ((range NDIRECT).map fun k => nz (slot x disk k)).sum +
      ((range NINDIRECT).map fun k => nz (slot x disk (NDIRECT + k))).sum := by
    unfold blocks
    rw [show MAXFILE = NDIRECT + NINDIRECT from rfl, Finset.sum_range_add]
    rfl
  have hdirect : ((range NDIRECT).map fun k => nz (slot x disk k)) =
      (range NDIRECT).map fun k => nz (x.addrs k) :=
    List.map_congr_left fun k hk => by rw [slot, if_pos (List.mem_range.1 hk)]
  have hindirect : ((range NINDIRECT).map fun k => nz (slot x disk (NDIRECT + k))).sum =
      entries (x.addrs NDIRECT) disk := by
    unfold entries
    split_ifs with hind
    · refine List.sum_eq_zero fun a ha => ?_
      obtain ⟨k, -, rfl⟩ := List.mem_map.1 ha
      rw [slot, if_neg (Nat.not_lt.2 (Nat.le_add_right _ _)), if_neg fun h => h.2 hind, nz,
        if_pos rfl]
    · rw [List.map_map]
      congr 1
      refine List.map_congr_left fun k hk => ?_
      rw [slot, if_neg (Nat.not_lt.2 (Nat.le_add_right _ _)),
        if_pos ⟨Nat.add_lt_add_left (List.mem_range.1 hk) _, hind⟩, Nat.add_sub_cancel_left]
      rfl
  rw [refs, hsplit, hdirect, hindirect, add_left_comm, add_comm (nz _)]

theorem truncIndirect_spec :
    Triple (Freeing sb w I J Φ c s0 x (entries (x.addrs NDIRECT) s0.disk +
        nz (x.addrs NDIRECT))) (truncIndirect sb w)
      (fun _ s => ∃ y, Freeing sb w I J Φ c s0 y 0 s) Never := by
  unfold truncIndirect
  refine .bind (R := fun a s => a = x.addrs NDIRECT ∧ Freeing sb w I J Φ c s0 x _ s)
    (.read fun s hs => ⟨by rw [hs.mem], hs⟩) fun a => .of_and fun ha => ?_
  subst ha
  refine .ite (fun hzero => .pure fun s hs => ⟨x, ?_⟩) fun hne => ?_
  · rwa [hzero, entries, if_pos rfl, nz, if_pos rfl, zero_add] at hs
  rw [entries, if_neg hne, nz, if_neg hne]
  refine .bind (R := fun blk s => blk = s0.disk (x.addrs NDIRECT) ∧
    Freeing sb w I J Φ c s0 x _ s) (.read fun s hs => ⟨hs.data _ ?_, hs⟩) fun blk =>
    .of_and fun hblk => ?_
  · exact (hs.core.range _ (Multiset.mem_add.2 (.inr (Multiset.mem_add.2 (.inr
      (Multiset.mem_singleton_self _)))))).1
  subst hblk
  refine .bind truncEntries_spec fun _ => .bind (Freeing.bfree (Y := 0)) fun _ =>
    .modify fun s hs => ⟨x.setAddr NDIRECT 0, ?_⟩
  rw [hs.mem]
  exact hs.setInode (hs.fits.setAddr le_rfl (by decide))

theorem itrunc_spec (hw : w < sb.ninodes)
    (h : Freeing sb w I J Φ c s0 x (refs x s0.disk) s0) :
    Triple (· = s0) (itrunc sb w)
      (fun _ s => ∃ y, y.Fits ∧ y.size = 0 ∧ s.inode w = y ∧
        Core sb (some w) (update I w y) J Φ c 0 s) Never := by
  rw [refs_eq] at h
  have hdirect : Triple (· = s0) (truncDirect sb w (range NDIRECT)) _ _ :=
    (truncDirect_spec List.nodup_range fun k => List.mem_range.1).pre fun s hs => by
      rw [hs]
      exact h
  unfold itrunc
  refine .bind hdirect fun _ => .of_exists fun y => .of_and fun hy => ?_
  rw [← hy]
  refine .bind truncIndirect_spec fun _ => .of_exists fun y => ?_
  refine .bind (R := fun _ => Freeing sb w I J Φ c s0 { y with size := 0 } 0)
    (.modify fun s hs => ?_) fun _ => .modify fun s hs => ⟨_, hs.fits, rfl, hs.mem, ?_⟩
  · have hf := hs.fits
    rw [hs.mem]
    exact hs.setInode ⟨hf.type, hf.major, hf.minor, hf.nlink, Nat.two_pow_pos 32, hf.addrs, hf.past⟩
  · rw [hs.mem]
    exact hs.core.iupdate hw hs.fits fun _ _ => rfl

theorem ifree_spec (h : Settled sb I Φ s0) (hw : w < sb.ninodes) (hv : s0.valid w = true) :
    Triple (· = s0) (ifree sb w)
      (fun _ s => ∃ x, x.type = 0 ∧ Settled sb (update I w x) Φ s) Never := by
  have hwork := h.work hw hv
  have hstart : Freeing sb w I (update I w (.new 0)) (update Φ w (Φ w))
      (update (fun i => cdiv (I i).size) w 0) s0 (I w) (refs (I w) s0.disk) s0 :=
    ⟨hwork.core.replace hw (.refl _) (fun ht => absurd rfl ht) (fun ht => absurd rfl ht)
      (by rw [own_free rfl, own_of_ne hwork.type, zero_add, add_zero]), hwork.mem, hwork.fits,
      fun _ _ => rfl⟩
  rw [update_eq_self w Φ] at hstart
  unfold ifree
  refine .bind (itrunc_spec hw hstart) fun _ => .of_exists fun y => .of_state fun s1 hs1 => ?_
  obtain ⟨hf, hsize, hmem, hcore⟩ := hs1
  have hx : ({ y with type := 0 } : Dinode).Fits :=
    ⟨Nat.two_pow_pos 16, hf.major, hf.minor, hf.nlink, hf.size, hf.addrs, hf.past⟩
  refine .bind (R := fun _ s => s = s1.setInode w { y with type := 0 })
    (.modify fun s hs => by rw [hs, hmem]) fun _ => ?_
  refine .bind (R := fun _ s => s = (s1.setInode w { y with type := 0 }).write (sb.iblock w)
    (putDinode · (w % IPB) { y with type := 0 })) (.modify fun s hs => ?_) fun _ =>
    .modify fun s hs => ⟨{ y with type := 0 }, rfl, ?_⟩
  · rw [hs, show (s1.setInode w { y with type := 0 }).inode w = _ from update_self ..]
  have hdone : Core sb (some w) (update I w { y with type := 0 }) _ _ _ _ _ :=
    (hcore.setInode { y with type := 0 }).iupdate hw hx fun i _ => by rw [update_idem]
  rw [← hs] at hdone
  have hlast : Core _ _ _ _ _ _ 0 { s with valid := update s.valid w false } :=
    hdone.replace (x := { y with type := 0 }) (φ := Φ w) (n := 0) hw
    ⟨fun _ _ => rfl, fun _ _ _ _ _ => rfl, fun _ _ => rfl, fun _ hi => update_of_ne hi ..⟩
    (fun ht => absurd rfl ht) (fun ht => absurd rfl ht)
    (by rw [own_free rfl, update_self, own_free rfl])
  rw [update_idem, update_idem, update_eq_self w Φ] at hlast
  have hc : update (fun i => cdiv (I i).size) w 0 =
      fun i => cdiv (update I w { y with type := 0 } i).size := by
    funext i
    by_cases hi : i = w
    · rw [hi, update_self, update_self, hsize]
      rfl
    · rw [update_of_ne hi, update_of_ne hi]
  rw [hc] at hlast
  refine hlast.close rfl fun hvalid => ?_
  exact absurd ((update_self ..).symm.trans hvalid) Bool.false_ne_true

theorem iput_spec (h : Settled sb I Φ s0) (hw : w < sb.ninodes) :
    Triple (· = s0) (iput sb w)
      (fun _ s => ∃ J, (∀ i, i ≠ w ∨ (I i).nlink ≠ 0 → J i = I i) ∧ Settled sb J Φ s) Never := by
  unfold iput
  refine .bind (R := fun dead s => (dead = true → s0.valid w = true ∧ (I w).nlink = 0) ∧ s = s0)
    (.read fun s hs => ⟨fun hdead => ?_, hs⟩) fun dead => .of_and fun hdead => ?_
  · rw [hs, Bool.and_eq_true, Bool.and_eq_true, decide_eq_true_eq] at hdead
    obtain ⟨⟨hv, hlink⟩, -⟩ := hdead
    exact ⟨hv, (h.cache w hw (Option.some_ne_none w) hv).1 ▸ hlink⟩
  refine .bind (R := fun _ s => ∃ J, (∀ i, i ≠ w ∨ (I i).nlink ≠ 0 → J i = I i) ∧
    Settled sb J Φ s)
    (.ite (fun hd => ?_) fun _ => .pure fun s hs => ⟨I, fun _ _ => rfl, by rwa [hs]⟩) fun _ =>
    .modify fun s hs => ?_
  · refine (ifree_spec h hw (hdead hd).1).post fun _ s hs => ?_
    obtain ⟨x, -, hset⟩ := hs
    refine ⟨_, fun i hi => update_of_ne (fun hiw => ?_) .., hset⟩
    exact hi.elim (fun hne => hne hiw) fun hlink => hlink (hiw ▸ (hdead hd).2)
  · obtain ⟨J, hJ, hset⟩ := hs
    exact ⟨J, hJ, hset.forget rfl fun _ _ hv => ⟨hv, rfl⟩⟩

end Xv6.Fs
