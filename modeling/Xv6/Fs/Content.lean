import Xv6.Fs.Bmap
import Xv6.Lib.Stream

namespace Xv6.Fs

open Lib Function
open Finset (card_union_le mem_union)

def cdiv (n : ℕ) : ℕ := (n + (BSIZE - 1)) / BSIZE

def touched (off m : ℕ) : ℕ := if m = 0 then 0 else (off + m - 1) / BSIZE + 1 - off / BSIZE

def Settled (sb : Super) (I : ℕ → Dinode) (Φ : ℕ → ℕ → Block) (s : State) : Prop :=
  Core sb none I I Φ (fun i => cdiv (I i).size) 0 s

def State.boot (disk : ℕ → Block) : State :=
  ⟨disk, fun _ => .new 0, fun _ => false, fun _ => 0, []⟩

def State.load (s : State) (w : ℕ) (x : Dinode) : State :=
  { s.setInode w x with valid := update s.valid w true }

@[simp] theorem State.setInode_self (s : State) (w : ℕ) (x : Dinode) :
    (s.setInode w x).inode w = x := update_self ..

@[simp] theorem State.load_valid (s : State) (w : ℕ) (x : Dinode) :
    (s.load w x).valid w = true := update_self ..

section
variable {n off m : ℕ}

theorem cdiv_le_iff : cdiv n ≤ m ↔ n ≤ m * BSIZE := by
  unfold cdiv
  simp only [BSIZE]
  omega

theorem le_cdiv_mul (n : ℕ) : n ≤ cdiv n * BSIZE := cdiv_le_iff.1 le_rfl

theorem cdiv_mono (h : n ≤ m) : cdiv n ≤ cdiv m := cdiv_le_iff.2 (h.trans (le_cdiv_mul m))

theorem div_lt_cdiv (h : off < n) : off / BSIZE < cdiv n := by
  unfold cdiv
  simp only [BSIZE]
  omega

theorem blks_mono (h : n ≤ m) : blks n ≤ blks m := by
  unfold blks
  split <;> split <;> omega

theorem touched_split (off : ℕ) (hn : 0 < n) (hm : m = min n (BSIZE - off % BSIZE)) :
    1 + touched (off + m) (n - m) ≤ touched off n := by
  unfold touched
  simp only [BSIZE] at *
  split <;> split <;> omega

end

section
variable {sb : Super} {w k : ℕ} {I J : ℕ → Dinode} {Φ : ℕ → ℕ → Block} {c : ℕ → ℕ}
  {Y : Multiset ℕ} {s s0 : State} {bn off n turns : ℕ} {src : List UInt8}

theorem Work.block (h : Work sb w I J Φ c Y s) (hk : k < c w) :
    s.disk (slot (J w) s.disk k) = Φ w k := by
  have hfill := h.core.filled w h.lt h.type
  have hne := (hfill.slots k (hk.trans_le hfill.le)).2 hk
  rw [← h.core.files w h.lt h.type k, blockOf, if_neg hne]

theorem Work.store (h : Work sb w I J Φ c Y s) (hk : k < c w) (f : Block → Block) :
    Work sb w I J (update Φ w (update (Φ w) k (f (Φ w k)))) c Y
      (s.write (slot (J w) s.disk k) f) := by
  have hfill := h.core.filled w h.lt h.type
  have hmax : k < MAXFILE := hk.trans_le hfill.le
  have hne := (hfill.slots k hmax).2 hk
  have hnd := h.core.total_nodup
  have hown : slot (J w) s.disk k ∈ own (J w) s.disk :=
    own_of_ne h.type s.disk ▸ slot_mem_refs hmax hne
  have hrange := h.core.range _ (Multiset.mem_add.2 (.inl (mem_total.2 ⟨w, h.lt, hown⟩)))
  have hslot : slot (J w) (s.write (slot (J w) s.disk k) f).disk = slot (J w) s.disk :=
    slot_store hnd h.lt h.lt h.type h.type hmax hne _
  have hcore : Core sb (some w) I (update J w (J w))
      (update Φ w (update (Φ w) k (f (Φ w k)))) (update c w (c w)) Y
      (s.write (slot (J w) s.disk k) f) := by
    refine h.core.replace h.lt (.write _ hrange.1 fun i hi hiw => not_mem_own hnd h.lt hi hiw hown)
      (fun _ j => ?_) (fun _ => ⟨fun j hj => ?_, hfill.indirect, hfill.le⟩) ?_
    · rw [blockOf, hslot]
      by_cases hj : j = k
      · subst hj
        rw [if_neg hne, update_self, ← h.block hk]
        exact update_self ..
      rw [update_of_ne hj, ← h.core.files w h.lt h.type j, blockOf]
      by_cases hz : slot (J w) s.disk j = 0
      · rw [if_pos hz, if_pos hz]
      rw [if_neg hz, if_neg hz]
      refine update_of_ne (fun heq => hj ?_) _ _
      have hjmax : j < MAXFILE := by
        by_contra hjmax
        exact hz (slot_past (not_lt.1 hjmax))
      exact (slot_unique hnd h.lt h.lt h.type h.type hmax hjmax hne heq.symm).2
    · rw [hslot]
      exact hfill.slots j hj
    · rw [own_of_ne h.type, own_of_ne h.type, refs, refs, hslot]
  rw [update_eq_self, update_eq_self] at hcore
  exact ⟨hcore, h.lt, h.valid, h.mem, h.type, h.fits⟩

theorem bmap_within (h : Work sb w I J Φ c Y s0) (hbn : bn ≤ c w) (hmax : bn < MAXFILE) :
    Triple (· = s0) (bmap sb w bn)
      (fun a s => ∃ x, x = { J w with addrs := x.addrs } ∧ (bn < c w → x = J w) ∧
        Work sb w I (update J w x) Φ (update c w (max (c w) (bn + 1))) Y s ∧
        a = slot x s.disk bn ∧ Logs w {a} (blks (max (c w) (bn + 1)) - blks (c w)) s0 s)
      fun e s => e = .outOfBlocks ∧
        sb.nblocks < used sb J (update c w (max (c w) (bn + 1))) + Multiset.card Y ∧
        Logs w ∅ (blks (max (c w) (bn + 1)) - blks (c w)) s0 s := by
  rcases hbn.lt_or_eq with hlt | rfl
  · rw [max_eq_left hlt]
    refine ((bmap_present h hlt).panics _).post fun a s ⟨ha, hs⟩ =>
      ⟨J w, rfl, fun _ => rfl, ?_, ?_, ?_⟩
    · rw [update_eq_self, update_eq_self, hs]
      exact h
    · rw [ha, hs]
    · rw [hs]
      exact .refl ..
  · rw [max_eq_right (Nat.le_succ _)]
    exact (bmap_next h hmax).post fun a s ⟨x, hx, hs⟩ =>
      ⟨x, hx, fun hlt => absurd hlt (lt_irrefl _), hs⟩

theorem used_addrs (hw : w < sb.ninodes) {x : Dinode} (hx : x.type = (J w).type) (n : ℕ) :
    used sb (update J w x) (update c w n) =
      used sb J (update c w n) := by
  have h1 := used_update (c := c) (J := J) hw x n
  have h2 := used_update (c := c) (J := J) hw (J w) n
  rw [update_eq_self, ← hx] at h2
  rw [← hx] at h1
  omega

theorem readLoop_spec (h : Work sb w I J Φ c Y s0) (hn : n ≤ turns)
    (hend : off + n ≤ c w * BSIZE) :
    Triple (· = s0) (readLoop sb w turns off n)
      (fun bytes s => bytes = stream (Φ w) off n ∧ s = s0) Never := by
  induction turns generalizing off n with
  | zero =>
    rw [Nat.le_zero.1 hn]
    exact .pure fun s hs => ⟨rfl, hs⟩
  | succ turns ih =>
    unfold readLoop
    refine .ite (fun hz => ?_) fun hz => ?_
    · rw [hz]
      exact .pure fun s hs => ⟨rfl, hs⟩
    have hbn : off / BSIZE < c w := by
      simp only [BSIZE] at *
      omega
    refine .bind (bmap_present h hbn) fun a => .of_and fun ha => ?_
    refine .bind (R := fun blk s => blk = Φ w (off / BSIZE) ∧ s = s0)
      (.read fun s hs => ⟨?_, hs⟩) fun blk => .of_and fun hblk => ?_
    · rw [hs, ha, h.block hbn]
    subst hblk
    obtain ⟨m, hm⟩ : ∃ m, m = min n (BSIZE - off % BSIZE) := ⟨_, rfl⟩
    have hmn : m ≤ n := hm ▸ min_le_left ..
    have hpos : 0 < m := by
      simp only [BSIZE] at *
      omega
    have hblock : off % BSIZE + m ≤ BSIZE := by
      simp only [BSIZE] at *
      omega
    rw [← hm]
    refine .bind (ih (by omega) (by omega)) fun rest => .of_and fun hrest =>
      .pure fun s hs => ⟨?_, hs⟩
    rw [hrest, show stream (Φ w) off n = stream (Φ w) off (m + (n - m)) by
      rw [Nat.add_sub_cancel' hmn], stream_add, stream_block hblock]
    rfl

theorem Work.splice_nil (h : Work sb w I J Φ c Y s) (hoff : off ≤ c w * BSIZE) :
    Work sb w I (update J w (J w)) (update Φ w (splice (Φ w) off []))
      (update c w (max (c w) (cdiv (off + ([] : List UInt8).length)))) Y s := by
  rw [Lib.splice_nil, List.length_nil, Nat.add_zero, max_eq_left (cdiv_le_iff.2 hoff),
    update_eq_self, update_eq_self, update_eq_self]
  exact h

theorem writeLoop_spec (h : Work sb w I J Φ c Y s0) (hn : src.length ≤ turns)
    (hoff : off ≤ c w * BSIZE) (hmax : off + src.length ≤ MAXFILE * BSIZE) :
    Triple (· = s0) (writeLoop sb w turns off src)
      (fun stop s => stop = off + src.length ∧ ∃ x D, x = { J w with addrs := x.addrs } ∧
        (cdiv (off + src.length) ≤ c w → x = J w) ∧
        Work sb w I (update J w x) (update Φ w (splice (Φ w) off src))
          (update c w (max (c w) (cdiv (off + src.length)))) Y s ∧
        D.card ≤ touched off src.length ∧
        Logs w D (blks (max (c w) (cdiv (off + src.length))) - blks (c w)) s0 s)
      fun e s => e = .outOfBlocks ∧
        sb.nblocks < used sb J (update c w (max (c w) (cdiv (off + src.length)))) +
          Multiset.card Y ∧ ∃ D : Finset ℕ, D.card ≤ touched off src.length ∧
        Logs w D (blks (max (c w) (cdiv (off + src.length))) - blks (c w)) s0 s := by
  induction turns generalizing off src J Φ c s0 with
  | zero =>
    obtain rfl : src = [] := List.length_eq_zero_iff.1 (Nat.le_zero.1 hn)
    exact .pure fun s hs =>
      ⟨rfl, J w, ∅, rfl, fun _ => rfl, hs ▸ h.splice_nil hoff, Nat.zero_le _, hs ▸ .refl ..⟩
  | succ turns ih =>
    unfold writeLoop
    refine .ite (fun hz => ?_) fun hz => ?_
    · obtain rfl : src = [] := List.length_eq_zero_iff.1 hz
      exact .pure fun s hs =>
        ⟨rfl, J w, ∅, rfl, fun _ => rfl, hs ▸ h.splice_nil hoff, Nat.zero_le _, hs ▸ .refl ..⟩
    obtain ⟨m, hm⟩ : ∃ m, m = min src.length (BSIZE - off % BSIZE) := ⟨_, rfl⟩
    have hmn : m ≤ src.length := hm ▸ min_le_left ..
    have hpos : 0 < m := by
      simp only [BSIZE] at *
      omega
    have hblock : off % BSIZE + m ≤ BSIZE := by
      simp only [BSIZE] at *
      omega
    have hbn : off / BSIZE ≤ c w := by
      simp only [BSIZE] at *
      omega
    have hbmax : off / BSIZE < MAXFILE := by
      simp only [BSIZE] at *
      omega
    have hnext : off + m ≤ (off / BSIZE + 1) * BSIZE := by
      simp only [BSIZE] at *
      omega
    have htake : (src.take m).length = m := by rw [List.length_take, min_eq_left hmn]
    have hdrop : (src.drop m).length = src.length - m := List.length_drop ..
    have hsum : off + m + (src.length - m) = off + src.length := by omega
    have hlast : off / BSIZE + 1 ≤ cdiv (off + src.length) := div_lt_cdiv (by omega)
    obtain ⟨c1, hc1⟩ : ∃ c1, c1 = max (c w) (off / BSIZE + 1) := ⟨_, rfl⟩
    obtain ⟨c2, hc2⟩ : ∃ c2, c2 = max (c w) (cdiv (off + src.length)) := ⟨_, rfl⟩
    have hc12 : max c1 (cdiv (off + src.length)) = c2 := by omega
    have hb1 : blks (c w) ≤ blks c1 := blks_mono (by omega)
    have hb2 : blks c1 ≤ blks c2 := blks_mono (by omega)
    have htouched := touched_split off (Nat.pos_of_ne_zero hz) hm
    have hbmap := bmap_within h hbn hbmax
    rw [← hm, ← hc2]
    rw [← hc1] at hbmap
    refine .bind (hbmap.err fun e s ⟨he, hused, hlogs⟩ => ⟨he, ?_, ∅, Nat.zero_le _,
      hlogs.mono subset_rfl (by omega)⟩)
      fun a => ?_
    · have hu1 := used_grow (c := c) h.lt h.type c1
      have hu2 := used_grow (c := c) h.lt h.type c2
      omega
    refine .of_state fun s1 ⟨x, hx, hsame, hw1, ha, hlogs⟩ => ?_
    have htype : x.type = (J w).type := by rw [hx]
    have hcw : update c w c1 w = c1 := update_self ..
    have hk : off / BSIZE < update c w c1 w := by omega
    have haw : a = slot (update J w x w) s1.disk (off / BSIZE) := by
      rw [update_self, ha]
    have hpatch : update Φ w (update (Φ w) (off / BSIZE)
        (patch (Φ w (off / BSIZE)) (off % BSIZE) m fun k => src.getD k 0)) =
        update Φ w (splice (Φ w) off (src.take m)) := by
      rw [splice_block (by rw [htake]; exact hblock), htake]
      congr 2
      refine bytes_ext fun i hi => ?_
      rw [byte_patch _ _ hi, byte_patch _ _ hi]
      by_cases hin : off % BSIZE ≤ i ∧ i < off % BSIZE + m
      · rw [if_pos hin, if_pos hin, List.getD_eq_getElem?_getD, List.getD_eq_getElem?_getD,
          List.getElem?_take_of_lt (by omega)]
      · rw [if_neg hin, if_neg hin]
    have hw2 := hw1.store hk fun blk => patch blk (off % BSIZE) m fun k => src.getD k 0
    rw [← haw, hpatch] at hw2
    have hlogs2 := hlogs.write (b := a) (fun blk => patch blk (off % BSIZE) m fun k => src.getD k 0)
      (.inl (Finset.mem_singleton_self a))
    refine .bind (R := fun _ s => s = s1.write a fun blk =>
      patch blk (off % BSIZE) m fun k => src.getD k 0) (.modify fun s hs => by rw [hs])
      fun _ => ?_
    have hrest := ih hw2 (show (src.drop m).length ≤ turns by omega)
      (show off + m ≤ update c w c1 w * BSIZE by
        rw [hcw]; exact hnext.trans (Nat.mul_le_mul_right _ (by omega))) (by omega)
    rw [hdrop, hsum, hcw, hc12, update_idem, update_idem, update_self, update_self] at hrest
    refine hrest.mono (fun stop s ⟨hstop, y, D, hy, hy', hwork, hD, hl⟩ => ?_)
      fun e s ⟨he, hused, D, hD, hl⟩ => ⟨he, ?_, {a} ∪ D, ?_, ?_⟩
    · refine ⟨hstop, y, {a} ∪ D, by rw [hy, hx], fun hle => ?_, ?_, ?_, ?_⟩
      · rw [hy' (hle.trans (by omega)), hsame (by omega)]
      · have happ := splice_append (Φ w) off (src.take m) (src.drop m)
        rw [htake, List.take_append_drop] at happ
        rw [update_idem, happ] at hwork
        exact hwork
      · exact (card_union_le _ _).trans
          ((Nat.add_le_add (Finset.card_singleton a).le hD).trans htouched)
      · exact (hlogs2.trans hl).mono subset_rfl (by omega)
    · rwa [used_addrs h.lt htype] at hused
    · exact (card_union_le _ _).trans
        ((Nat.add_le_add (Finset.card_singleton a).le hD).trans htouched)
    · exact (hlogs2.trans hl).mono subset_rfl (by omega)

end

section
variable {sb : Super} {w : ℕ} {I J : ℕ → Dinode} {Φ : ℕ → ℕ → Block} {c : ℕ → ℕ}
  {Y : Multiset ℕ} {s : State} {x : Dinode}

theorem Work.become (h : Work sb w I J Φ c Y s) (haddrs : x.addrs = (J w).addrs) (ht : x.type ≠ 0)
    (hf : x.Fits) : Work sb w I (update J w x) Φ c Y (s.setInode w x) := by
  have hslot : slot x s.disk = slot (J w) s.disk := by
    funext k
    rw [slot, slot, haddrs]
  have hfill := h.core.filled w h.lt h.type
  have hcore : Core sb (some w) I (update J w x) (update Φ w (Φ w))
      (update c w (c w)) Y (s.setInode w x) := (h.core.setInode x).replace h.lt (.refl _)
    (fun _ k => by
      rw [blockOf, show (s.setInode w x).disk = s.disk from rfl, hslot]
      exact h.core.files w h.lt h.type k)
    (fun _ => ⟨fun k hk => hslot ▸ hfill.slots k hk, haddrs ▸ hfill.indirect, hfill.le⟩)
    (by
      rw [show (s.setInode w x).disk = s.disk from rfl, own_of_ne ht, own_of_ne h.type, refs, refs,
        hslot, haddrs])
  rw [update_eq_self w Φ, update_eq_self w c] at hcore
  have hself : update J w x w = x := update_self ..
  exact ⟨hcore, h.lt, h.valid, by rw [hself]; exact update_self .., by rwa [hself], by rwa [hself]⟩

theorem Core.close (h : Core sb (some w) I J Φ c Y s) (hJ : J w = I w)
    (hv : s.valid w = true → s.inode w = I w ∧ (I w).type ≠ 0) : Core sb none I J Φ c Y s := by
  refine ⟨h.disk, fun i hi _ => ?_, fun i hi _ => ?_, h.files, h.filled, h.bits, h.nodup, h.range⟩
  · by_cases hiw : i = w
    · rw [hiw, hJ]
    · exact h.same i hi fun hc => hiw (Option.some.inj hc)
  · by_cases hiw : i = w
    · rw [hiw]
      exact hv
    · exact h.cache i hi fun hc => hiw (Option.some.inj hc)

theorem Core.iupdate {I' : ℕ → Dinode} (h : Core sb (some w) I J Φ c Y s) (hw : w < sb.ninodes)
    (hf : x.Fits) (hI : ∀ i < sb.ninodes, I' i = update I w x i) :
    Core sb (some w) I' J Φ c Y (s.write (sb.iblock w) (putDinode · (w % IPB) x)) := by
  have hib := Super.iblock_lt hw
  have hmeta := sb.bmapstart_le
  have hother : ∀ i < sb.ninodes, some i ≠ some w → I' i = I i := fun i hi hiw =>
    (hI i hi).trans (update_of_ne (fun hc => hiw (congrArg some hc)) ..)
  refine h.change (fun b hb => ?_) (fun i hi => ?_) (fun i hi hiw => ?_)
    (fun i hi hiw hv => ?_) (fun b hb => ?_) h.nodup h.range
  · have hrange := h.range b (Multiset.mem_add.2 (.inl hb))
    exact update_of_ne (by omega) ..
  · refine (congrFun (Super.dinode_putDinode hf) i).trans ?_
    rw [hI i hi]
    by_cases hiw : i = w
    · rw [hiw, update_self, update_self]
    · rw [update_of_ne hiw, update_of_ne hiw, h.disk i hi]
  · rw [hother i hi hiw]
    exact h.same i hi hiw
  · rw [hother i hi hiw]
    exact h.cache i hi hiw hv
  · rw [← h.bits b hb]
    exact iff_of_eq (congrArg (· = true) (Super.inUse_update hb (.inl hib) _))

theorem Work.flush (h : Work sb w I J Φ c Y s) :
    Core sb none J J Φ c Y
      (s.write (sb.iblock w) (putDinode · (w % IPB) (s.inode w))) := by
  rw [h.mem]
  refine (h.core.iupdate h.lt h.fits fun i hi => ?_).close rfl fun _ => ⟨h.mem, h.type⟩
  by_cases hiw : i = w
  · rw [hiw, update_self]
  · rw [update_of_ne hiw, h.core.same i hi fun hc => hiw (Option.some.inj hc)]

theorem Core.forget {s' : State} (h : Core sb none I J Φ c Y s) (hdisk : s'.disk = s.disk)
    (hmem : ∀ i < sb.ninodes, s'.valid i = true → s.valid i = true ∧ s'.inode i = s.inode i) :
    Core sb none I J Φ c Y s' := by
  refine ⟨hdisk ▸ h.disk, h.same, fun i hi hne hv => ?_, hdisk ▸ h.files, hdisk ▸ h.filled,
    hdisk ▸ h.bits, hdisk ▸ h.nodup, hdisk ▸ h.range⟩
  rw [(hmem i hi hv).2]
  exact h.cache i hi hne (hmem i hi hv).1

theorem Core.boot (h : Core sb none I J Φ c Y s) : Core sb none I J Φ c Y (.boot s.disk) :=
  h.forget rfl fun _ _ hv => absurd hv Bool.false_ne_true

theorem Core.load (h : Core sb none I I Φ c Y s) (ht : (I w).type ≠ 0) :
    Core sb none I I Φ c Y (s.load w (I w)) := by
  refine ⟨h.disk, h.same, fun i hi hne hv => ?_, h.files, h.filled, h.bits, h.nodup, h.range⟩
  by_cases hiw : i = w
  · rw [hiw]
    exact ⟨update_self .., ht⟩
  · have hv' : s.valid i = true := (update_of_ne hiw _ _).symm.trans hv
    obtain ⟨hmem, htype⟩ := h.cache i hi hne hv'
    exact ⟨(update_of_ne hiw _ _).trans hmem, htype⟩

theorem Settled.adopt (h : Settled sb I Φ s) (hw : w < sb.ninodes) (hfree : (I w).type = 0)
    (ht : x.type ≠ 0) (hf : x.Fits) (hsize : x.size = 0) (haddrs : x.addrs = fun _ => 0) :
    Settled sb (update I w x) (update Φ w fun _ => zeros)
      (s.write (sb.iblock w) (putDinode · (w % IPB) x)) := by
  have hslot : slot x s.disk = fun _ => 0 := by
    funext k
    rw [slot, haddrs]
    simp
  have hopen : Core sb (some w) I I Φ (fun i => cdiv (I i).size) 0 (s.load w x) :=
    ⟨h.disk, fun _ _ _ => rfl, fun i hi hiw hv => by
      have hne : i ≠ w := fun hc => hiw (hc ▸ rfl)
      have hv' : s.valid i = true := (update_of_ne hne _ _).symm.trans hv
      rw [show (s.load w x).inode i = s.inode i from update_of_ne hne _ _]
      exact h.cache i hi (Option.some_ne_none i) hv', h.files, h.filled, h.bits, h.nodup, h.range⟩
  have hcore : Core sb (some w) I (update I w x) (update Φ w fun _ => zeros)
      (update (fun i => cdiv (I i).size) w 0) 0 (s.load w x) := hopen.replace hw (.refl _)
    (fun _ k => by rw [blockOf, show (s.load w x).disk = s.disk from rfl, hslot, if_pos rfl])
    (fun _ => ⟨fun k _ => by
      rw [show (s.load w x).disk = s.disk from rfl, hslot]
      simp, by rw [haddrs]; simp, Nat.zero_le _⟩)
    (by
      rw [show (s.load w x).disk = s.disk from rfl, own_free hfree, own_of_ne ht, refs, hslot,
        haddrs, blocks_zero, nz, if_pos rfl, zero_add, zero_add])
  have hself : update I w x w = x := update_self ..
  have hwork : Work sb w I (update I w x) (update Φ w fun _ => zeros)
      (update (fun i => cdiv (I i).size) w 0) 0 (s.load w x) :=
    ⟨hcore, hw, update_self .., by rw [hself]; exact update_self ..,
      by rwa [hself], by rwa [hself]⟩
  have hflush := hwork.flush
  have hmem : (s.load w x).inode w = x := update_self ..
  rw [hmem] at hflush
  have hc : (fun i => cdiv (update I w x i).size) = update (fun i => cdiv (I i).size) w 0 := by
    funext i
    by_cases hi : i = w
    · rw [hi, update_self, update_self, hsize]
      rfl
    · rw [update_of_ne hi, update_of_ne hi]
  rw [Settled, hc]
  refine hflush.forget rfl fun i hi hv => ?_
  have hiw : i ≠ w := by
    rintro rfl
    exact (h.cache i hi (Option.some_ne_none i) hv).2 hfree
  exact ⟨(update_of_ne hiw _ _).trans hv, (update_of_ne hiw _ _).symm⟩

theorem Core.work (h : Core sb none I I Φ c Y s) (hw : w < sb.ninodes) (hv : s.valid w = true) :
    Work sb w I I Φ c Y s := by
  obtain ⟨hmem, htype⟩ := h.cache w hw (Option.some_ne_none w) hv
  refine ⟨⟨h.disk, fun i hi _ => rfl, fun i hi _ => h.cache i hi (Option.some_ne_none i), h.files,
    h.filled, h.bits, h.nodup, h.range⟩, hw, hv, hmem, htype, ?_⟩
  rw [← h.disk w hw]
  exact Super.dinode_fits

theorem Settled.load (h : Settled sb I Φ s) (ht : (I w).type ≠ 0) :
    Settled sb I Φ (s.load w (I w)) := Core.load h ht

theorem Settled.work (h : Settled sb I Φ s) (hw : w < sb.ninodes) (hv : s.valid w = true) :
    Work sb w I I Φ (fun i => cdiv (I i).size) 0 s := Core.work h hw hv

end

structure Beside (w : ℕ) (s₀ s : State) : Prop where
  ref : s.ref = s₀.ref
  valid : s.valid = s₀.valid
  inode : ∀ i, i ≠ w → s.inode i = s₀.inode i

section
variable {sb : Super} {w : ℕ} {s0 : State}

theorem Beside.setInode {s : State} (h : Beside w s0 s) (x : Dinode) :
    Beside w s0 (s.setInode w x) :=
  ⟨h.ref, h.valid, fun i hi => (update_of_ne hi _ _).trans (h.inode i hi)⟩

theorem keeps_logWrite (b : ℕ) (f : Block → Block) :
    Prog.Keeps (Beside w s0) (fun _ => Beside w s0) (logWrite b f) :=
  .modify fun _ h => ⟨h.ref, h.valid, h.inode⟩

theorem keeps_ballocLoop (turns k : ℕ) :
    Prog.Keeps (Beside w s0) (fun _ => Beside w s0) (ballocLoop sb turns k) := by
  induction turns generalizing k with
  | zero => exact .panic fun _ h => h
  | succ turns ih =>
    unfold ballocLoop
    refine Prog.Triple.ite (fun _ => ?_) fun _ => .panic fun _ h => h
    refine Prog.Keeps.bind (.read _) fun blk => ?_
    cases freeBit sb blk (k * BPB) with
    | none => exact ih (k + 1)
    | some bi =>
      exact .bind (keeps_logWrite _ _) fun _ => .bind (keeps_logWrite _ _) fun _ => .pure _

theorem keeps_addrOf (k : ℕ) : Prog.Keeps (Beside w s0) (fun _ => Beside w s0) (addrOf sb w k) := by
  unfold addrOf
  refine .bind (.read _) fun addr => .ite ?_ (.pure _)
  exact .bind (keeps_ballocLoop _ _) fun a =>
    .bind (.modify fun _ h => h.setInode _) fun _ => .pure _

theorem keeps_entryOf (ind k : ℕ) :
    Prog.Keeps (Beside w s0) (fun _ => Beside w s0) (entryOf sb ind k) := by
  unfold entryOf
  refine .bind (.read _) fun addr => .ite ?_ (.pure _)
  exact .bind (keeps_ballocLoop _ _) fun a => .bind (keeps_logWrite _ _) fun _ => .pure _

theorem keeps_bmap (bn : ℕ) : Prog.Keeps (Beside w s0) (fun _ => Beside w s0) (bmap sb w bn) := by
  unfold bmap
  refine .ite (keeps_addrOf bn) (.ite ?_ (.panic fun _ h => h))
  exact .bind (keeps_addrOf _) fun ind => keeps_entryOf ind _

theorem keeps_writeLoop (turns off : ℕ) (src : List UInt8) :
    Prog.Keeps (Beside w s0) (fun _ => Beside w s0) (writeLoop sb w turns off src) := by
  induction turns generalizing off src with
  | zero => exact .pure _
  | succ turns ih =>
    unfold writeLoop
    exact .ite (.pure _) (.bind (keeps_bmap _) fun a => .bind (keeps_logWrite _ _) fun _ => ih _ _)

theorem keeps_writei (dev : Option ℕ) (src : List UInt8) (off n : UInt32) :
    Prog.Keeps (Beside w s0) (fun _ => Beside w s0) (writei sb dev w src off n) := by
  unfold writei
  refine .bind (.read _) fun x => .ite (.pure _) (.ite (.pure _) (.ite (.pure _) ?_))
  refine .bind (keeps_writeLoop _ _ _) fun stop =>
    .bind (.read _) fun size => .bind ?_ fun _ => .pure _
  exact .ite (.bind (.modify fun _ h => h.setInode _) fun _ =>
    .modify fun _ h => ⟨h.ref, h.valid, h.inode⟩) (.pure _)

end

variable {sb : Super} {w : ℕ} {I : ℕ → Dinode} {Φ : ℕ → ℕ → Block} {s0 s : State}
  {off n : UInt32} {src : List UInt8}

theorem toNat_add_of_not_lt (h : ¬off + n < off) : (off + n).toNat = off.toNat + n.toNat := by
  rw [UInt32.lt_iff_toNat_lt, UInt32.toNat_add] at h
  rw [UInt32.toNat_add]
  have := off.toNat_lt
  have := n.toNat_lt
  omega

theorem lt_of_add_lt (h : off + n < off) : 2 ^ 32 ≤ off.toNat + n.toNat := by
  rw [UInt32.lt_iff_toNat_lt, UInt32.toNat_add] at h
  omega

def Refused (x : Dinode) (off n : ℕ) : Prop := x.size < off ∨ MAXFILE * BSIZE < off + n

instance (x : Dinode) (off n : ℕ) : Decidable (Refused x off n) :=
  inferInstanceAs (Decidable (_ ∨ _))

def Dinode.stretch (x : Dinode) (stop : ℕ) : Dinode := { x with size := max x.size stop }

def LoggedAtMost (k : ℕ) (s₀ s : State) : Prop :=
  ∃ l, s.logged = l ++ s₀.logged ∧ l.toFinset.card ≤ k

def grown (sb : Super) (I : ℕ → Dinode) (w stop : ℕ) : ℕ :=
  used sb I (update (fun i => cdiv (I i).size) w (max (cdiv (I w).size) (cdiv stop)))

theorem Logs.atMost {D : Finset ℕ} {m d : ℕ} (h : Logs w D m s0 s) (hD : D.card ≤ d) :
    LoggedAtMost (d + m + 1) s0 s := by
  obtain ⟨l, B, hl, hB, hmem⟩ := h.blocks
  refine ⟨l, hl, ?_⟩
  have hsub : l.toFinset ⊆ (D ∪ B) ∪ {(s.inode w).addrs NDIRECT} := by
    intro b hb
    rw [mem_union, mem_union, Finset.mem_singleton, or_assoc]
    exact (hmem b (List.mem_toFinset.1 hb)).imp_right fun h => h.imp_right And.right
  calc l.toFinset.card ≤ ((D ∪ B) ∪ {(s.inode w).addrs NDIRECT}).card := Finset.card_le_card hsub
    _ ≤ (D ∪ B).card + 1 := card_union_le _ _
    _ ≤ D.card + B.card + 1 := Nat.add_le_add_right (card_union_le D B) 1
    _ ≤ d + m + 1 := by omega

theorem LoggedAtMost.write {k b : ℕ} (h : LoggedAtMost k s0 s) (f : Block → Block) :
    LoggedAtMost (k + 1) s0 (s.write b f) := by
  obtain ⟨l, hl, hk⟩ := h
  refine ⟨b :: l, by rw [List.cons_append, ← hl]; rfl, ?_⟩
  rw [List.toFinset_cons]
  exact (Finset.card_insert_le _ _).trans (Nat.succ_le_succ hk)

theorem LoggedAtMost.mono {k k' : ℕ} (h : LoggedAtMost k s0 s) (hk : k ≤ k') :
    LoggedAtMost k' s0 s := by
  obtain ⟨l, hl, hcard⟩ := h
  exact ⟨l, hl, hcard.trans hk⟩

theorem cdiv_max (n m : ℕ) : cdiv (max n m) = max (cdiv n) (cdiv m) := by
  unfold cdiv
  simp only [BSIZE]
  omega

theorem Work.readi {J : ℕ → Dinode} {c : ℕ → ℕ} {Y : Multiset ℕ} (h : Work sb w I J Φ c Y s0)
    (hc : (J w).size ≤ c w * BSIZE) (hdev : (J w).type ≠ T_DEV) (dev : Option (List UInt8)) :
    Triple (· = s0) (readi sb dev w off n)
      (fun r s => r = (if (J w).size < off.toNat ∨ off + n < off then none
        else some (stream (Φ w) off.toNat (min n.toNat ((J w).size - off.toNat)))) ∧ s = s0)
      Never := by
  unfold Fs.readi
  refine .bind (R := fun x s => x = J w ∧ s = s0)
    (.read fun s hs => ⟨by rw [hs, h.mem], hs⟩) fun x => .of_and fun hx => ?_
  subst hx
  rw [if_neg hdev]
  refine .ite (fun hout => .pure fun s hs => ⟨(if_pos hout).symm, hs⟩) fun hin => ?_
  rw [not_or, not_lt] at hin
  have hadd := toNat_add_of_not_lt hin.2
  have hmin : (if (J w).size < (off + n).toNat then (J w).size - off.toNat else n.toNat) =
      min n.toNat ((J w).size - off.toNat) := by
    rw [hadd]
    split <;> omega
  rw [hmin]
  refine .bind (readLoop_spec h le_rfl (by omega)) fun bytes =>
    .of_and fun hbytes => .pure fun s hs => ⟨?_, hs⟩
  rw [if_neg (by rw [not_or, not_lt]; exact hin), hbytes]

theorem readi_spec (h : Settled sb I Φ s0) (hw : w < sb.ninodes) (hv : s0.valid w = true)
    (hdev : (I w).type ≠ T_DEV) (dev : Option (List UInt8)) :
    Triple (· = s0) (readi sb dev w off n)
      (fun r s => r = (if (I w).size < off.toNat ∨ off + n < off then none
        else some (stream (Φ w) off.toNat (min n.toNat ((I w).size - off.toNat)))) ∧ s = s0)
      Never :=
  (h.work hw hv).readi (le_cdiv_mul _) hdev dev

theorem cdiv_stretch {x : Dinode} {stop : ℕ} (hx : x.size = max (I w).size stop) :
    (fun i => cdiv (update I w x i).size) =
      update (fun i => cdiv (I i).size) w (max (cdiv (I w).size) (cdiv stop)) := by
  funext i
  by_cases hi : i = w
  · rw [hi, update_self, update_self, hx, cdiv_max]
  · rw [update_of_ne hi, update_of_ne hi]

theorem writei_spec (h : Settled sb I Φ s0) (hw : w < sb.ninodes) (hv : s0.valid w = true)
    (hdev : (I w).type ≠ T_DEV) (hsrc : src.length = n.toNat) (dev : Option ℕ) :
    Triple (· = s0) (writei sb dev w src off n)
      (fun r s => (Refused (I w) off.toNat n.toNat ∧ r = none ∧ s = s0) ∨
        (¬Refused (I w) off.toNat n.toNat ∧ r = some n.toNat ∧
          ∃ x, x = { (I w).stretch (off.toNat + n.toNat) with addrs := x.addrs } ∧
            Settled sb (update I w x)
              (update Φ w (splice (Φ w) off.toNat src)) s ∧
            LoggedAtMost (touched off.toNat n.toNat + (blks (max (cdiv (I w).size)
              (cdiv (off.toNat + n.toNat))) - blks (cdiv (I w).size)) + 2) s0 s))
      fun e s => e = .outOfBlocks ∧ ¬Refused (I w) off.toNat n.toNat ∧
        sb.nblocks < used sb I (update (fun i => cdiv (I i).size) w
          (max (cdiv (I w).size) (cdiv (off.toNat + n.toNat)))) ∧
        LoggedAtMost (touched off.toNat n.toNat + (blks (max (cdiv (I w).size)
          (cdiv (off.toNat + n.toNat))) - blks (cdiv (I w).size)) + 2) s0 s := by
  have hwork := h.work hw hv
  have hmaxlt : MAXFILE * BSIZE < 2 ^ 32 := by decide
  unfold writei
  refine .bind (R := fun x s => x = I w ∧ s = s0)
    (.read fun s hs => ⟨by rw [hs, hwork.mem], hs⟩) fun x => .of_and fun hx => ?_
  subst hx
  rw [if_neg hdev]
  refine .ite (fun hout => .pure fun s hs => .inl ⟨?_, rfl, hs⟩) fun hin => ?_
  · rcases hout with hgap | hwrap
    · exact .inl hgap
    · have := lt_of_add_lt hwrap
      exact .inr (by omega)
  rw [not_or, not_lt] at hin
  rw [toNat_add_of_not_lt hin.2]
  refine .ite (fun hout => .pure fun s hs => .inl ⟨.inr hout, rfl, hs⟩) fun hmax => ?_
  rw [not_lt] at hmax
  have hok : ¬Refused (I w) off.toNat n.toNat := by
    rintro (hgap | hbig)
    · exact absurd hgap (not_lt.2 hin.1)
    · exact absurd hbig (not_lt.2 hmax)
  have htake : src.take n.toNat = src := List.take_of_length_le hsrc.le
  have hloop := writeLoop_spec hwork hsrc.le (hin.1.trans (le_cdiv_mul _)) (hsrc ▸ hmax)
  rw [hsrc, Multiset.card_zero, Nat.add_zero] at hloop
  rw [htake]
  refine .bind (hloop.err fun e s ⟨he, hused, D, hD, hl⟩ => ⟨he, hok, hused,
    (hl.atMost hD).mono (by omega)⟩)
    fun stop => .of_and fun hstop => .of_state fun s1 ⟨x, D, hx, hsame, hw1, hD, hl⟩ => ?_
  subst hstop
  have hself : update I w x w = x := update_self ..
  have hsize : x.size = (I w).size := by rw [hx]
  have hlogged := hl.atMost hD
  refine .bind (R := fun m s => m = (I w).size ∧ s = s1)
    (.read fun s hs => ⟨by rw [hs, hw1.mem, hself, hsize], hs⟩) fun m => .of_and fun hm => ?_
  subst hm
  refine .bind (R := fun _ s => ∃ y,
      y = { (I w).stretch (off.toNat + n.toNat) with addrs := y.addrs } ∧
      Settled sb (update I w y) (update Φ w (splice (Φ w) off.toNat src)) s ∧
      LoggedAtMost (touched off.toNat n.toNat + (blks (max (cdiv (I w).size)
        (cdiv (off.toNat + n.toNat))) - blks (cdiv (I w).size)) + 2) s0 s)
    (.ite (fun hgrow => ?_) fun hstay => .pure fun s hs => ?_)
    fun _ => .pure fun s hs => .inr ⟨hok, rfl, hs⟩
  · -- the file grows, and its inode is written back
    obtain ⟨y, hy⟩ : ∃ y, y = { x with size := off.toNat + n.toNat } := ⟨_, rfl⟩
    have hyx : y = { (I w).stretch (off.toNat + n.toNat) with addrs := y.addrs } := by
      rw [hy, hx, Dinode.stretch, max_eq_right hgrow.2.le]
    have hyself : update (update I w x) w y = update I w y :=
      update_idem ..
    have hfits : y.Fits := by
      have hxf := hw1.fits
      rw [hself] at hxf
      rw [hy]
      exact ⟨hxf.type, hxf.major, hxf.minor, hxf.nlink, hmax.trans_lt hmaxlt, hxf.addrs, hxf.past⟩
    have htype := hw1.type
    rw [hself] at htype
    have hw2 := hw1.become (x := y) (by rw [hself, hy]) (by rw [hy]; exact htype) hfits
    rw [hyself] at hw2
    refine .bind (R := fun _ s => s = s1.setInode w y)
      (.modify fun s hs => by rw [hs, hw1.mem, hself, hy]) fun _ => .modify fun s hs => ?_
    subst hs
    refine ⟨y, hyx, ?_, .write (s := s1.setInode w y) hlogged
      (putDinode · (w % IPB) ((s1.setInode w y).inode w))⟩
    have hflush := hw2.flush
    rw [Settled, cdiv_stretch (show y.size = max (I w).size (off.toNat + n.toNat) by rw [hyx]; rfl)]
    exact hflush
  · -- within the file nothing is allocated
    have hend : off.toNat + n.toNat ≤ (I w).size := by
      by_cases hn : 0 < n.toNat
      · exact not_lt.1 fun hlt => hstay ⟨hn, hlt⟩
      · omega
    have hxI : x = I w := hsame (cdiv_mono hend)
    subst hs
    refine ⟨x, ?_, ?_, hlogged.mono (Nat.le_succ _)⟩
    · rw [Dinode.stretch, max_eq_left hend, hxI]
    rw [Settled, cdiv_stretch (show x.size = max (I w).size (off.toNat + n.toNat) by
      rw [hxI, max_eq_left hend])]
    have hcore := hw1.core
    rw [hxI, update_eq_self] at hcore ⊢
    refine hcore.close rfl fun _ => ⟨?_, hwork.type⟩
    rw [hw1.mem, hself, hxI]

end Xv6.Fs
