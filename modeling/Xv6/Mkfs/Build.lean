import Xv6.Fs.Content
import Xv6.Mkfs.Image

namespace Xv6.Mkfs

open Lib Fs Function

def area : Super where
  size := sb.size
  nblocks := sb.nblocks
  ninodes := ninodeblocks * IPB
  nlog := sb.nlog
  logstart := sb.logstart
  inodestart := sb.inodestart
  bmapstart := sb.bmapstart
  boot_le := sb.boot_le
  log_le := sb.log_le
  inode_le := by decide
  bmap_le := sb.bmap_le
  size_lt := sb.size_lt

def Img.full (st : Img) : ℕ → Block :=
  update st.disk sb.bmapstart (bitmap st.freeblock)

structure Img.Sane (st : Img) : Prop where
  len : st.len = FSSIZE
  lo : nmeta ≤ st.freeblock
  hi : st.freeblock ≤ FSSIZE
  blank : ∀ b, st.freeblock ≤ b → st.disk b = zeros

def Img.store (st : Img) (b : ℕ) (v : Block) : Img :=
  { st with disk := update st.disk b v }

section
variable {st : Img} {b used : ℕ} {v : Block}

theorem sector_of_lt (h : b < FSSIZE) : sector b = b := by
  unfold sector
  simp only [FSSIZE, BSIZE] at *
  omega

theorem sector_freeblock : sector FSSIZE = FSSIZE := by decide

section
variable (hlen : st.len = FSSIZE)
include hlen

theorem rsect_ok (hb : b < FSSIZE) : (rsect b).result st = (.ok (st.disk b), st) := by
  unfold rsect
  show Prog.result (if sector b < st.len then _ else _) st = _
  rw [sector_of_lt hb, hlen, if_pos hb]
  rfl

theorem rsect_fails (hb : sector b = FSSIZE) : (rsect b).result st = (.error .failed, st) := by
  unfold rsect
  show Prog.result (if sector b < st.len then _ else _) st = _
  rw [hb, hlen, if_neg (lt_irrefl _)]
  rfl

theorem wsect_eq (hb : b < FSSIZE) : st.wsect b v = st.store b v := by
  unfold Img.wsect Img.store
  rw [sector_of_lt hb, hlen, max_eq_left hb, ← hlen]

end

theorem getBit_bitmap (h : used ≤ BPB) (b : ℕ) : getBit (bitmap used) b = decide (b < used) := by
  induction used with
  | zero =>
    rw [decide_eq_false (Nat.not_lt_zero b)]
    show ((byte (zeros : Block) (b / 8)).toNat.testBit (b % 8)) = false
    rw [byte_zeros]
    exact Nat.zero_testBit _
  | succ used ih =>
    have hlt : used / 8 < BSIZE := by
      simp only [BPB, BSIZE] at *
      omega
    rw [bitmap, List.range_succ, List.foldl_append]
    show getBit (setBit (bitmap used) used) b = _
    rw [getBit_setBit _ _ hlt, ih (by omega), ← Bool.decide_or]
    exact decide_eq_decide.2 (by omega)

theorem setBit_bitmap (used : ℕ) : setBit (bitmap used) used = bitmap (used + 1) := by
  rw [bitmap, bitmap, List.range_succ, List.foldl_append]
  rfl

theorem Img.full_update (hb : b ≠ sb.bmapstart) : (st.store b v).full = update st.full b v := by
  unfold Img.full
  exact update_comm hb _ _ _

theorem Img.full_of_ne (hb : b ≠ sb.bmapstart) : st.full b = st.disk b :=
  update_of_ne hb _ _

theorem Img.full_bmap : st.full sb.bmapstart = bitmap st.freeblock := update_self ..

theorem Img.Sane.store (h : st.Sane) (hb : b < st.freeblock) : (st.store b v).Sane := by
  refine ⟨h.len, h.lo, h.hi, fun a ha => ?_⟩
  have hne : a ≠ b := fun hab => absurd (hab ▸ ha) (not_le.2 hb)
  exact (update_of_ne hne _ _).trans (h.blank a ha)

end

section
variable {st : Img} {s : State}

def Img.next (st : Img) : Img := { st with freeblock := st.freeblock + 1 }

theorem nextBlock_result : nextBlock.result st = (.ok st.freeblock, st.next) := rfl

theorem Img.Sane.next (h : st.Sane) (hlt : st.freeblock < FSSIZE) : st.next.Sane :=
  ⟨h.len, Nat.le_succ_of_le h.lo, hlt, fun b hb => h.blank b (Nat.le_of_succ_le hb)⟩

variable (h : st.Sane) (hs : s.disk = st.full)
include h hs

theorem inUse_full {b : ℕ} (hb : b < FSSIZE) : area.inUse s.disk b = decide (b < st.freeblock) := by
  have hlt : b < BPB := hb.trans (by decide)
  have hbb : area.bblock b = sb.bmapstart := by
    show b / BPB + sb.bmapstart = _
    rw [Nat.div_eq_of_lt hlt, Nat.zero_add]
  rw [Super.inUse, hbb, hs, Img.full_bmap, Nat.mod_eq_of_lt hlt]
  exact getBit_bitmap (h.hi.trans (by decide)) b

theorem balloc_result (hlt : st.freeblock < FSSIZE) :
    (Fs.balloc area).result s = (.ok st.freeblock, s.take area st.freeblock) := by
  have hspec := (show Triple (· = s) (Fs.balloc area) _ _ from balloc_spec).ends s rfl
  rcases hr : (Fs.balloc area).result s with ⟨_ | a, t⟩
  · rw [hr] at hspec
    have hall := hspec.2.2 st.freeblock hlt
    rw [inUse_full h hs hlt, decide_eq_true_eq] at hall
    exact absurd hall (lt_irrefl _)
  rw [hr] at hspec
  obtain ⟨ha, hfree, hbefore, ht⟩ := hspec
  rw [inUse_full h hs ha, decide_eq_false_iff_not, not_lt] at hfree
  have heq : a = st.freeblock := by
    refine le_antisymm (not_lt.1 fun hgt => ?_) hfree
    have hin := hbefore st.freeblock hgt
    rw [inUse_full h hs hlt, decide_eq_true_eq] at hin
    exact lt_irrefl _ hin
  rw [ht, heq]

theorem balloc_error (hge : FSSIZE ≤ st.freeblock) :
    (Fs.balloc area).result s = (.error .outOfBlocks, s) := by
  have hspec := (show Triple (· = s) (Fs.balloc area) _ _ from balloc_spec).ends s rfl
  rcases hr : (Fs.balloc area).result s with ⟨e | a, t⟩
  · rw [hr] at hspec
    rw [hspec.1, hspec.2.1]
  rw [hr] at hspec
  obtain ⟨ha, hfree, -, -⟩ := hspec
  rw [inUse_full h hs ha, decide_eq_false_iff_not] at hfree
  have ha : a < FSSIZE := ha
  omega

theorem take_full (hlt : st.freeblock < FSSIZE) :
    (s.take area st.freeblock).disk = st.next.full := by
  have hb : st.freeblock < BPB := hlt.trans (by decide)
  have hne : st.freeblock ≠ sb.bmapstart := by
    have hlo := h.lo
    have : sb.bmapstart < nmeta := by decide
    omega
  have hbb : area.bblock st.freeblock = sb.bmapstart := by
    show st.freeblock / BPB + sb.bmapstart = _
    rw [Nat.div_eq_of_lt hb, Nat.zero_add]
  show update (update s.disk (area.bblock st.freeblock)
    (setBit (s.disk (area.bblock st.freeblock)) (st.freeblock % BPB))) st.freeblock zeros = _
  rw [hbb, Nat.mod_eq_of_lt hb, hs, Img.full_bmap, setBit_bitmap, Img.full, update_idem]
  refine update_eq_self_iff.2 ?_
  rw [update_of_ne hne, h.blank _ le_rfl]

end

structure Follows (st₀ st : Img) (s : State) : Prop where
  sane : st.Sane
  disk : s.disk = st.full
  freeinode : st.freeinode = st₀.freeinode
  inodeBlocks : st.inodeBlocks = st₀.inodeBlocks

section
variable {st₀ st : Img} {s : State} {w k ind bn : ℕ} {I J : ℕ → Dinode} {Φ : ℕ → ℕ → Block}
  {c : ℕ → ℕ} (h : Follows st₀ st s)
include h

theorem Follows.next (hlt : st.freeblock < FSSIZE) :
    Follows st₀ st.next (s.take area st.freeblock) :=
  ⟨h.sane.next hlt, take_full h.sane h.disk hlt, h.freeinode, h.inodeBlocks⟩

theorem Follows.store {b : ℕ} (hlo : nmeta ≤ b) (hb : b < st.freeblock)
    (f : Block → Block) : Follows st₀ (st.store b (f (st.disk b))) (s.write b f) := by
  have hne : b ≠ sb.bmapstart := by
    have : sb.bmapstart < nmeta := by decide
    omega
  refine ⟨h.sane.store hb, ?_, h.freeinode, h.inodeBlocks⟩
  rw [Img.full_update hne, ← h.disk]
  show update s.disk b (f (s.disk b)) = _
  rw [h.disk, Img.full_of_ne hne]

theorem addrOf_sim (w k : ℕ) :
    (∃ a s' st', (Fs.addrOf area w k).result s = (.ok a, s') ∧
      (addrOf (s.inode w) k).result st = (.ok (s'.inode w, a), st') ∧ Follows st₀ st' s' ∧
      (s'.inode w).addrs k = a ∧ st.freeblock ≤ st'.freeblock ∧
      ((s.inode w).addrs k = 0 → nmeta ≤ a ∧ a < st'.freeblock)) ∨
    (∃ e, (Fs.addrOf area w k).result s = (.error e, s)) ∧
      ∃ x st', (addrOf (s.inode w) k).result st = (.ok (x, FSSIZE), st') ∧ st'.len = FSSIZE := by
  unfold Fs.addrOf addrOf
  by_cases hz : (s.inode w).addrs k = 0
  · have hkernel : ∀ y : ℕ → Fs.Op ℕ, (.read (fun s : State => (s.inode w).addrs k) >>= fun a =>
        if a = 0 then Fs.balloc area >>= y else pure a).result s =
        (Fs.balloc area >>= y).result s := by
      intro y
      rw [result_read_bind, if_pos hz]
    rw [if_pos hz, result_bind_ok nextBlock_result, hkernel]
    by_cases hlt : st.freeblock < FSSIZE
    · rw [result_bind_ok (balloc_result h.sane h.disk hlt)]
      refine .inl ⟨st.freeblock, _, st.next, rfl, ?_, ?_, ?_, Nat.le_succ _, fun _ => ?_⟩
      · rw [show ((s.take area st.freeblock).setInode w _).inode w = _ from update_self ..]
        rfl
      · have hnext := h.next hlt
        exact ⟨hnext.sane, hnext.disk, hnext.freeinode, hnext.inodeBlocks⟩
      · rw [show ((s.take area st.freeblock).setInode w _).inode w = _ from update_self ..]
        exact setAddr_self ..
      · exact ⟨h.sane.lo, Nat.lt_succ_self _⟩
    · have heq : st.freeblock = FSSIZE := le_antisymm h.sane.hi (not_lt.1 hlt)
      rw [result_bind_error (balloc_error h.sane h.disk (not_lt.1 hlt))]
      refine .inr ⟨⟨_, rfl⟩, (s.inode w).setAddr k st.freeblock, st.next, ?_, h.sane.len⟩
      rw [← heq]
      rfl
  · refine .inl ⟨(s.inode w).addrs k, s, st, ?_, ?_, h, rfl, le_rfl, fun h0 => absurd h0 hz⟩
    · rw [result_read_bind, if_neg hz]
      rfl
    · rw [if_neg hz]
      rfl

theorem entryOf_sim (hlo : nmeta ≤ ind) (hhi : ind < st.freeblock)
    (k : ℕ) :
    (∃ a s' st', (Fs.entryOf area ind k).result s = (.ok a, s') ∧
      (entryOf ind k).result st = (.ok a, st') ∧ Follows st₀ st' s' ∧ s'.inode = s.inode) ∨
    (∃ e s', (Fs.entryOf area ind k).result s = (.error e, s')) ∧
      ∃ st', (entryOf ind k).result st = (.ok FSSIZE, st') ∧ st'.len = FSSIZE := by
  have hne : ind ≠ sb.bmapstart := by
    have : sb.bmapstart < nmeta := by decide
    omega
  have hsize : ind < FSSIZE := hhi.trans_le h.sane.hi
  have hblk : s.disk ind = st.disk ind := by rw [h.disk, Img.full_of_ne hne]
  unfold Fs.entryOf entryOf
  rw [result_bind_ok (rsect_ok h.sane.len hsize), result_read_bind, hblk]
  by_cases hz : word (st.disk ind) k = 0
  · rw [if_pos hz, if_pos hz, result_bind_ok nextBlock_result]
    by_cases hlt : st.freeblock < FSSIZE
    · have hnext := h.next hlt
      have hstore := hnext.store (b := ind) hlo (Nat.lt_succ_of_lt hhi) (setWord · k st.freeblock)
      rw [result_bind_ok (balloc_result h.sane h.disk hlt)]
      refine .inl ⟨st.freeblock, _, _, rfl, ?_, hstore, rfl⟩
      rw [← wsect_eq hnext.sane.len hsize]
      rfl
    · have heq : st.freeblock = FSSIZE := le_antisymm h.sane.hi (not_lt.1 hlt)
      rw [result_bind_error (balloc_error h.sane h.disk (not_lt.1 hlt))]
      refine .inr ⟨⟨_, _, rfl⟩, st.next.wsect ind (setWord (st.disk ind) k st.freeblock), ?_, ?_⟩
      · rw [← heq]
        rfl
      · rw [wsect_eq (show st.next.len = FSSIZE from h.sane.len) hsize]
        exact h.sane.len
  · rw [if_neg hz, if_neg hz]
    exact .inl ⟨_, s, st, rfl, rfl, h, rfl⟩

theorem Follows.below (hcore : Core area (some w) I J Φ c 0 s) {b : ℕ}
    (hb : b ∈ total area J s.disk) : nmeta ≤ b ∧ b < st.freeblock := by
  have hmem := Multiset.mem_add.2 (.inl hb : b ∈ total area J s.disk ∨ b ∈ (0 : Multiset ℕ))
  obtain ⟨hlo, hhi⟩ := hcore.range b hmem
  have hin := (hcore.bits b hhi).2 (.inr hmem)
  rw [inUse_full h.sane h.disk hhi, decide_eq_true_eq] at hin
  exact ⟨hlo, hin⟩

theorem slotOf_sim (hw : Work area w I J Φ c 0 s) (hmax : bn < MAXFILE) :
    (∃ a s' st', (Fs.bmap area w bn).result s = (.ok a, s') ∧
      (slotOf (s.inode w) bn).result st = (.ok (s'.inode w, a), st') ∧ Follows st₀ st' s') ∨
    (∃ e s', (Fs.bmap area w bn).result s = (.error e, s')) ∧
      ((∃ e st', (slotOf (s.inode w) bn).result st = (.error e, st')) ∨
        ∃ x st', (slotOf (s.inode w) bn).result st = (.ok (x, FSSIZE), st') ∧
          st'.len = FSSIZE) := by
  unfold Fs.bmap slotOf
  by_cases hd : bn < NDIRECT
  · rw [if_pos hd, if_pos hd]
    rcases addrOf_sim h w bn with ⟨a, s', st', hk, hm, hf, -⟩ | ⟨⟨e, hk⟩, x, st', hm⟩
    · exact .inl ⟨a, s', st', hk, hm, hf⟩
    · exact .inr ⟨⟨e, s, hk⟩, .inr ⟨x, st', hm⟩⟩
  have hin : bn - NDIRECT < NINDIRECT := Nat.sub_lt_left_of_lt_add (not_lt.1 hd) hmax
  rw [if_neg hd, if_neg hd, if_pos hin]
  rcases addrOf_sim h w NDIRECT with ⟨ind, s1, st1, hk, hm, hf, hind, hle, hnew⟩ |
    ⟨⟨e, hk⟩, x, st', hm, hlen⟩
  · have hrange : nmeta ≤ ind ∧ ind < st1.freeblock := by
      by_cases hz : (s.inode w).addrs NDIRECT = 0
      · exact hnew hz
      have hsame : ind = (s.inode w).addrs NDIRECT := by
        have hpresent : Triple (· = s) (Fs.addrOf area w NDIRECT) _ _ :=
          addrOf_present (J := fun _ => s.inode w) rfl hz Never
        exact (hpresent.of_ok rfl hk).1
      rw [hw.mem] at hz hsame
      have hb := h.below hw.core (indirect_mem_total hw.lt hw.type hz)
      rw [hsame]
      exact ⟨hb.1, hb.2.trans_le hle⟩
    rw [result_bind_ok hk, result_bind_ok hm]
    rcases entryOf_sim hf hrange.1 hrange.2 (bn - NDIRECT) with
      ⟨a, s', st', hk', hm', hf', hin'⟩ | ⟨⟨e, s', hk'⟩, st', hm', hlen⟩
    · refine .inl ⟨a, s', st', hk', ?_, hf'⟩
      rw [result_bind_ok hm', hin']
      rfl
    · refine .inr ⟨⟨e, s', hk'⟩, .inr ⟨s1.inode w, st', ?_, hlen⟩⟩
      rw [result_bind_ok hm']
      rfl
  · refine .inr ⟨⟨e, s, result_bind_error hk⟩, .inl ⟨.failed, st', ?_⟩⟩
    rw [result_bind_ok hm]
    refine result_bind_error ?_
    unfold entryOf
    exact result_bind_error (rsect_fails hlen sector_freeblock)

end

variable {st₀ st : Img} {s : State} {w off turns : ℕ} {I J : ℕ → Dinode} {Φ : ℕ → ℕ → Block}
  {c : ℕ → ℕ} {p : List UInt8}

theorem iappendLoop_sim (h : Follows st₀ st s) (hw : Work area w I J Φ c 0 s)
    (hn : p.length ≤ turns) (hoff : off ≤ c w * BSIZE) (hmax : off + p.length ≤ MAXFILE * BSIZE) :
    (∃ s' st', (writeLoop area w turns off p).result s = (.ok (off + p.length), s') ∧
      (iappendLoop turns (s.inode w) off p).result st =
        (.ok (s'.inode w, off + p.length), st') ∧ Follows st₀ st' s') ∨
    (∃ e s', (writeLoop area w turns off p).result s = (.error e, s')) ∧
      ∃ e st', (iappendLoop turns (s.inode w) off p).result st = (.error e, st') := by
  induction turns generalizing off p st s J Φ c with
  | zero =>
    rw [Nat.le_zero.1 hn]
    exact .inl ⟨s, st, rfl, rfl, h⟩
  | succ turns ih =>
    unfold writeLoop iappendLoop
    by_cases hz : p.length = 0
    · rw [if_pos hz, if_pos hz, hz]
      exact .inl ⟨s, st, rfl, rfl, h⟩
    have hmod : off - off / BSIZE * BSIZE = off % BSIZE := by
      simp only [BSIZE]
      omega
    have hmin : (off / BSIZE + 1) * BSIZE - off = BSIZE - off % BSIZE := by
      simp only [BSIZE]
      omega
    obtain ⟨m, hm⟩ : ∃ m, m = min p.length (BSIZE - off % BSIZE) := ⟨_, rfl⟩
    have hmn : m ≤ p.length := hm ▸ min_le_left ..
    have hpos : 0 < m := by
      simp only [BSIZE] at *
      omega
    have hbmax : off / BSIZE < MAXFILE := by
      simp only [BSIZE] at *
      omega
    have hbn : off / BSIZE ≤ c w := by
      simp only [BSIZE] at *
      omega
    have hnext : off + m ≤ (off / BSIZE + 1) * BSIZE := by
      simp only [BSIZE] at *
      omega
    have hdrop : (p.drop m).length = p.length - m := List.length_drop ..
    have hassert : (assert (off / BSIZE < MAXFILE)).result st = (.ok (), st) := by
      rw [assert, if_pos hbmax]
      rfl
    rw [if_neg hz, if_neg hz, hmod, hmin, ← hm, result_bind_ok hassert]
    rcases slotOf_sim h hw hbmax with ⟨a, s1, st1, hk, hslot, h1⟩ | ⟨⟨e, s1, hk⟩, hfail⟩
    · obtain ⟨x, hx, -, hw1, ha, -⟩ := (bmap_within hw hbn hbmax).of_ok rfl hk
      have hcw : update c w (max (c w) (off / BSIZE + 1)) w =
          max (c w) (off / BSIZE + 1) := update_self ..
      have hk1 : off / BSIZE < update c w (max (c w) (off / BSIZE + 1)) w := by
        rw [hcw]
        omega
      have hax : a = slot (update J w x w) s1.disk (off / BSIZE) := by
        rw [update_self, ha]
      have hfill := hw1.core.filled w hw1.lt hw1.type
      have hne := (hfill.slots _ hbmax).2 hk1
      have hbelow := h1.below hw1.core (slot_mem_total hw1.lt hw1.type hbmax hne)
      rw [← hax] at hbelow
      have hsize : a < FSSIZE := hbelow.2.trans_le h1.sane.hi
      have hw2 := hw1.store hk1 fun blk => patch blk (off % BSIZE) m fun k => p.getD k 0
      rw [← hax] at hw2
      have h2 := h1.store hbelow.1 hbelow.2 fun blk => patch blk (off % BSIZE) m fun k => p.getD k 0
      have hwsect : (wsect a (patch (st1.disk a) (off % BSIZE) m fun k => p.getD k 0)).result st1 =
          (.ok (), st1.store a (patch (st1.disk a) (off % BSIZE) m fun k => p.getD k 0)) := by
        rw [← wsect_eq h1.sane.len hsize]
        rfl
      rw [result_bind_ok hk, result_bind_ok hslot,
        result_bind_ok (rsect_ok h1.sane.len hsize), result_bind_ok hwsect,
        result_bind_ok (show (logWrite a _).result s1 = (.ok (), s1.write a _) from rfl)]
      have hrest := ih h2 hw2 (show (p.drop m).length ≤ turns by omega)
        (show off + m ≤ update c w (max (c w) (off / BSIZE + 1)) w * BSIZE by
          rw [hcw]; exact hnext.trans (Nat.mul_le_mul_right _ (by omega))) (by omega)
      rw [hdrop, show off + m + (p.length - m) = off + p.length by omega] at hrest
      exact hrest
    · refine .inr ⟨⟨e, s1, result_bind_error hk⟩, ?_⟩
      rcases hfail with ⟨e', st', hslot⟩ | ⟨x, st', hslot, hlen⟩
      · exact ⟨e', st', result_bind_error hslot⟩
      · refine ⟨.failed, st', ?_⟩
        rw [result_bind_ok hslot]
        exact result_bind_error (rsect_fails hlen sector_freeblock)

theorem iappendLoop_bound (turns : ℕ) (din : Dinode) (off : ℕ) (p : List UInt8)
    (hn : p.length ≤ turns) (hoff : off ≤ MAXFILE * BSIZE) :
    Triple (fun _ => True) (iappendLoop turns din off p)
      (fun _ _ => off + p.length ≤ MAXFILE * BSIZE) fun _ _ => True := by
  induction turns generalizing din off p with
  | zero =>
    rw [Nat.le_zero.1 hn]
    exact .pure fun _ _ => hoff
  | succ turns ih =>
    unfold iappendLoop
    refine .ite (fun hz => .pure fun _ _ => by rwa [hz]) fun hz => ?_
    unfold assert
    by_cases hlt : off / BSIZE < MAXFILE
    · rw [if_pos hlt]
      refine .bind (R := fun _ _ => True) (.pure fun _ h => h) fun _ => ?_
      refine .bind (.ends_somehow _) fun r => ?_
      obtain ⟨m, hm⟩ : ∃ m, m = min p.length ((off / BSIZE + 1) * BSIZE - off) := ⟨_, rfl⟩
      have hmn : m ≤ p.length := hm ▸ min_le_left ..
      have hpos : 0 < m := by
        simp only [BSIZE] at *
        omega
      have hend : off + m ≤ MAXFILE * BSIZE := by
        simp only [BSIZE] at *
        omega
      rw [← hm]
      refine .bind (.ends_somehow _) fun buf => ?_
      refine .bind (R := fun _ _ => True) (.modify fun _ h => h) fun _ => ?_
      refine (ih r.1 (off + m) (p.drop m) (by rw [List.length_drop]; omega) hend).post
        fun _ _ h => ?_
      rw [List.length_drop] at h
      omega
    · rw [if_neg hlt]
      exact .bind (R := Never) (.panic fun _ h => h) fun _ =>
        ⟨fun _ h => h.elim⟩

end Xv6.Mkfs
