import Xv6.Lib.Bits
import Xv6.Param

/-!
The on-disk format, `fs.h`.

A disk is an array of blocks. The super block says where the inode blocks
and the bitmap blocks are; the data blocks come after them. An inode on
disk is 64 bytes of an inode block, and the bitmap has one bit for each
block of the file system.

The parts do not overlap: storing an inode changes no other inode and no
bit, storing a bit changes no other bit and no inode, and storing a data
block changes neither.
-/

namespace Xv6.Fs

open Lib Function

abbrev IPB : ℕ := BSIZE / 64
abbrev BPB : ℕ := BSIZE * 8

abbrev T_DIR : ℕ := 1
abbrev T_FILE : ℕ := 2
abbrev T_DEV : ℕ := 3

structure Dinode where
  type : ℕ
  major : ℕ
  minor : ℕ
  nlink : ℕ
  size : ℕ
  addrs : ℕ → ℕ

def Dinode.new (type : ℕ) : Dinode := ⟨type, 0, 0, 0, 0, fun _ => 0⟩

structure Dinode.Fits (x : Dinode) : Prop where
  type : x.type < 2 ^ 16
  major : x.major < 2 ^ 16
  minor : x.minor < 2 ^ 16
  nlink : x.nlink < 2 ^ 16
  size : x.size < 2 ^ 32
  addrs : ∀ k, x.addrs k < 2 ^ 32
  past : ∀ k, NDIRECT < k → x.addrs k = 0

def Dinode.byteAt (x : Dinode) (p : ℕ) : UInt8 :=
  if p < 2 then UInt8.ofNat (x.type / 256 ^ p)
  else if p < 4 then UInt8.ofNat (x.major / 256 ^ (p - 2))
  else if p < 6 then UInt8.ofNat (x.minor / 256 ^ (p - 4))
  else if p < 8 then UInt8.ofNat (x.nlink / 256 ^ (p - 6))
  else if p < 12 then UInt8.ofNat (x.size / 256 ^ (p - 8))
  else UInt8.ofNat (x.addrs ((p - 12) / 4) / 256 ^ ((p - 12) % 4))

def getDinode (b : Block) (n : ℕ) : Dinode where
  type := getLE b (64 * n) 2
  major := getLE b (64 * n + 2) 2
  minor := getLE b (64 * n + 4) 2
  nlink := getLE b (64 * n + 6) 2
  size := getLE b (64 * n + 8) 4
  addrs k := if k ≤ NDIRECT then getLE b (64 * n + 12 + 4 * k) 4 else 0

def putDinode (b : Block) (n : ℕ) (x : Dinode) : Block := patch b (64 * n) 64 x.byteAt

theorem getDinode_fits (b : Block) (n : ℕ) : (getDinode b n).Fits where
  type := getLE_lt ..
  major := getLE_lt ..
  minor := getLE_lt ..
  nlink := getLE_lt ..
  size := getLE_lt ..
  addrs k := by
    show (if k ≤ NDIRECT then getLE b (64 * n + 12 + 4 * k) 4 else 0) < 2 ^ 32
    split
    · exact getLE_lt ..
    · omega
  past k hk := if_neg (by omega)

theorem Dinode.new_fits {type : ℕ} (h : type < 2 ^ 16) : (Dinode.new type).Fits :=
  ⟨h, Nat.two_pow_pos _, Nat.two_pow_pos _, Nat.two_pow_pos _, Nat.two_pow_pos _,
    fun _ => Nat.two_pow_pos _, fun _ _ => rfl⟩

section
variable (b : Block)

theorem byte_putDinode (x : Dinode) {n p : ℕ} (hn : n < IPB) (hp : p < 64) :
    byte (putDinode b n x) (64 * n + p) = x.byteAt p := by
  have hlt : 64 * n + p < BSIZE := by
    simp only [IPB, BSIZE] at *
    omega
  rw [putDinode, byte_patch _ _ hlt, if_pos (by omega), Nat.add_sub_cancel_left]

theorem field_putDinode {x : Dinode} {n o w v : ℕ} (hn : n < IPB) (ho : o + w ≤ 64)
    (hv : v < 256 ^ w) (h : ∀ k < w, x.byteAt (o + k) = UInt8.ofNat (v / 256 ^ k)) :
    getLE (putDinode b n x) (64 * n + o) w = v := by
  refine (getLE_of_digits fun k hk => ?_).trans (Nat.mod_eq_of_lt hv)
  rw [Nat.add_assoc, byte_putDinode b x hn (by omega), h k hk]

theorem getDinode_putDinode {x : Dinode} {n : ℕ} (hx : x.Fits) (hn : n < IPB) :
    getDinode (putDinode b n x) n = x := by
  have htype : getLE (putDinode b n x) (64 * n + 0) 2 = x.type :=
    field_putDinode b hn (by omega) hx.type fun k hk => by
      rw [Dinode.byteAt, if_pos (by omega), Nat.zero_add]
  have hmajor : getLE (putDinode b n x) (64 * n + 2) 2 = x.major :=
    field_putDinode b hn (by omega) hx.major fun k hk => by
      rw [Dinode.byteAt, if_neg (by omega), if_pos (by omega), Nat.add_sub_cancel_left]
  have hminor : getLE (putDinode b n x) (64 * n + 4) 2 = x.minor :=
    field_putDinode b hn (by omega) hx.minor fun k hk => by
      rw [Dinode.byteAt, if_neg (by omega), if_neg (by omega), if_pos (by omega),
        Nat.add_sub_cancel_left]
  have hnlink : getLE (putDinode b n x) (64 * n + 6) 2 = x.nlink :=
    field_putDinode b hn (by omega) hx.nlink fun k hk => by
      rw [Dinode.byteAt, if_neg (by omega), if_neg (by omega), if_neg (by omega),
        if_pos (by omega), Nat.add_sub_cancel_left]
  have hsize : getLE (putDinode b n x) (64 * n + 8) 4 = x.size :=
    field_putDinode b hn (by omega) hx.size fun k hk => by
      rw [Dinode.byteAt, if_neg (by omega), if_neg (by omega), if_neg (by omega),
        if_neg (by omega), if_pos (by omega), Nat.add_sub_cancel_left]
  have haddrs : ∀ k ≤ NDIRECT, getLE (putDinode b n x) (64 * n + (12 + 4 * k)) 4 = x.addrs k :=
    fun k hk => field_putDinode b hn (by simp only [NDIRECT] at hk; omega) (hx.addrs k)
      fun j hj => by
        rw [Dinode.byteAt, if_neg (by omega), if_neg (by omega), if_neg (by omega),
          if_neg (by omega), if_neg (by omega), show (12 + 4 * k + j - 12) / 4 = k by omega,
          show (12 + 4 * k + j - 12) % 4 = j by omega]
  rw [Nat.add_zero] at htype
  rw [getDinode, htype, hmajor, hminor, hnlink, hsize]
  congr 1
  funext k
  by_cases hk : k ≤ NDIRECT
  · rw [if_pos hk, Nat.add_assoc, haddrs k hk]
  · rw [if_neg hk, hx.past k (by omega)]

theorem getDinode_putDinode_of_ne (x : Dinode) {n m : ℕ} (h : m ≠ n) :
    getDinode (putDinode b n x) m = getDinode b m := by
  have hf : ∀ {o w : ℕ}, o + w ≤ 64 →
      getLE (putDinode b n x) (64 * m + o) w = getLE b (64 * m + o) w := by
    intro o w ho
    exact getLE_patch_of_disjoint b _ (by omega)
  rw [getDinode, getDinode, hf (by omega), hf (by omega), hf (by omega), hf (by omega),
    show 64 * m = 64 * m + 0 from rfl, hf (by omega)]
  congr 1
  funext k
  split
  · rename_i hk
    simp only [NDIRECT] at hk
    rw [Nat.add_zero, Nat.add_assoc, hf (by omega)]
  · rfl

theorem byteAt_getDinode (n : ℕ) {p : ℕ} (hp : p < 64) :
    (getDinode b n).byteAt p = byte b (64 * n + p) := by
  have hfield : ∀ {o w : ℕ}, o ≤ p → p < o + w →
      UInt8.ofNat (getLE b (64 * n + o) w / 256 ^ (p - o)) = byte b (64 * n + p) := by
    intro o w h1 h2
    rw [getLE_digit b _ (by omega)]
    congr 1
    omega
  unfold Dinode.byteAt
  split
  · exact hfield (o := 0) (Nat.zero_le p) (by omega)
  split
  · exact hfield (by omega) (by omega)
  split
  · exact hfield (by omega) (by omega)
  split
  · exact hfield (by omega) (by omega)
  split
  · exact hfield (by omega) (by omega)
  have hk : (p - 12) / 4 ≤ NDIRECT := by
    simp only [NDIRECT]
    omega
  show UInt8.ofNat ((if (p - 12) / 4 ≤ NDIRECT then _ else 0) / 256 ^ ((p - 12) % 4)) = _
  rw [if_pos hk, getLE_digit b _ (by omega)]
  congr 1
  omega

theorem putDinode_getDinode (n : ℕ) : putDinode b n (getDinode b n) = b := by
  refine bytes_ext fun i hi => ?_
  rw [putDinode, byte_patch _ _ hi]
  split
  · rename_i hin
    rw [byteAt_getDinode b n (by omega)]
    congr 1
    omega
  · rfl

theorem putDinode_putDinode (n : ℕ) (x y : Dinode) :
    putDinode (putDinode b n x) n y = putDinode b n y := by
  refine bytes_ext fun i hi => ?_
  simp only [putDinode, byte_patch _ _ hi]
  split <;> rfl

end

def direntBytes (inum : ℕ) (name : List UInt8) : List UInt8 :=
  (List.range 16).map fun k =>
    if k < 2 then UInt8.ofNat (inum / 256 ^ k) else name.getD (k - 2) 0

@[simp] theorem length_direntBytes (inum : ℕ) (name : List UInt8) :
    (direntBytes inum name).length = 16 := by
  rw [direntBytes, List.length_map, List.length_range]

structure Super where
  size : ℕ
  nblocks : ℕ
  ninodes : ℕ
  nlog : ℕ
  logstart : ℕ
  inodestart : ℕ
  bmapstart : ℕ
  boot_le : 2 ≤ logstart
  log_le : logstart + nlog ≤ inodestart
  inode_le : inodestart + (ninodes + (IPB - 1)) / IPB ≤ bmapstart
  bmap_le : bmapstart + (size + (BPB - 1)) / BPB + nblocks ≤ size
  size_lt : size < 2 ^ 31

namespace Super

variable (sb : Super)

def nmeta : ℕ := sb.size - sb.nblocks

def iblock (i : ℕ) : ℕ := i / IPB + sb.inodestart

def bblock (b : ℕ) : ℕ := b / BPB + sb.bmapstart

def dinode (disk : ℕ → Block) (i : ℕ) : Dinode := getDinode (disk (sb.iblock i)) (i % IPB)

def inUse (disk : ℕ → Block) (b : ℕ) : Bool := getBit (disk (sb.bblock b)) (b % BPB)

variable {sb} {disk : ℕ → Block} {i j b c : ℕ}

theorem nmeta_add : sb.nmeta + sb.nblocks = sb.size :=
  Nat.sub_add_cancel ((Nat.le_add_left _ _).trans sb.bmap_le)

theorem bmapstart_le : sb.bmapstart ≤ sb.nmeta :=
  Nat.le_sub_of_add_le ((Nat.add_le_add_right (Nat.le_add_right _ _) _).trans sb.bmap_le)

theorem iblock_lt (hi : i < sb.ninodes) : sb.iblock i < sb.bmapstart := by
  have := sb.inode_le
  unfold iblock
  simp only [IPB, BSIZE] at *
  omega

theorem bblock_lt (hb : b < sb.size) : sb.bblock b < sb.nmeta := by
  have := sb.bmap_le
  unfold bblock nmeta
  simp only [BPB, BSIZE] at *
  omega

theorem bmapstart_le_bblock : sb.bmapstart ≤ sb.bblock b := Nat.le_add_left ..

theorem iblock_lt_nmeta (hi : i < sb.ninodes) : sb.iblock i < sb.nmeta :=
  (iblock_lt hi).trans_le bmapstart_le

theorem pos_nmeta : 0 < sb.nmeta := by
  have h1 := sb.boot_le
  have h2 := sb.log_le
  have h3 := (Nat.le_add_right _ _).trans sb.inode_le
  have h4 := sb.bmapstart_le
  omega

theorem iblock_inj (h1 : sb.iblock i = sb.iblock j) (h2 : i % IPB = j % IPB) : i = j := by
  unfold iblock at h1
  simp only [IPB, BSIZE] at *
  omega

theorem bblock_inj (h1 : sb.bblock b = sb.bblock c) (h2 : b % BPB = c % BPB) : b = c := by
  unfold bblock at h1
  simp only [BPB, BSIZE] at *
  omega

theorem dinode_update (hi : i < sb.ninodes) (hb : sb.bmapstart ≤ b) (v : Block) :
    sb.dinode (update disk b v) i = sb.dinode disk i := by
  have := iblock_lt hi
  rw [dinode, dinode, update_of_ne (by omega)]

theorem dinode_putDinode {x : Dinode} (hx : x.Fits) :
    sb.dinode (update disk (sb.iblock i)
      (putDinode (disk (sb.iblock i)) (i % IPB) x)) = update (sb.dinode disk) i x := by
  funext j
  by_cases hji : j = i
  · subst hji
    rw [dinode, update_self, update_self]
    exact getDinode_putDinode _ hx (Nat.mod_lt _ (by decide))
  rw [update_of_ne hji, dinode, dinode]
  by_cases hblk : sb.iblock j = sb.iblock i
  · rw [hblk, update_self]
    exact getDinode_putDinode_of_ne _ _ fun h => hji (iblock_inj hblk h)
  · rw [update_of_ne hblk]

theorem dinode_fits : (sb.dinode disk i).Fits := getDinode_fits ..

theorem inUse_update (hc : c < sb.size) (hb : b < sb.bmapstart ∨ sb.nmeta ≤ b) (v : Block) :
    sb.inUse (update disk b v) c = sb.inUse disk c := by
  have h1 := bblock_lt hc
  have h2 : sb.bmapstart ≤ sb.bblock c := bmapstart_le_bblock
  rw [inUse, inUse, update_of_ne (by omega)]

theorem inUse_setBit :
    sb.inUse (update disk (sb.bblock b) (setBit (disk (sb.bblock b)) (b % BPB))) c =
      (decide (c = b) || sb.inUse disk c) := by
  have hlt : b % BPB / 8 < BSIZE := by
    simp only [BPB, BSIZE]
    omega
  unfold inUse
  by_cases hblk : sb.bblock c = sb.bblock b
  · rw [hblk, update_self, getBit_setBit _ _ hlt]
    congr 1
    exact decide_eq_decide.2 ⟨fun h => bblock_inj hblk h, fun h => h ▸ rfl⟩
  · have hne : c ≠ b := fun h => hblk (h ▸ rfl)
    rw [update_of_ne hblk, decide_eq_false hne, Bool.false_or]

theorem inUse_clearBit :
    sb.inUse (update disk (sb.bblock b) (clearBit (disk (sb.bblock b)) (b % BPB))) c =
      (decide (c ≠ b) && sb.inUse disk c) := by
  have hlt : b % BPB / 8 < BSIZE := by
    simp only [BPB, BSIZE]
    omega
  unfold inUse
  by_cases hblk : sb.bblock c = sb.bblock b
  · rw [hblk, update_self, getBit_clearBit _ _ hlt]
    congr 1
    exact decide_eq_decide.2 (not_congr ⟨fun h => bblock_inj hblk h, fun h => h ▸ rfl⟩)
  · have hne : c ≠ b := fun h => hblk (h ▸ rfl)
    rw [update_of_ne hblk, decide_eq_true hne, Bool.true_and]

end Super

end Xv6.Fs
