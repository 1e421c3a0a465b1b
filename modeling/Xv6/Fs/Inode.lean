import Xv6.Fs.Format
import Xv6.Lib.Prog

/-!
Blocks and inodes, `fs.c`.

The disk is what `bread` shows: the buffer cache and the log together are
one coherent store. A block that a function changes and hands to
`log_write` is changed in one action, and `logged` records it. A pointer
to an inode is its number; `inode` is the table of the copies in memory.
There is one device.

What `devsw` delivers for a device, or takes, is an argument of `readi`
and `writei`.
-/

namespace Xv6.Fs

open Lib Function

inductive Panic where
  | outOfBlocks | freeingFree | noInodes | igetNoInodes | ilock | noType | bmapRange
  | notDir | dirlookupRead | dirlinkRead | dirlink | isdirempty | unlinkWrite | unlinkNlink
  | createDots | createDirlink
  deriving DecidableEq, Repr

structure State where
  disk : ℕ → Block
  inode : ℕ → Dinode
  valid : ℕ → Bool
  ref : ℕ → ℕ
  logged : List ℕ

abbrev Op (α : Type) := Prog Empty Empty Panic State α

def State.write (s : State) (b : ℕ) (f : Block → Block) : State :=
  { s with disk := update s.disk b (f (s.disk b)), logged := b :: s.logged }

def State.setInode (s : State) (i : ℕ) (x : Dinode) : State :=
  { s with inode := update s.inode i x }

def Dinode.setAddr (x : Dinode) (k a : ℕ) : Dinode :=
  { x with addrs := update x.addrs k a }

def bread (b : ℕ) : Op Block := .read fun s => s.disk b

def logWrite (b : ℕ) (f : Block → Block) : Op Unit := .modify fun s => s.write b f

def bzero (b : ℕ) : Op Unit := logWrite b fun _ => zeros

variable (sb : Super)

@[irreducible] def freeBit (blk : Block) (b : ℕ) : Option ℕ :=
  (List.range BPB).find? fun bi => decide (b + bi < sb.size) && !getBit blk bi

def ballocLoop : ℕ → ℕ → Op ℕ
  | 0, _ => .panic .outOfBlocks
  | turns + 1, k =>
    if k * BPB < sb.size then do
      let blk ← bread (sb.bblock (k * BPB))
      match freeBit sb blk (k * BPB) with
      | some bi => do
          logWrite (sb.bblock (k * BPB)) (setBit · bi)
          bzero (k * BPB + bi)
          pure (k * BPB + bi)
      | none => ballocLoop turns (k + 1)
    else .panic .outOfBlocks

def balloc : Op ℕ := ballocLoop sb (sb.size / BPB + 1) 0

def bfree (b : ℕ) : Op Unit := do
  let blk ← bread (sb.bblock b)
  if getBit blk (b % BPB) = false then .panic .freeingFree
  else logWrite (sb.bblock b) (clearBit · (b % BPB))

def State.cached (s : State) : ℕ :=
  (List.range sb.ninodes).countP fun i => decide (0 < s.ref i)

def iget (inum : ℕ) : Op Unit :=
  .act (fun s =>
      if 0 < s.ref inum then { s with ref := update s.ref inum (s.ref inum + 1) }
      else { s with
        ref := update s.ref inum 1
        valid := update s.valid inum false })
    fun s => if s.ref inum = 0 ∧ NINODE ≤ s.cached sb then .panic .igetNoInodes else .pure ()

def idup (ip : ℕ) : Op Unit :=
  .modify fun s => { s with ref := update s.ref ip (s.ref ip + 1) }

def iallocLoop (type : ℕ) : List ℕ → Op ℕ
  | [] => .panic .noInodes
  | inum :: rest => do
      let blk ← bread (sb.iblock inum)
      if (getDinode blk (inum % IPB)).type = 0 then do
        logWrite (sb.iblock inum) (putDinode · (inum % IPB) (.new type))
        iget sb inum
        pure inum
      else iallocLoop type rest

def ialloc (type : ℕ) : Op ℕ := iallocLoop sb type (List.range' 1 (sb.ninodes - 1))

def iupdate (ip : ℕ) : Op Unit :=
  .modify fun s => s.write (sb.iblock ip) (putDinode · (ip % IPB) (s.inode ip))

def ilock (ip : ℕ) : Op Unit :=
  .act id fun s =>
    if s.ref ip < 1 then .panic .ilock
    else if s.valid ip then .pure ()
    else
      .act (fun s => { s.setInode ip (sb.dinode s.disk ip) with
          valid := update s.valid ip true })
        fun s => if (sb.dinode s.disk ip).type = 0 then .panic .noType else .pure ()

def addrOf (ip k : ℕ) : Op ℕ := do
  let addr ← .read fun s => (s.inode ip).addrs k
  if addr = 0 then do
    let addr ← balloc sb
    .modify fun s => s.setInode ip ((s.inode ip).setAddr k addr)
    pure addr
  else pure addr

def entryOf (ind k : ℕ) : Op ℕ := do
  let addr ← .read fun s => word (s.disk ind) k
  if addr = 0 then do
    let addr ← balloc sb
    logWrite ind (setWord · k addr)
    pure addr
  else pure addr

def bmap (ip bn : ℕ) : Op ℕ :=
  if bn < NDIRECT then addrOf sb ip bn
  else if bn - NDIRECT < NINDIRECT then do
    let ind ← addrOf sb ip NDIRECT
    entryOf sb ind (bn - NDIRECT)
  else .panic .bmapRange

def truncDirect (ip : ℕ) : List ℕ → Op Unit
  | [] => pure ()
  | k :: rest => do
      let addr ← .read fun s => (s.inode ip).addrs k
      if addr = 0 then truncDirect ip rest
      else do
        bfree sb addr
        .modify fun s => s.setInode ip ((s.inode ip).setAddr k 0)
        truncDirect ip rest

def truncEntries : List ℕ → Op Unit
  | [] => pure ()
  | addr :: rest => do
      if addr = 0 then truncEntries rest
      else do
        bfree sb addr
        truncEntries rest

def truncIndirect (ip : ℕ) : Op Unit := do
  let ind ← .read fun s => (s.inode ip).addrs NDIRECT
  if ind = 0 then pure ()
  else do
    let blk ← bread ind
    truncEntries sb ((List.range NINDIRECT).map (word blk))
    bfree sb ind
    .modify fun s => s.setInode ip ((s.inode ip).setAddr NDIRECT 0)

def itrunc (ip : ℕ) : Op Unit := do
  truncDirect sb ip (List.range NDIRECT)
  truncIndirect sb ip
  .modify fun s => s.setInode ip { s.inode ip with size := 0 }
  iupdate sb ip

def ifree (ip : ℕ) : Op Unit := do
  itrunc sb ip
  .modify fun s => s.setInode ip { s.inode ip with type := 0 }
  iupdate sb ip
  .modify fun s => { s with valid := update s.valid ip false }

def iput (ip : ℕ) : Op Unit := do
  let dead ← .read fun s => s.valid ip && decide ((s.inode ip).nlink = 0) && decide (s.ref ip = 1)
  (if dead then ifree sb ip else pure ())
  .modify fun s => { s with ref := update s.ref ip (s.ref ip - 1) }

def slice (b : Block) (off m : ℕ) : List UInt8 := (List.range m).map fun k => byte b (off + k)

def readLoop (ip : ℕ) : ℕ → ℕ → ℕ → Op (List UInt8)
  | 0, _, _ => pure []
  | turns + 1, off, n =>
    if n = 0 then pure []
    else do
      let addr ← bmap sb ip (off / BSIZE)
      let m := min n (BSIZE - off % BSIZE)
      let blk ← bread addr
      let rest ← readLoop ip turns (off + m) (n - m)
      pure (slice blk (off % BSIZE) m ++ rest)

def readi (dev : Option (List UInt8)) (ip : ℕ) (off n : UInt32) : Op (Option (List UInt8)) := do
  let x ← .read fun s => s.inode ip
  if x.type = T_DEV then pure dev
  else if x.size < off.toNat ∨ off + n < off then pure none
  else do
    let n := if x.size < (off + n).toNat then x.size - off.toNat else n.toNat
    let bytes ← readLoop sb ip n off.toNat n
    pure (some bytes)

def writeLoop (ip : ℕ) : ℕ → ℕ → List UInt8 → Op ℕ
  | 0, off, _ => pure off
  | turns + 1, off, src =>
    if src.length = 0 then pure off
    else do
      let addr ← bmap sb ip (off / BSIZE)
      let m := min src.length (BSIZE - off % BSIZE)
      logWrite addr fun blk => patch blk (off % BSIZE) m fun k => src.getD k 0
      writeLoop ip turns (off + m) (src.drop m)

def writei (dev : Option ℕ) (ip : ℕ) (src : List UInt8) (off n : UInt32) : Op (Option ℕ) := do
  let x ← .read fun s => s.inode ip
  if x.type = T_DEV then pure dev
  else if x.size < off.toNat ∨ off + n < off then pure none
  else if MAXFILE * BSIZE < (off + n).toNat then pure none
  else do
    let stop ← writeLoop sb ip n.toNat off.toNat (src.take n.toNat)
    let size ← .read fun s => (s.inode ip).size
    (if 0 < n.toNat ∧ size < stop then do
      .modify fun s => s.setInode ip { s.inode ip with size := stop }
      iupdate sb ip
    else pure ())
    pure (some n.toNat)

end Xv6.Fs
