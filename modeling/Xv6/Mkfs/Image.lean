import Mathlib
import Xv6.Fs.Inode

/-!
The program that makes the first file system, `mkfs.c`.

`mkfs` works on the image file with `rsect` and `wsect`. Inodes and blocks are
handed out by two counters that only go up, and the bitmap is written once at
the end. Reading past the end of the image file makes `mkfs` give up, and so
does an assertion that fails.

The image file and the input files can be opened, and what `write` is given it
writes. What `read` delivers of an input file comes in chunks that are not empty
and not longer than the buffer.
-/

namespace Xv6.Mkfs

open Lib Fs

abbrev NINODES : ℕ := 200

abbrev nbitmap : ℕ := FSSIZE / (BSIZE * 8) + 1
abbrev ninodeblocks : ℕ := NINODES / IPB + 1
abbrev nlog : ℕ := LOGSIZE

abbrev nmeta : ℕ := 2 + nlog + ninodeblocks + nbitmap

def sb : Super where
  size := FSSIZE
  nblocks := FSSIZE - nmeta
  ninodes := NINODES
  nlog := nlog
  logstart := 2
  inodestart := 2 + nlog
  bmapstart := 2 + nlog + ninodeblocks
  boot_le := le_refl 2
  log_le := by decide
  inode_le := by decide
  bmap_le := by decide
  size_lt := by decide

inductive Exit where
  | failed | assertion
  deriving DecidableEq, Repr

structure Img where
  disk : ℕ → Block
  len : ℕ
  freeinode : ℕ
  freeblock : ℕ
  inodeBlocks : List ℕ

abbrev Op (α : Type) := Prog Empty Empty Exit Img α

def Img.start : Img := ⟨fun _ => zeros, 0, 1, nmeta, []⟩

def sector (sec : ℕ) : ℕ := sec * BSIZE % 2 ^ 32 / BSIZE

def Img.wsect (st : Img) (sec : ℕ) (buf : Block) : Img :=
  { st with
    disk := Function.update st.disk (sector sec) buf
    len := max st.len (sector sec + 1) }

def wsect (sec : ℕ) (buf : Block) : Op Unit := .modify fun st => st.wsect sec buf

def rsect (sec : ℕ) : Op Block :=
  .act id fun st =>
    if sector sec < st.len then .pure (st.disk (sector sec)) else .panic .failed

def assert (c : Prop) [Decidable c] : Op Unit := if c then pure () else .panic .assertion

def winode (inum : ℕ) (ip : Dinode) : Op Unit := do
  let buf ← rsect (sb.iblock inum)
  wsect (sb.iblock inum) (putDinode buf (inum % IPB) ip)
  .modify fun st => { st with inodeBlocks := sb.iblock inum :: st.inodeBlocks }

def rinode (inum : ℕ) : Op Dinode := do
  let buf ← rsect (sb.iblock inum)
  pure (getDinode buf (inum % IPB))

def nextInode : Op ℕ :=
  .act (fun st => { st with freeinode := st.freeinode + 1 }) fun st => .pure st.freeinode

def nextBlock : Op ℕ :=
  .act (fun st => { st with freeblock := st.freeblock + 1 }) fun st => .pure st.freeblock

def newInode (type : ℕ) : Dinode := { Dinode.new type with nlink := 1 }

def ialloc (type : ℕ) : Op ℕ := do
  let inum ← nextInode
  winode inum (newInode type)
  pure inum

def bitmap (used : ℕ) : Block := (List.range used).foldl setBit zeros

def balloc (used : ℕ) : Op Unit := do
  assert (used < BSIZE * 8)
  wsect sb.bmapstart (bitmap used)

def addrOf (din : Dinode) (k : ℕ) : Op (Dinode × ℕ) :=
  if din.addrs k = 0 then do
    let b ← nextBlock
    pure (din.setAddr k b, b)
  else pure (din, din.addrs k)

def entryOf (ind k : ℕ) : Op ℕ := do
  let indirect ← rsect ind
  if word indirect k = 0 then do
    let b ← nextBlock
    wsect ind (setWord indirect k b)
    pure b
  else pure (word indirect k)

def slotOf (din : Dinode) (fbn : ℕ) : Op (Dinode × ℕ) :=
  if fbn < NDIRECT then addrOf din fbn
  else do
    let r ← addrOf din NDIRECT
    let x ← entryOf r.2 (fbn - NDIRECT)
    pure (r.1, x)

def iappendLoop : ℕ → Dinode → ℕ → List UInt8 → Op (Dinode × ℕ)
  | 0, din, off, _ => pure (din, off)
  | turns + 1, din, off, p =>
    if p.length = 0 then pure (din, off)
    else do
      assert (off / BSIZE < MAXFILE)
      let r ← slotOf din (off / BSIZE)
      let n₁ := min p.length ((off / BSIZE + 1) * BSIZE - off)
      let buf ← rsect r.2
      wsect r.2 (patch buf (off - off / BSIZE * BSIZE) n₁ fun k => p.getD k 0)
      iappendLoop turns r.1 (off + n₁) (p.drop n₁)

def iappend (inum : ℕ) (p : List UInt8) : Op Unit := do
  let din ← rinode inum
  let r ← iappendLoop p.length din din.size p
  winode inum { r.1 with size := r.2 }

structure Input where
  name : List UInt8
  chunks : List (List UInt8)
  chunk_pos : ∀ c ∈ chunks, 0 < c.length
  chunk_le : ∀ c ∈ chunks, c.length ≤ BSIZE

def Input.bytes (f : Input) : List UInt8 := f.chunks.flatten

def Input.entry (f : Input) : List UInt8 := if f.name.head? = some 95 then f.name.tail else f.name

def appendChunks (inum : ℕ) : List (List UInt8) → Op Unit
  | [] => pure ()
  | c :: rest => do
      iappend inum c
      appendChunks inum rest

def addFile (f : Input) : Op Unit := do
  assert (47 ∉ f.name)
  let inum ← ialloc T_FILE
  iappend ROOTINO (direntBytes inum f.entry)
  appendChunks inum f.chunks

def addFiles : List Input → Op Unit
  | [] => pure ()
  | f :: rest => do
      addFile f
      addFiles rest

def wipe : List ℕ → Op Unit
  | [] => pure ()
  | i :: rest => do
      wsect i zeros
      wipe rest

def superBlock : Block :=
  [sb.size, sb.nblocks, sb.ninodes, sb.nlog, sb.logstart, sb.inodestart, sb.bmapstart].foldl
    (fun a v => (a.1 + 1, setWord a.2 a.1 v)) (0, zeros) |>.2

def makeRoot : Op Unit := do
  let rootino ← ialloc T_DIR
  assert (rootino = ROOTINO)
  iappend rootino (direntBytes rootino [46])
  iappend rootino (direntBytes rootino [46, 46])

def fixRoot : Op Unit := do
  let din ← rinode ROOTINO
  winode ROOTINO { din with size := (din.size / BSIZE + 1) * BSIZE % 2 ^ 32 }

def mkfs (files : List Input) : Op Unit := do
  wipe (List.range FSSIZE)
  wsect 1 superBlock
  makeRoot
  addFiles files
  fixRoot
  let used ← .read fun st => st.freeblock
  balloc used

end Xv6.Mkfs
