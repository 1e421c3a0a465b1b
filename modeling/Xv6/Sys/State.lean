import Mathlib.Algebra.BigOperators.Group.Finset.Basic
import Xv6.Lib.Prog
import Xv6.Param

/-!
The state that the file-system calls work on.

This is the file system as `sysfile.c` and the directory layer of `fs.c`
see it: a table of inodes, the reference counts of the inode cache, the
table of open files, and for each process its current directory and its
descriptors. An inode's copy in memory and its copy on disk are one
here, because every change is followed by `iupdate` while the inode is
locked. A directory is the list of its entries; of a file only the
length is kept. A pointer to an inode is its number, and 0 is the null
pointer. There is one device.

The number of blocks in use is the sum over the inodes of what their
sizes need, so `balloc` has no block left when that sum would pass
`nblocks`.
-/

namespace Xv6.Sys

open Lib

inductive IType where
  | free | dir | file | dev
  deriving DecidableEq, Repr

abbrev Name := List UInt8

def dot : Name := [46]

def dotdot : Name := [46, 46]

structure Dirent where
  inum : ℕ
  name : Name
  deriving DecidableEq, Repr

def Dirent.empty : Dirent := ⟨0, []⟩

structure Inode where
  type : IType
  major : Int16
  minor : Int16
  nlink : Int16
  len : ℕ
  entries : List Dirent
  deriving DecidableEq, Repr

def Inode.size (ip : Inode) : ℕ := if ip.type = .dir then 16 * ip.entries.length else ip.len

def blocksOf (n : ℕ) : ℕ := (n + (BSIZE - 1)) / BSIZE + if NDIRECT * BSIZE < n then 1 else 0

structure Super where
  ninodes : ℕ
  nblocks : ℕ
  ninodes_le : ninodes ≤ 2 ^ 16
  nblocks_le : nblocks ≤ FSSIZE

def small : Super := ⟨8, 100, by decide, by decide⟩

def used (sb : Super) (t : ℕ → Inode) : ℕ :=
  ∑ i ∈ Finset.range sb.ninodes, blocksOf (t i).size

inductive FdType where
  | none | inode
  deriving DecidableEq, Repr

structure File where
  type : FdType
  ref : ℕ
  readable : Bool
  writable : Bool
  ip : ℕ
  off : ℕ
  deriving DecidableEq, Repr

inductive Panic where
  | igetNoInodes | ilock | noType | iunlock | iallocNoInodes | balloc
  | dirlookupNotDir | dirlink | unlinkNlink | createDots | createDirlink
  | filedup | fileclose | fileread | filewrite | shortFilewrite | dirWrite
  deriving DecidableEq, Repr

inductive Event where
  | alloc (i : ℕ)
  | free (i : ℕ) (ip : Inode)

structure Fs (P : Type) where
  inode : ℕ → Inode
  ref : ℕ → ℕ
  valid : ℕ → Bool
  file : Fin NFILE → File
  ofile : P → Fin NOFILE → Option (Fin NFILE)
  cwd : P → ℕ
  outstanding : ℕ
  hist : List Event

inductive Site where
  | ilock | iput | putParent
  deriving DecidableEq, Repr

abbrev Op (P α : Type) := Prog Site ℕ Panic (Fs P) α

variable {P : Type}

namespace Fs

def setInode (s : Fs P) (i : ℕ) (x : Inode) : Fs P :=
  { s with inode := Function.update s.inode i x }

def setFile (s : Fs P) (f : Fin NFILE) (x : File) : Fs P :=
  { s with file := Function.update s.file f x }

def cached (sb : Super) (s : Fs P) : ℕ :=
  (List.range sb.ninodes).countP fun i => decide (0 < s.ref i)

def slot (s : Fs P) (dp : ℕ) (name : Name) : Option ℕ :=
  (s.inode dp).entries.findIdx? fun e => decide (e.inum ≠ 0) && decide (e.name = name)

def entry (s : Fs P) (dp n : ℕ) : Dirent := (s.inode dp).entries.getD n .empty

def spare (s : Fs P) (dp : ℕ) : ℕ := (s.inode dp).entries.findIdx fun e => decide (e.inum = 0)

def store (es : List Dirent) (n : ℕ) (e : Dirent) : List Dirent :=
  if n < es.length then es.set n e else es ++ [e]

def writeEntry (s : Fs P) (dp n : ℕ) (e : Dirent) : Fs P :=
  s.setInode dp { s.inode dp with entries := store (s.inode dp).entries n e }

end Fs

end Xv6.Sys
