import Xv6.Sys.State

/-!
The inode layer and the directory layer of `fs.c`, as far as the
file-system calls use them: references, locks, allocation and freeing of
inodes, and looking up and entering names.

Each function is a program whose nodes are the steps other processes can
come between. What a function does under a spin lock, or in one
statement on an inode whose lock it holds, is one action.
-/

namespace Xv6.Sys

open Lib Function

variable {P : Type}

namespace Fs

def iget (s : Fs P) (i : ℕ) : Fs P :=
  if 0 < s.ref i then { s with ref := update s.ref i (s.ref i + 1) }
  else { s with ref := update s.ref i 1, valid := update s.valid i false }

def idup (s : Fs P) (i : ℕ) : Fs P := { s with ref := update s.ref i (s.ref i + 1) }

def load (s : Fs P) (i : ℕ) : Fs P := { s with valid := update s.valid i true }

def dead (s : Fs P) (i : ℕ) : Bool :=
  s.valid i && decide ((s.inode i).nlink = 0) && decide (s.ref i = 1)

def freed (ip : Inode) : Inode := { ip with type := .free, len := 0, entries := [] }

def reap (s : Fs P) (i : ℕ) : Fs P :=
  if s.dead i then
    { s with
      inode := update s.inode i (freed (s.inode i))
      valid := update s.valid i false
      hist := .free i (s.inode i) :: s.hist }
  else s

def drop (s : Fs P) (i : ℕ) : Fs P := { s with ref := update s.ref i (s.ref i - 1) }

def alloc (s : Fs P) (i : ℕ) (type : IType) : Fs P :=
  { s with
    inode := update s.inode i ⟨type, 0, 0, 0, 0, []⟩
    hist := .alloc i :: s.hist }

def addLink (s : Fs P) (i : ℕ) (d : Int16) : Fs P :=
  s.setInode i { s.inode i with nlink := (s.inode i).nlink + d }

def initInode (s : Fs P) (i : ℕ) (major minor : Int16) : Fs P :=
  s.setInode i { s.inode i with major := major, minor := minor, nlink := 1 }

end Fs

variable (sb : Super)

def iget (inum : ℕ) : Op P Unit :=
  .act (·.iget inum) fun s =>
    if s.ref inum = 0 ∧ NINODE ≤ s.cached sb then .panic .igetNoInodes else .pure ()

def idup (ip : ℕ) : Op P Unit := .modify (·.idup ip)

def ilock (ip : ℕ) : Op P Unit :=
  .act id fun s =>
    if ip = 0 ∨ s.ref ip < 1 then .panic .ilock
    else
      .acquire .ilock ip <|
        .act (·.load ip) fun s =>
          if s.valid ip = false ∧ (s.inode ip).type = .free then .panic .noType else .pure ()

def iunlock (ip : ℕ) : Op P Unit :=
  .holding ip fun held =>
    .act id fun s =>
      if ip = 0 ∨ held = false ∨ s.ref ip < 1 then .panic .iunlock else .release ip (.pure ())

def iput (site : Site) (ip : ℕ) : Op P Unit :=
  .acquire site ip <| .act (·.reap ip) fun _ => .release ip (.modify (·.drop ip))

def iunlockput (site : Site) (ip : ℕ) : Op P Unit := do
  iunlock ip
  iput site ip

def iallocLoop (type : IType) : List ℕ → Op P ℕ
  | [] => .panic .iallocNoInodes
  | inum :: rest =>
    .act (fun s => if (s.inode inum).type = .free then s.alloc inum type else s) fun s =>
      if (s.inode inum).type = .free then do
        iget sb inum
        pure inum
      else iallocLoop type rest

def ialloc (type : IType) : Op P ℕ :=
  iallocLoop sb type (List.range' 1 (sb.ninodes - 1))

def dirlookup (dp : ℕ) (name : Name) : Op P (Option (ℕ × ℕ)) :=
  .act id fun s =>
    if (s.inode dp).type ≠ .dir then .panic .dirlookupNotDir
    else
      match s.slot dp name with
      | none => .pure none
      | some n => do
          iget sb (s.entry dp n).inum
          pure (some ((s.entry dp n).inum, n))

def Fs.noRoom (s : Fs P) (dp n : ℕ) (e : Dirent) : Option Panic :=
  if MAXFILE * BSIZE < 16 * (n + 1) then some .dirlink
  else if sb.nblocks < used sb (s.writeEntry dp n e).inode then some .balloc
  else none

def dirlink (dp : ℕ) (name : Name) (inum : ℕ) : Op P Int := do
  match ← dirlookup sb dp name with
  | some (ip, _) => do
      iput .iput ip
      pure (-1)
  | none =>
    .act (fun s => s.writeEntry dp (s.spare dp) ⟨inum, name⟩) fun s =>
      match s.noRoom sb dp (s.spare dp) ⟨inum, name⟩ with
      | some e => .panic e
      | none => .pure 0

end Xv6.Sys
