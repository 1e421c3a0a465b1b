import Xv6.Fs.Inode
import Xv6.Sys.Path

/-!
Directories and names on the disk: the rest of `fs.c`, and `sysfile.c` on names.

A directory is a file of 16-byte entries: an inode number, 0 for an empty entry,
and a name of 14 bytes that ends at its first NUL, if it has one. A name in
memory is the list of its bytes before the NUL; the elements of a path are those
that `Sys.skipelem` gives.

A call runs alone: `iunlock` does nothing, nor do `begin_op` and `end_op`. The
current directory is an argument, and a string is `none` if `argstr` rejects it.
-/

namespace Xv6.Fs

open Lib Sys

/-! ### Strings -/

def strncmp : ℕ → List UInt8 → List UInt8 → Int
  | 0, _, _ => 0
  | n + 1, p, q =>
    if p.headD 0 ≠ 0 ∧ p.headD 0 = q.headD 0 then strncmp n p.tail q.tail
    else (p.headD 0).toNat - (q.headD 0).toNat

def strncpy : ℕ → List UInt8 → List UInt8
  | 0, _ => []
  | n + 1, t =>
    if t.headD 0 ≠ 0 then t.headD 0 :: strncpy n t.tail else List.replicate (n + 1) 0

def namecmp (s t : Name) : Int := strncmp DIRSIZ s t

def direntInum (de : List UInt8) : ℕ := (de.getD 0 0).toNat + 256 * (de.getD 1 0).toNat

def direntName (de : List UInt8) : Name := de.drop 2

variable (sb : Super)

/-! ### Directories -/

def readDirent (e : Panic) (dp off : ℕ) : Op (List UInt8) := do
  match ← readi sb none dp (.ofNat off) 16 with
  | none => .panic e
  | some de => if de.length = 16 then pure de else .panic e

def dirlookupLoop (dp : ℕ) (name : Name) : ℕ → ℕ → Op (Option (ℕ × ℕ))
  | 0, _ => pure none
  | turns + 1, off => do
      let size ← .read fun s => (s.inode dp).size
      if off < size then do
        let de ← readDirent sb .dirlookupRead dp off
        if direntInum de ≠ 0 ∧ namecmp name (direntName de) = 0 then do
          iget sb (direntInum de)
          pure (some (direntInum de, off))
        else dirlookupLoop dp name turns (off + 16)
      else pure none

def dirlookup (dp : ℕ) (name : Name) : Op (Option (ℕ × ℕ)) := do
  let x ← .read fun s => s.inode dp
  if x.type ≠ T_DIR then .panic .notDir else dirlookupLoop sb dp name x.size 0

def spareLoop (dp : ℕ) : ℕ → ℕ → Op ℕ
  | 0, off => pure off
  | turns + 1, off => do
      let size ← .read fun s => (s.inode dp).size
      if off < size then do
        let de ← readDirent sb .dirlinkRead dp off
        if direntInum de = 0 then pure off else spareLoop dp turns (off + 16)
      else pure off

def writeDirent (e : Panic) (dp off : ℕ) (de : List UInt8) : Op Unit := do
  let r ← writei sb none dp de (.ofNat off) 16
  if r = some 16 then pure () else .panic e

def dirlink (dp : ℕ) (name : Name) (inum : ℕ) : Op Int := do
  match ← dirlookup sb dp name with
  | some (ip, _) => do
      iput sb ip
      pure (-1)
  | none => do
      let size ← .read fun s => (s.inode dp).size
      let off ← spareLoop sb dp size 0
      writeDirent sb .dirlink dp off (direntBytes inum (strncpy DIRSIZ name))
      pure 0

def isdiremptyLoop (dp : ℕ) : ℕ → ℕ → Op Bool
  | 0, _ => pure true
  | turns + 1, off => do
      let size ← .read fun s => (s.inode dp).size
      if off < size then do
        let de ← readDirent sb .isdirempty dp off
        if direntInum de ≠ 0 then pure false else isdiremptyLoop dp turns (off + 16)
      else pure true

def isdirempty (dp : ℕ) : Op Bool := do
  let size ← .read fun s => (s.inode dp).size
  isdiremptyLoop sb dp size 32

/-! ### Paths -/

def namexLoop (nameiparent : Bool) : ℕ → List Name → Op (Option (ℕ × Name))
  | ip, [] =>
    if nameiparent then do
      iput sb ip
      pure none
    else pure (some (ip, []))
  | ip, name :: rest => do
      ilock sb ip
      let type ← .read fun s => (s.inode ip).type
      if type ≠ T_DIR then do
        iput sb ip
        pure none
      else if nameiparent && rest.isEmpty then pure (some (ip, name))
      else
        match ← dirlookup sb ip name with
        | none => do
            iput sb ip
            pure none
        | some (next, _) => do
            iput sb ip
            namexLoop nameiparent next rest

def namex (cwd : ℕ) (path : Path) (nameiparent : Bool) : Op (Option (ℕ × Name)) :=
  if path.head? = some slash then do
    iget sb ROOTINO
    namexLoop sb nameiparent ROOTINO (elems path)
  else do
    idup cwd
    namexLoop sb nameiparent cwd (elems path)

def namei (cwd : ℕ) (path : Path) : Op (Option ℕ) := do
  match ← namex sb cwd path false with
  | none => pure none
  | some (ip, _) => pure (some ip)

def nameiparent (cwd : ℕ) (path : Path) : Op (Option (ℕ × Name)) := namex sb cwd path true

/-! ### Calls -/

def addLink (ip d : ℕ) : Op Unit := do
  .modify fun s => s.setInode ip
    { s.inode ip with nlink := ((s.inode ip).nlink + d) % 2 ^ 16 }
  iupdate sb ip

def linkBad (ip : ℕ) : Op Int := do
  ilock sb ip
  addLink sb ip (2 ^ 16 - 1)
  iput sb ip
  pure (-1)

def linkEnter (cwd : ℕ) (new : Path) (ip : ℕ) : Op Int := do
  match ← nameiparent sb cwd new with
  | none => linkBad sb ip
  | some (dp, name) => do
      ilock sb dp
      let r ← dirlink sb dp name ip
      iput sb dp
      if r < 0 then linkBad sb ip
      else do
        iput sb ip
        pure 0

def sysLink (cwd : ℕ) (old new : Option Path) : Op Int :=
  match old, new with
  | some old, some new => do
      match ← namei sb cwd old with
      | none => pure (-1)
      | some ip => do
          ilock sb ip
          let type ← .read fun s => (s.inode ip).type
          if type = T_DIR then do
            iput sb ip
            pure (-1)
          else do
            addLink sb ip 1
            linkEnter sb cwd new ip
  | _, _ => pure (-1)

def unlinkEntry (dp off ip : ℕ) : Op Int := do
  writeDirent sb .unlinkWrite dp off (List.replicate 16 0)
  let type ← .read fun s => (s.inode ip).type
  (if type = T_DIR then addLink sb dp (2 ^ 16 - 1) else pure ())
  iput sb dp
  addLink sb ip (2 ^ 16 - 1)
  iput sb ip
  pure 0

def Dinode.unlinked (x : Dinode) : Bool := decide (x.nlink = 0 ∨ 2 ^ 15 ≤ x.nlink)

def occupied (ip : ℕ) : Op Bool := do
  let type ← .read fun s => (s.inode ip).type
  if type = T_DIR then do
    let empty ← isdirempty sb ip
    pure !empty
  else pure false

def unlinkName (dp : ℕ) (name : Name) : Op Int :=
  if namecmp name dot = 0 ∨ namecmp name dotdot = 0 then do
    iput sb dp
    pure (-1)
  else do
    match ← dirlookup sb dp name with
    | none => do
        iput sb dp
        pure (-1)
    | some (ip, off) => do
        ilock sb ip
        let x ← .read fun s => s.inode ip
        if x.unlinked then .panic .unlinkNlink
        else do
          let full ← occupied sb ip
          if full then do
            iput sb ip
            iput sb dp
            pure (-1)
          else unlinkEntry sb dp off ip

def sysUnlink (cwd : ℕ) (path : Option Path) : Op Int :=
  match path with
  | none => pure (-1)
  | some path => do
      match ← nameiparent sb cwd path with
      | none => pure (-1)
      | some (dp, name) => do
          ilock sb dp
          unlinkName sb dp name

def initInode (ip major minor : ℕ) : Op Unit := do
  .modify fun s => s.setInode ip
    { s.inode ip with major := major % 2 ^ 16, minor := minor % 2 ^ 16, nlink := 1 }
  iupdate sb ip

def createDots (dp ip : ℕ) : Op Unit := do
  addLink sb dp 1
  let r ← dirlink sb ip dot ip
  if r < 0 then .panic .createDots
  else do
    let r ← dirlink sb ip dotdot dp
    if r < 0 then .panic .createDots else pure ()

def createNew (dp : ℕ) (name : Name) (type major minor : ℕ) : Op (Option ℕ) := do
  let ip ← ialloc sb type
  ilock sb ip
  initInode sb ip major minor
  (if type = T_DIR then createDots sb dp ip else pure ())
  let r ← dirlink sb dp name ip
  if r < 0 then .panic .createDirlink
  else do
    iput sb dp
    pure (some ip)

def create (cwd : ℕ) (path : Path) (type major minor : ℕ) : Op (Option ℕ) := do
  match ← nameiparent sb cwd path with
  | none => pure none
  | some (dp, name) => do
      ilock sb dp
      match ← dirlookup sb dp name with
      | some (ip, _) => do
          iput sb dp
          ilock sb ip
          let t ← .read fun s => (s.inode ip).type
          if type = T_FILE ∧ t = T_FILE then pure (some ip)
          else do
            iput sb ip
            pure none
      | none => createNew sb dp name type major minor

def makeNode (cwd : ℕ) (path : Option Path) (type major minor : ℕ) : Op Int :=
  match path with
  | none => pure (-1)
  | some path => do
      match ← create sb cwd path type major minor with
      | none => pure (-1)
      | some ip => do
          iput sb ip
          pure 0

def sysMkdir (cwd : ℕ) (path : Option Path) : Op Int := makeNode sb cwd path T_DIR 0 0

def sysMknod (cwd : ℕ) (path : Option Path) (major minor : ℕ) : Op Int :=
  makeNode sb cwd path T_DEV major minor

end Xv6.Fs
