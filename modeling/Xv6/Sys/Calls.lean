import Xv6.Sys.File

/-!
The file-system calls of `sysfile.c`, and what `exit` does with files.

An argument that is a string is `none` when `argstr` rejects it. What a
process is in the middle of is the rest of one of these programs.
-/

namespace Xv6.Sys

open Lib

variable {P : Type}

inductive Call where
  | link (old new : Option Path)
  | unlink (path : Option Path)
  | open (path : Option Path) (omode : UInt32)
  | mkdir (path : Option Path)
  | mknod (path : Option Path) (major minor : Int16)
  | chdir (path : Option Path)
  | read (fd : Int) (n : Int) (avail : ℕ)
  | write (fd : Int) (n : Int)
  | close (fd : Int)
  | dup (fd : Int)
  | fstat (fd : Int)
  | exit
  deriving DecidableEq, Repr

variable (sb : Super)

def linkBad (ip : ℕ) : Op P Int := do
  ilock ip
  .modify (·.addLink ip (-1))
  iunlockput .iput ip
  endOp
  pure (-1)

def linkEnter (p : P) (new : Path) (ip : ℕ) : Op P Int := do
  match ← nameiparent sb p new with
  | none => linkBad ip
  | some (dp, name) => do
      ilock dp
      let r ← dirlink sb dp name ip
      iunlockput .iput dp
      if r < 0 then linkBad ip
      else do
        iput .iput ip
        endOp
        pure 0

def sysLink (p : P) (old new : Option Path) : Op P Int :=
  match old, new with
  | some old, some new => do
      beginOp
      match ← namei sb p old with
      | none => do
          endOp
          pure (-1)
      | some ip => do
          ilock ip
          let type ← .read fun s => (s.inode ip).type
          if type = .dir then do
            iunlockput .iput ip
            endOp
            pure (-1)
          else do
            .modify (·.addLink ip 1)
            iunlock ip
            linkEnter sb p new ip
  | _, _ => pure (-1)

def Fs.isdirempty (s : Fs P) (dp : ℕ) : Bool :=
  ((s.inode dp).entries.drop 2).all fun e => decide (e.inum = 0)

def unlinkBad (dp : ℕ) : Op P Int := do
  iunlockput .iput dp
  endOp
  pure (-1)

def unlinkEntry (dp n ip : ℕ) : Op P Int := do
  .modify fun s => s.writeEntry dp n .empty
  .modify fun s => if (s.inode ip).type = .dir then s.addLink dp (-1) else s
  iunlockput .putParent dp
  .modify (·.addLink ip (-1))
  iunlockput .iput ip
  endOp
  pure 0

def unlinkName (dp : ℕ) (name : Name) : Op P Int :=
  if name = dot ∨ name = dotdot then unlinkBad dp
  else do
    match ← dirlookup sb dp name with
    | none => unlinkBad dp
    | some (ip, n) => do
        ilock ip
        let x ← .read fun s => (s.inode ip, s.isdirempty ip)
        if x.1.nlink.toInt < 1 then .panic .unlinkNlink
        else if x.1.type = .dir ∧ x.2 = false then do
          iunlockput .iput ip
          unlinkBad dp
        else unlinkEntry dp n ip

def sysUnlink (p : P) (path : Option Path) : Op P Int :=
  match path with
  | none => pure (-1)
  | some path => do
      beginOp
      match ← nameiparent sb p path with
      | none => do
          endOp
          pure (-1)
      | some (dp, name) => do
          ilock dp
          unlinkName sb dp name

def createDots (dp ip : ℕ) : Op P Unit := do
  .modify (·.addLink dp 1)
  let r ← dirlink sb ip dot ip
  if r < 0 then .panic .createDots
  else do
    let r ← dirlink sb ip dotdot dp
    if r < 0 then .panic .createDots else pure ()

def createNew (dp : ℕ) (name : Name) (type : IType) (major minor : Int16) :
    Op P (Option ℕ) := do
  let ip ← ialloc sb type
  ilock ip
  .modify (·.initInode ip major minor)
  (if type = .dir then createDots sb dp ip else pure ())
  let r ← dirlink sb dp name ip
  if r < 0 then .panic .createDirlink
  else do
    iunlockput .putParent dp
    pure (some ip)

def create (p : P) (path : Path) (type : IType) (major minor : Int16) : Op P (Option ℕ) := do
  match ← nameiparent sb p path with
  | none => pure none
  | some (dp, name) => do
      ilock dp
      match ← dirlookup sb dp name with
      | some (ip, _) => do
          iunlockput .iput dp
          ilock ip
          let t ← .read fun s => (s.inode ip).type
          if type = .file ∧ t = .file then pure (some ip)
          else do
            iunlockput .iput ip
            pure none
      | none => createNew sb dp name type major minor

def openInode (p : P) (path : Path) (omode : UInt32) : Op P (Option ℕ) :=
  if omode &&& O_CREATE ≠ 0 then create sb p path .file 0 0
  else do
    match ← namei sb p path with
    | none => pure none
    | some ip => do
        ilock ip
        let type ← .read fun s => (s.inode ip).type
        if type = .dir ∧ omode ≠ 0 then do
          iunlockput .iput ip
          pure none
        else pure (some ip)

def mknodEnd (r : Option ℕ) : Op P Int :=
  match r with
  | none => do
      endOp
      pure (-1)
  | some ip => do
      iunlockput .iput ip
      endOp
      pure 0

def makeNode (p : P) (path : Option Path) (type : IType) (major minor : Int16) : Op P Int := do
  beginOp
  match path with
  | none => mknodEnd none
  | some path => do
      let r ← create sb p path type major minor
      mknodEnd r

def sysMkdir (p : P) (path : Option Path) : Op P Int := do
  beginOp
  match path with
  | none => mknodEnd none
  | some path => do
      let r ← create sb p path .dir 0 0
      mknodEnd r

def sysMknod (p : P) (path : Option Path) (major minor : Int16) : Op P Int := do
  beginOp
  match path with
  | none => mknodEnd none
  | some path => do
      let r ← create sb p path .dev major minor
      mknodEnd r

variable [DecidableEq P]

def openedFile (f : File) (ip : ℕ) (omode : UInt32) : File :=
  { f with
    type := .inode, ip := ip, off := 0
    readable := decide (omode &&& O_WRONLY = 0)
    writable := decide (omode &&& O_WRONLY ≠ 0 ∨ omode &&& O_RDWR ≠ 0) }

def openFail (ip : ℕ) : Op P Int := do
  iunlockput .iput ip
  endOp
  pure (-1)

def openFile (p : P) (ip : ℕ) (omode : UInt32) : Op P Int := do
  match ← filealloc with
  | none => openFail ip
  | some f => do
      match ← fdalloc p f with
      | none => do
          fileclose f
          openFail ip
      | some fd => do
          iunlock ip
          endOp
          .modify fun s => s.setFile f (openedFile (s.file f) ip omode)
          pure fd.val

def sysOpen (p : P) (path : Option Path) (omode : UInt32) : Op P Int :=
  match path with
  | none => pure (-1)
  | some path => do
      beginOp
      match ← openInode sb p path omode with
      | none => do
          endOp
          pure (-1)
      | some ip => openFile p ip omode

def sysChdir (p : P) (path : Option Path) : Op P Int := do
  beginOp
  match path with
  | none => do
      endOp
      pure (-1)
  | some path => do
      match ← namei sb p path with
      | none => do
          endOp
          pure (-1)
      | some ip => do
          ilock ip
          let type ← .read fun s => (s.inode ip).type
          if type ≠ .dir then do
            iunlockput .iput ip
            endOp
            pure (-1)
          else do
            iunlock ip
            let cwd ← .read fun s => s.cwd p
            iput .iput cwd
            endOp
            .modify fun s => s.setCwd p ip
            pure 0

def withFd (p : P) (fd : Int) (k : Fin NOFILE → Fin NFILE → Op P Int) : Op P Int := do
  match ← .read fun s => s.argfd p fd with
  | none => pure (-1)
  | some (d, f) => k d f

def sysRead (p : P) (fd n : Int) (avail : ℕ) : Op P Int :=
  withFd p fd fun _ f => if n < 0 then pure (-1) else fileread f n.toNat avail

def sysWrite (p : P) (fd n : Int) : Op P Int :=
  withFd p fd fun _ f => if n < 0 then pure (-1) else filewrite sb f n.toNat

def sysClose (p : P) (fd : Int) : Op P Int :=
  withFd p fd fun d f => do
    .modify fun s => s.setOfile p d none
    fileclose f
    pure 0

def sysDup (p : P) (fd : Int) : Op P Int :=
  withFd p fd fun _ f => do
    match ← fdalloc p f with
    | none => pure (-1)
    | some d => do
        filedup f
        pure d.val

def sysFstat (p : P) (fd : Int) : Op P Int := withFd p fd fun _ f => filestat f

def exitFiles (p : P) : List (Fin NOFILE) → Op P Unit
  | [] => pure ()
  | fd :: rest => do
      match ← .read fun s => s.ofile p fd with
      | none => exitFiles p rest
      | some f => do
          fileclose f
          .modify fun s => s.setOfile p fd none
          exitFiles p rest

def exit (p : P) : Op P Int := do
  exitFiles p (List.finRange NOFILE)
  beginOp
  let cwd ← .read fun s => s.cwd p
  iput .iput cwd
  endOp
  .modify fun s => s.setCwd p 0
  pure 0

def body (p : P) : Call → Op P Int
  | .link old new => sysLink sb p old new
  | .unlink path => sysUnlink sb p path
  | .open path omode => sysOpen sb p path omode
  | .mkdir path => sysMkdir sb p path
  | .mknod path major minor => sysMknod sb p path major minor
  | .chdir path => sysChdir sb p path
  | .read fd n avail => sysRead p fd n avail
  | .write fd n => sysWrite sb p fd n
  | .close fd => sysClose p fd
  | .dup fd => sysDup p fd
  | .fstat fd => sysFstat p fd
  | .exit => exit p

end Xv6.Sys
