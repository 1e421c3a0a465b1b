import Xv6.Files.Table
import Xv6.Lib.Triple
import Xv6.Sys.Calls

/-!
What a system call does to the log: its calls of `begin_op`, `end_op`,
`iput` and `log_write`, in order.

The programs here have the control flow of `fs.c` and `file.c`. The
outcome of a check that does not matter for this question is a question
to an oracle, `answer`: what a directory holds, whether a link count is
zero, whether an allocation fails or a panic is reached. A theorem for
every oracle is then about every outcome of the checks. Three things are
kept because the events depend on them. The type of an open file decides
whether `fileclose` starts a transaction. The block map of an inode
decides whether `readi` allocates, since `bmap` does so for a hole. The
offset and the size decide which blocks that are.
-/

namespace Xv6.Trans

open Lib Files Function

inductive Ev where
  | beginOp | endOp | iput (ip : ℕ) | logWrite
  deriving DecidableEq, Repr

inductive Panic where
  | tooBig | balloc | freeing | ialloc | iget | ilock | iunlock | bmap
  | dirlookup | dirlookupRead | dirlinkRead | dirlink
  | isdirempty | unlinkNlink | unlinkWritei | createDots | createDirlink
  | filedup | fileclose | fileread | filewrite | shortFilewrite | initExiting | vm
  deriving DecidableEq, Repr

structure Inode where
  size : ℕ
  mapped : ℕ → Bool
  indirect : Bool

structure St where
  ftable : Ftable
  ofile : Ofile
  cwd : ℕ
  inode : ℕ → Inode
  answer : ℕ → ℕ
  asked : ℕ
  trace : List Ev

def St.NoHoles (s : St) : Prop :=
  ∀ ip bn, bn * BSIZE < (s.inode ip).size →
    (s.inode ip).mapped bn = true ∧ (NDIRECT ≤ bn → (s.inode ip).indirect = true)

abbrev Op (α : Type) := Prog Empty Empty Panic St α

def emit (e : Ev) : Op Unit := .modify fun s => { s with trace := s.trace ++ [e] }

def ask : Op ℕ := .act (fun s => { s with asked := s.asked + 1 }) fun s => .pure (s.answer s.asked)

def check : Op Bool := do
  let n ← ask
  pure (n % 2 == 1)

def mayPanic (e : Panic) : Op Unit := do
  if ← check then .panic e else pure ()

def beginOp : Op Unit := emit .beginOp

def endOp : Op Unit := emit .endOp

def logWrite : Op Unit := do
  emit .logWrite
  mayPanic .tooBig

section

def balloc : Op Unit := do
  mayPanic .balloc
  logWrite
  logWrite

def bfree : Op Unit := do
  mayPanic .freeing
  logWrite

def iupdate : Op Unit := logWrite

def iget : Op Unit := mayPanic .iget

def ialloc : Op ℕ := do
  mayPanic .ialloc
  let inum ← ask
  logWrite
  iget
  pure inum

def ilock (_ip : ℕ) : Op Unit := mayPanic .ilock

def iunlock (_ip : ℕ) : Op Unit := mayPanic .iunlock

def bfreeAll (ip : ℕ) : List ℕ → Op Unit
  | [] => pure ()
  | bn :: rest => do
      if ← .read fun s => (s.inode ip).mapped bn then
        bfree
        bfreeAll ip rest
      else bfreeAll ip rest

def itrunc (ip : ℕ) : Op Unit := do
  bfreeAll ip (List.range NDIRECT)
  (do
    if ← .read fun s => (s.inode ip).indirect then
      bfreeAll ip (List.range' NDIRECT NINDIRECT)
      bfree
    else pure ())
  .modify fun s => { s with inode := update s.inode ip ⟨0, fun _ => false, false⟩ }
  iupdate

def iput (ip : ℕ) : Op Unit := do
  emit (.iput ip)
  if ← check then
    itrunc ip
    iupdate
  else pure ()

def iunlockput (ip : ℕ) : Op Unit := do
  iunlock ip
  iput ip

def St.setMapped (s : St) (ip bn : ℕ) : St :=
  { s with
    inode := update s.inode ip
      { s.inode ip with mapped := update (s.inode ip).mapped bn true } }

def St.setIndirect (s : St) (ip : ℕ) : St :=
  { s with inode := update s.inode ip { s.inode ip with indirect := true } }

def bmap (ip bn : ℕ) : Op Unit :=
  if bn < NDIRECT then do
    if ← .read fun s => (s.inode ip).mapped bn then pure ()
    else
      balloc
      .modify fun s => s.setMapped ip bn
  else if bn < NDIRECT + NINDIRECT then do
    (do
      if ← .read fun s => (s.inode ip).indirect then pure ()
      else
        balloc
        .modify fun s => s.setIndirect ip)
    if ← .read fun s => (s.inode ip).mapped bn then pure ()
    else
      balloc
      .modify fun s => s.setMapped ip bn
      logWrite
  else .panic .bmap

def readiLoop (ip : ℕ) : ℕ → ℕ → ℕ → Op Unit
  | 0, _, _ => pure ()
  | turns + 1, off, n =>
    if n = 0 then pure ()
    else do
      bmap ip (off / BSIZE)
      let m := min n (BSIZE - off % BSIZE)
      readiLoop ip turns (off + m) (n - m)

def devsw : Op Int := do
  if ← check then pure (-1)
  else
    let r ← ask
    if ← check then pure r else pure (-1)

def readi (ip off n : ℕ) : Op Int := do
  if ← check then devsw
  else
    let size ← .read fun s => (s.inode ip).size
    if size < off ∨ (off + n) % 2 ^ 32 < off then pure (-1)
    else
      let n := if size < off + n then size - off else n
      readiLoop ip n off n
      pure n

def writeiLoop (ip : ℕ) : ℕ → ℕ → ℕ → Op Unit
  | 0, _, _ => pure ()
  | turns + 1, off, n =>
    if n = 0 then pure ()
    else do
      bmap ip (off / BSIZE)
      logWrite
      let m := min n (BSIZE - off % BSIZE)
      writeiLoop ip turns (off + m) (n - m)

def writei (ip off n : ℕ) : Op Int := do
  if ← check then devsw
  else
    let size ← .read fun s => (s.inode ip).size
    if size < off ∨ (off + n) % 2 ^ 32 < off then pure (-1)
    else if MAXFILE * BSIZE < off + n then pure (-1)
    else
      writeiLoop ip n off n
      if 0 < n ∧ size < off + n then
        .modify fun s =>
          { s with inode := update s.inode ip { s.inode ip with size := off + n } }
        iupdate
        pure n
      else pure n

def scanDir (e : Panic) (dp : ℕ) : ℕ → ℕ → Op (Option ℕ)
  | 0, _ => pure none
  | n + 1, off => do
      let r ← readi dp off 16
      if r ≠ 16 then .panic e
      else if ← check then pure (some off)
      else scanDir e dp n (off + 16)

def St.entriesFrom (s : St) (dp off : ℕ) : ℕ := ((s.inode dp).size - off + 15) / 16

def dirlookup (dp : ℕ) : Op (Option (ℕ × ℕ)) := do
  mayPanic .dirlookup
  let n ← .read fun s => s.entriesFrom dp 0
  match ← scanDir .dirlookupRead dp n 0 with
  | none => pure none
  | some off => do
      iget
      let ip ← ask
      pure (some (ip, off))

def dirlink (dp : ℕ) : Op Int := do
  match ← dirlookup dp with
  | some (ip, _) => do
      iput ip
      pure (-1)
  | none => do
      let n ← .read fun s => s.entriesFrom dp 0
      let free ← scanDir .dirlinkRead dp n 0
      let r ← writei dp (free.getD (16 * n)) 16
      if r ≠ 16 then .panic .dirlink else pure 0

def namexLoop (nameiparent : Bool) : ℕ → List Sys.Name → Op (Option ℕ)
  | ip, [] =>
    if nameiparent then do
      iput ip
      pure none
    else pure (some ip)
  | ip, _ :: rest => do
      ilock ip
      if ← check then
        iunlockput ip
        pure none
      else if nameiparent && rest.isEmpty then
        iunlock ip
        pure (some ip)
      else
        match ← dirlookup ip with
        | none => do
            iunlockput ip
            pure none
        | some (next, _) => do
            iunlockput ip
            namexLoop nameiparent next rest

def namex (path : Sys.Path) (nameiparent : Bool) : Op (Option ℕ) :=
  if path.head? = some Sys.slash then do
    iget
    namexLoop nameiparent ROOTINO (Sys.elems path)
  else do
    let cwd ← .read fun s => s.cwd
    namexLoop nameiparent cwd (Sys.elems path)

def namei (path : Sys.Path) : Op (Option ℕ) := namex path false

def nameiparent (path : Sys.Path) : Op (Option ℕ) := namex path true

end

def filealloc : Op (Option (Fin NFILE)) :=
  .act (fun s => { s with ftable := (s.ftable.unused.map s.ftable.take).getD s.ftable }) fun s =>
    .pure s.ftable.unused

def filedup (f : Fin NFILE) : Op Unit := do
  if ← .read fun s => decide ((s.ftable f).ref < 1) then .panic .filedup
  else .modify fun s => { s with ftable := s.ftable.dup f }

def fileclose (f : Fin NFILE) : Op Unit := do
  let ff ← .read fun s => s.ftable f
  if ff.ref < 1 then .panic .fileclose
  else
    .modify fun s => { s with ftable := s.ftable.drop f }
    if 1 < ff.ref then pure ()
    else if ff.type = .inode then
      beginOp
      iput ff.ip
      endOp
    else pure ()

def filestat (f : Fin NFILE) : Op Int := do
  let ff ← .read fun s => s.ftable f
  if ff.type = .inode then
    ilock ff.ip
    iunlock ff.ip
    pure 0
  else pure (-1)

def pipe : Op Int := do
  let r ← ask
  if ← check then pure r else pure (-1)

def advance (f : Fin NFILE) (r : Int) : Op Unit :=
  .modify fun s =>
    { s with
      ftable := update s.ftable f
        { s.ftable f with off := (s.ftable f).off + r.toNat } }

def fileread (f : Fin NFILE) (n : ℕ) : Op Int := do
  let ff ← .read fun s => s.ftable f
  if ff.readable = false then pure (-1)
  else if ff.type = .pipe then pipe
  else if ff.type = .inode then
    ilock ff.ip
    let r ← readi ff.ip ff.off n
    advance f r
    iunlock ff.ip
    pure r
  else .panic .fileread

def filewriteLoop (f : Fin NFILE) (n : ℕ) : ℕ → ℕ → Op Int
  | 0, i => pure (if i = n then (n : Int) else -1)
  | turns + 1, i =>
    if i < n then do
      let n₁ := min (n - i) Sys.maxWrite
      beginOp
      let ff ← .read fun s => s.ftable f
      ilock ff.ip
      let r ← writei ff.ip ff.off n₁
      advance f r
      iunlock ff.ip
      endOp
      if r < 0 then pure (if i = n then (n : Int) else -1)
      else if r ≠ n₁ then .panic .shortFilewrite
      else filewriteLoop f n turns (i + r.toNat)
    else pure (if i = n then (n : Int) else -1)

def filewrite (f : Fin NFILE) (n : ℕ) : Op Int := do
  let ff ← .read fun s => s.ftable f
  if ff.writable = false then pure (-1)
  else if ff.type = .pipe then pipe
  else if ff.type = .inode then filewriteLoop f n n 0
  else .panic .filewrite

def fdalloc (f : Fin NFILE) : Op (Option (Fin NOFILE)) :=
  .act (fun s => { s with ofile := s.ofile.alloc f }) fun s => .pure s.ofile.spare

end Xv6.Trans
