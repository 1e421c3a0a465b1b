import Xv6.Sys.Path

/-!
Open files: `file.c`, and the descriptor tables of `sysfile.c`.

The console is the one device. Its `read` and `write` give up the lock
of the inode while they wait for `cons.lock` and take it again before
they return; how many bytes a `read` delivers is what the console has.
-/

namespace Xv6.Sys

open Lib Function

variable {P : Type}

def beginOp : Op P Unit := .modify fun s => { s with outstanding := s.outstanding + 1 }

def endOp : Op P Unit := .modify fun s => { s with outstanding := s.outstanding - 1 }

def Inode.readi (ip : Inode) (off n : ℕ) : Int :=
  if ip.size < off ∨ (off + n) % 2 ^ 32 < off then -1
  else if ip.size < off + n then (ip.size - off : ℕ) else n

def Inode.grow (ip : Inode) (off n : ℕ) : Inode :=
  if 0 < n ∧ ip.len < off + n then { ip with len := off + n } else ip

def Inode.driver (ip : Inode) : Bool :=
  decide (0 ≤ ip.major.toInt) && decide (ip.major.toInt < NDEV) && decide (ip.major.toInt = CONSOLE)

def console (ip : ℕ) (r : Int) : Op P Int := do
  iunlock ip
  ilock ip
  pure r

def readi (ip off n avail : ℕ) : Op P Int :=
  .act id fun s =>
    let x := s.inode ip
    if x.type = .dev then if x.driver then console ip (min n avail : ℕ) else .pure (-1)
    else .pure (x.readi off n)

def Fs.writei (s : Fs P) (ip off n : ℕ) : Fs P :=
  if (s.inode ip).type ≠ .dev ∧ (s.inode ip).type ≠ .dir ∧ off ≤ (s.inode ip).size ∧
      off ≤ (off + n) % 2 ^ 32 ∧ off + n ≤ MAXFILE * BSIZE then
    s.setInode ip ((s.inode ip).grow off n)
  else s

section
variable (sb : Super)

def writei (ip off n : ℕ) : Op P Int :=
  .act (·.writei ip off n) fun s =>
    let x := s.inode ip
    if x.type = .dev then if x.driver then console ip n else .pure (-1)
    else if x.size < off ∨ (off + n) % 2 ^ 32 < off then .pure (-1)
    else if MAXFILE * BSIZE < off + n then .pure (-1)
    else if x.type = .dir then .panic .dirWrite
    else if sb.nblocks < used sb (s.setInode ip (x.grow off n)).inode then .panic .balloc
    else .pure n

end

def filealloc : Op P (Option (Fin NFILE)) :=
  .act (fun s =>
      match (List.finRange NFILE).find? fun f => decide ((s.file f).ref = 0) with
      | none => s
      | some f => s.setFile f { s.file f with ref := 1 }) fun s =>
    .pure ((List.finRange NFILE).find? fun f => decide ((s.file f).ref = 0))

def filedup (f : Fin NFILE) : Op P Unit :=
  .act (fun s => s.setFile f { s.file f with ref := (s.file f).ref + 1 }) fun s =>
    if (s.file f).ref < 1 then .panic .filedup else .pure ()

def Fs.closeFile (s : Fs P) (f : Fin NFILE) : Fs P :=
  if 1 < (s.file f).ref then s.setFile f { s.file f with ref := (s.file f).ref - 1 }
  else s.setFile f { s.file f with ref := 0, type := .none }

def fileclose (f : Fin NFILE) : Op P Unit :=
  .act (·.closeFile f) fun s =>
    if (s.file f).ref < 1 then .panic .fileclose
    else if 1 < (s.file f).ref then .pure ()
    else if (s.file f).type = .inode then do
      beginOp
      iput .iput (s.file f).ip
      endOp
    else .pure ()

def advance (f : Fin NFILE) (r : Int) : Op P Unit :=
  .modify fun s =>
    if 0 < r then s.setFile f { s.file f with off := (s.file f).off + r.toNat } else s

def filestat (f : Fin NFILE) : Op P Int := do
  let ff ← .read fun s => s.file f
  if ff.type = .inode then do
    ilock ff.ip
    iunlock ff.ip
    pure 0
  else pure (-1)

def fileread (f : Fin NFILE) (n avail : ℕ) : Op P Int := do
  let ff ← .read fun s => s.file f
  if ff.readable = false then pure (-1)
  else if ff.type = .inode then do
    ilock ff.ip
    let off ← .read fun s => (s.file f).off
    let r ← readi ff.ip off n avail
    advance f r
    iunlock ff.ip
    pure r
  else .panic .fileread

section
variable (sb : Super)

def maxWrite : ℕ := (MAXOPBLOCKS - 1 - 1 - 2) / 2 * 512

def filewriteLoop (f : Fin NFILE) (n : ℕ) : ℕ → ℕ → Op P Int
  | 0, i => pure (if i = n then (n : Int) else -1)
  | turns + 1, i =>
    if i < n then do
      let n₁ := min (n - i) maxWrite
      beginOp
      let ip ← .read fun s => (s.file f).ip
      ilock ip
      let off ← .read fun s => (s.file f).off
      let r ← writei sb ip off n₁
      advance f r
      iunlock ip
      endOp
      if r < 0 then pure (if i = n then (n : Int) else -1)
      else if r ≠ n₁ then .panic .shortFilewrite
      else filewriteLoop f n turns (i + r.toNat)
    else pure (if i = n then (n : Int) else -1)

def filewrite (f : Fin NFILE) (n : ℕ) : Op P Int := do
  let ff ← .read fun s => s.file f
  if ff.writable = false then pure (-1)
  else if ff.type = .inode then filewriteLoop sb f n n 0
  else .panic .filewrite

end

variable [DecidableEq P]

def Fs.setOfile (s : Fs P) (p : P) (fd : Fin NOFILE) (v : Option (Fin NFILE)) : Fs P :=
  { s with ofile := update s.ofile p (update (s.ofile p) fd v) }

def Fs.setCwd (s : Fs P) (p : P) (i : ℕ) : Fs P := { s with cwd := update s.cwd p i }

theorem fd_lt {fd : Int} (h : 0 ≤ fd ∧ fd < NOFILE) : fd.toNat < NOFILE := by omega

def Fs.argfd (s : Fs P) (p : P) (fd : Int) : Option (Fin NOFILE × Fin NFILE) :=
  if h : 0 ≤ fd ∧ fd < NOFILE then
    (s.ofile p ⟨fd.toNat, fd_lt h⟩).map fun f => (⟨fd.toNat, fd_lt h⟩, f)
  else none

def Fs.spareFd (s : Fs P) (p : P) : Option (Fin NOFILE) :=
  (List.finRange NOFILE).find? fun fd => (s.ofile p fd).isNone

def fdalloc (p : P) (f : Fin NFILE) : Op P (Option (Fin NOFILE)) :=
  .act (fun s =>
      match s.spareFd p with
      | none => s
      | some fd => s.setOfile p fd (some f)) fun s =>
    .pure (s.spareFd p)

end Xv6.Sys
