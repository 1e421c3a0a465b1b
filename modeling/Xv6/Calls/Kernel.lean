import Xv6.Files.Table
import Xv6.Fs.Inode
import Xv6.Lib.Zoom

/-!
What one process sees of the kernel: the file system on its disk, the table of
open files, its descriptors and current directory, pipes, and free pages.

The functions are those of `file.c`, `pipe.c` and `sysfile.c` on files and
pipes. A call runs alone here; `begin_op`, `end_op` and locks do nothing to this
state.
-/

namespace Xv6.Calls

open Lib Files Function

structure Pipe where
  nread : ℕ
  nwrite : ℕ
  readopen : Bool
  writeopen : Bool
  deriving DecidableEq, Repr

structure Kernel where
  fs : Fs.State
  file : Ftable
  ofile : Ofile
  cwd : ℕ
  pipe : ℕ → Pipe
  free : List ℕ

inductive Panic where
  | fs (e : Fs.Panic)
  | fileclose | filewrite | shortFilewrite
  deriving DecidableEq, Repr

abbrev Op (α : Type) := Prog Empty Empty Panic Kernel α

variable {α : Type}

def fsPart : Part Kernel Fs.State where
  get := Kernel.fs
  set k s := { k with fs := s }
  get_set _ _ := rfl
  set_get _ := rfl
  set_set _ _ _ := rfl

@[irreducible] def fs (x : Fs.Op α) : Op α := x.zoom fsPart Empty.elim Empty.elim .fs

theorem triple_fs {k : Kernel} {x : Fs.Op α} {Q : α → Fs.State → Prop}
    {E : Fs.Panic → Fs.State → Prop} (h : Triple (· = k.fs) x Q E) :
    Triple (· = k) (fs x) (fun a k' => ∃ s, k' = { k with fs := s } ∧ Q a s)
      fun e k' => ∃ e' s, e = .fs e' ∧ k' = { k with fs := s } ∧ E e' s := by
  unfold fs
  exact .zoom fsPart h

def Kernel.setFile (k : Kernel) (f : Fin NFILE) (x : File) : Kernel :=
  { k with file := update k.file f x }

def Kernel.setPipe (k : Kernel) (p : ℕ) (x : Pipe) : Kernel :=
  { k with pipe := update k.pipe p x }

def kalloc : Op (Option ℕ) :=
  .act (fun k => { k with free := k.free.tail }) fun k => .pure k.free.head?

def kfree (p : ℕ) : Op Unit := .modify fun k => { k with free := p :: k.free }

def filealloc : Op (Option (Fin NFILE)) := do
  match ← .read fun k => k.file.unused with
  | none => pure none
  | some f => do
      .modify fun k => { k with file := k.file.take f }
      pure (some f)

def pipeclose (p : ℕ) (writable : Bool) : Op Unit := do
  .modify fun k => k.setPipe p
    (if writable then { k.pipe p with writeopen := false }
    else { k.pipe p with readopen := false })
  let x ← .read fun k => k.pipe p
  if x.readopen = false ∧ x.writeopen = false then kfree p else pure ()

variable (sb : Fs.Super)

def fileclose (f : Fin NFILE) : Op Unit := do
  let ff ← .read fun k => k.file f
  if ff.ref < 1 then .panic .fileclose
  else do
    .modify fun k => { k with file := k.file.drop f }
    if 1 < ff.ref then pure ()
    else if ff.type = .pipe then pipeclose ff.pipe ff.writable
    else if ff.type = .inode then fs (Fs.iput sb ff.ip)
    else pure ()

def fdalloc (f : Fin NFILE) : Op (Option (Fin NOFILE)) := do
  match ← .read fun k => k.ofile.spare with
  | none => pure none
  | some fd => do
      .modify fun k => { k with ofile := update k.ofile fd (some f) }
      pure (some fd)

def Pipe.new : Pipe := ⟨0, 0, true, true⟩

def readEnd (x : File) (p : ℕ) : File :=
  { x with type := .pipe, readable := true, writable := false, pipe := p }

def writeEnd (x : File) (p : ℕ) : File :=
  { x with type := .pipe, readable := false, writable := true, pipe := p }

def pipealloc : Op (Option (Fin NFILE × Fin NFILE)) := do
  match ← filealloc with
  | none => pure none
  | some f0 => do
      match ← filealloc with
      | none => do
          fileclose sb f0
          pure none
      | some f1 => do
          match ← kalloc with
          | none => do
              fileclose sb f0
              fileclose sb f1
              pure none
          | some p => do
              .modify fun k => k.setPipe p .new
              .modify fun k => k.setFile f0 (readEnd (k.file f0) p)
              .modify fun k => k.setFile f1 (writeEnd (k.file f1) p)
              pure (some (f0, f1))

def sysPipe (arg : Bool) : Op (Option (Fin NOFILE × Fin NOFILE)) := do
  if arg = false then pure none
  else
    match ← pipealloc sb with
    | none => pure none
    | some (rf, wf) => do
        match ← fdalloc rf with
        | none => do
            fileclose sb rf
            fileclose sb wf
            pure none
        | some fd0 => do
            match ← fdalloc wf with
            | none => do
                .modify fun k => { k with ofile := update k.ofile fd0 none }
                fileclose sb rf
                fileclose sb wf
                pure none
            | some fd1 => pure (some (fd0, fd1))

def maxWrite : ℕ := (MAXOPBLOCKS - 1 - 1 - 2) / 2 * 512

def advance (f : Fin NFILE) (r : ℕ) : Op Unit :=
  .modify fun k =>
    if 0 < r then k.setFile f { k.file f with off := ((k.file f).off + r) % 2 ^ 32 } else k

def writeChunk (dev : Option ℕ) (f : Fin NFILE) (addr : List UInt8) (n₁ : ℕ) :
    Op (Option ℕ) := do
  let ip ← .read fun k => (k.file f).ip
  fs (Fs.ilock sb ip)
  let off ← .read fun k => (k.file f).off
  let r ← fs (Fs.writei sb dev ip (addr.take n₁) (.ofNat off) (.ofNat n₁))
  advance f (r.getD 0)
  pure r

def filewriteLoop (dev : Option ℕ) (f : Fin NFILE) (addr : List UInt8) (n : ℕ) :
    ℕ → ℕ → Op Int
  | 0, i => pure (if i = n then (n : Int) else -1)
  | turns + 1, i =>
    if i < n then do
      match ← writeChunk sb dev f (addr.drop i) (min (n - i) maxWrite) with
      | none => pure (if i = n then (n : Int) else -1)
      | some r =>
        if r ≠ min (n - i) maxWrite then .panic .shortFilewrite
        else filewriteLoop dev f addr n turns (i + r)
    else pure (if i = n then (n : Int) else -1)

def filewrite (dev : Option ℕ) (pipe : Int) (f : Fin NFILE) (addr : List UInt8) (n : ℕ) :
    Op Int := do
  let ff ← .read fun k => k.file f
  if ff.writable = false then pure (-1)
  else if ff.type = .pipe then pure pipe
  else if ff.type = .inode then filewriteLoop sb dev f addr n n 0
  else .panic .filewrite

end Xv6.Calls
