import Xv6.Lib.Ring
import Xv6.Lib.Transition

/-!
A pipe and the processes that use it: `pipe.c` with `sleep`, `wakeup` and
`kill`.

A step is what one process does between two points at which it can be
interleaved with others: a test or a store of `pipewrite`, `piperead` or
`pipeclose`, or a call of `acquire`, `release`, `sleep` or `wakeup`. The
critical sections of `ptable.lock` are single steps. `kill` can happen
between any two steps, also while the victim holds `p->lock`.

The bytes that have been stored in the pipe and those that have been taken
out of it are recorded, in that order; no function reads these records.
-/

namespace Xv6.Pipes

open Lib Function

abbrev PIPESIZE : ℕ := 512

structure Pipe extends Ring UInt8 PIPESIZE where
  readopen : Bool
  writeopen : Bool

inductive Chan where
  | nread | nwrite
  deriving DecidableEq, Repr

inductive Pc where
  | idle
  | writeLock (n : ℕ) (bs : List UInt8)
  | writeLoop (n : ℕ) (bs : List UInt8)
  | writeFull (n : ℕ) (bs : List UInt8)
  | writeWake (n : ℕ) (bs : List UInt8)
  | writeSleep (n : ℕ) (bs : List UInt8)
  | writeAsleep (n : ℕ) (bs : List UInt8)
  | readLock (n : ℕ)
  | readWait (n : ℕ)
  | readEmpty (n : ℕ)
  | readSleep (n : ℕ)
  | readAsleep (n : ℕ)
  | readLoop (n : ℕ) (got : List UInt8)
  | closeLock (writable : Bool)
  | closeStore (writable : Bool)
  | closeWake (writable : Bool)
  | closeEnd
  | ret (r : Int)
  deriving DecidableEq, Repr

structure Proc where
  killed : Bool
  pc : Pc
  result : Int
  deriving DecidableEq, Repr

structure Sys (P : Type) where
  pipe : Pipe
  lock : Option P
  proc : P → Proc
  freed : Bool
  stored : List UInt8
  delivered : List UInt8

inductive Act where
  | write (bs : List UInt8)
  | read (n : ℕ)
  | close (writable : Bool)
  | go
  | kill
  deriving DecidableEq, Repr

def Pc.wake (chan : Chan) : Pc → Pc
  | .writeAsleep n bs => if chan = .nwrite then .writeLock n bs else .writeAsleep n bs
  | .readAsleep n => if chan = .nread then .readLock n else .readAsleep n
  | pc => pc

namespace Sys

variable {P : Type}

def wakeup (s : Sys P) (chan : Chan) : Sys P :=
  { s with proc := fun q => { s.proc q with pc := (s.proc q).pc.wake chan } }

variable [DecidableEq P]

def goto (s : Sys P) (p : P) (pc : Pc) : Sys P :=
  { s with proc := update s.proc p { s.proc p with pc := pc } }

def acquire (s : Sys P) (p : P) (pc : Pc) : Option (Sys P) :=
  if s.lock = none then some { s.goto p pc with lock := some p } else none

def sleep (s : Sys P) (p : P) (pc : Pc) : Sys P := { s.goto p pc with lock := none }

def release (s : Sys P) (p : P) (r : Int) : Sys P :=
  { s with proc := update s.proc p ⟨(s.proc p).killed, .idle, r⟩, lock := none }

def store (s : Sys P) (b : UInt8) : Sys P :=
  { s with pipe := { s.pipe with toRing := s.pipe.put b }, stored := s.stored ++ [b] }

def deliver (s : Sys P) : Sys P :=
  { s with
    pipe := { s.pipe with toRing := s.pipe.pop }, delivered := s.delivered ++ [s.pipe.front] }

def shut (s : Sys P) (writable : Bool) : Sys P :=
  { s with
    pipe := if writable then { s.pipe with writeopen := false }
      else { s.pipe with readopen := false } }

def go (s : Sys P) (p : P) : Option (Sys P) :=
  match (s.proc p).pc with
  | .idle | .writeAsleep _ _ | .readAsleep _ => none
  | .writeLock n bs => s.acquire p (.writeLoop n bs)
  | .writeLoop n [] => some ((s.wakeup .nread).goto p (.ret n))
  | .writeLoop n (b :: bs) =>
    if s.pipe.full then some (s.goto p (.writeFull n (b :: bs)))
    else some ((s.store b).goto p (.writeLoop n bs))
  | .writeFull n bs =>
    if s.pipe.readopen = false ∨ (s.proc p).killed = true then some (s.goto p (.ret (-1)))
    else some (s.goto p (.writeWake n bs))
  | .writeWake n bs => some ((s.wakeup .nread).goto p (.writeSleep n bs))
  | .writeSleep n bs => some (s.sleep p (.writeAsleep n bs))
  | .readLock n => s.acquire p (.readWait n)
  | .readWait n =>
    if s.pipe.empty ∧ s.pipe.writeopen = true then some (s.goto p (.readEmpty n))
    else some (s.goto p (.readLoop n []))
  | .readEmpty n =>
    if (s.proc p).killed = true then some (s.goto p (.ret (-1)))
    else some (s.goto p (.readSleep n))
  | .readSleep n => some (s.sleep p (.readAsleep n))
  | .readLoop n got =>
    if got.length < n ∧ ¬ s.pipe.empty then
      some (s.deliver.goto p (.readLoop n (got ++ [s.pipe.front])))
    else some ((s.wakeup .nwrite).goto p (.ret got.length))
  | .closeLock w => s.acquire p (.closeStore w)
  | .closeStore w => some ((s.shut w).goto p (.closeWake w))
  | .closeWake w => some ((s.wakeup (if w then .nread else .nwrite)).goto p .closeEnd)
  | .closeEnd =>
    some { s.release p 0 with
      freed := decide (s.pipe.readopen = false ∧ s.pipe.writeopen = false) }
  | .ret r => some (s.release p r)

def kill (s : Sys P) (p : P) : Sys P :=
  { s with
    proc := update s.proc p { s.proc p with
      killed := true, pc := ((s.proc p).pc.wake .nread).wake .nwrite } }

def call (s : Sys P) (p : P) (pc : Pc) : Option (Sys P) :=
  if (s.proc p).pc = .idle then some (s.goto p pc) else none

def step (s : Sys P) (l : P × Act) : Option (Sys P) :=
  if s.freed then none
  else match l.2 with
    | .write bs => s.call l.1 (.writeLock bs.length bs)
    | .read n => s.call l.1 (.readLock n)
    | .close w => s.call l.1 (.closeLock w)
    | .go => s.go l.1
    | .kill => some (s.kill l.1)

end Sys

def pipealloc (data : Fin PIPESIZE → UInt8) : Pipe :=
  { data := data, nread := 0, nwrite := 0, readopen := true, writeopen := true }

def start {P : Type} (data : Fin PIPESIZE → UInt8) (killed : P → Bool) : Sys P where
  pipe := pipealloc data
  lock := none
  proc := fun p => ⟨killed p, .idle, 0⟩
  freed := false
  stored := []
  delivered := []

end Xv6.Pipes
