import Mathlib.Data.List.FinRange
import Xv6.Param

/-!
The process table of `proc.c` and what its functions do to it.

Each function here is the part of a function of the source that runs
while `ptable.lock` is held, or one store of `fork` that is made without
the lock. Memory, open files and names of processes are left out.

Three fields record the history and are read by no function: `born`
numbers the calls of `allocproc` that succeed, `births` is the next such
number, and `log` lists what happened, the latest event first. A process
is identified by its number, since an `int` cannot keep process ids apart
for ever.
-/

namespace Xv6.Procs

abbrev Slot := Fin NPROC

inductive PState where
  | unused | embryo | sleeping | runnable | running | zombie
  deriving DecidableEq, Repr

inductive Chan where
  | proc (p : Slot)
  | addr (n : ℕ)
  deriving DecidableEq, Repr

inductive Resume where
  | forkret | yield | sleep | wait
  deriving DecidableEq, Repr

inductive Fork where
  | no
  | alloc (np : Slot)
  | adopted (np : Slot)
  deriving DecidableEq, Repr

structure Proc where
  state : PState
  pid : Int32
  parent : Option Slot
  chan : Option Chan
  killed : Bool
  resume : Resume
  fork : Fork
  born : ℕ
  deriving DecidableEq, Repr

inductive Event where
  | alloc (f b : ℕ) (pid : Int32)
  | kill (pid : Int32)
  | exit (b : ℕ)
  | wait (r b : ℕ) (pid : Int32)
  deriving DecidableEq, Repr

structure Ptable where
  proc : Slot → Proc
  initproc : Slot
  nextpid : Int32
  births : ℕ
  log : List Event

namespace Ptable

def set (t : Ptable) (p : Slot) (x : Proc) : Ptable :=
  { t with proc := Function.update t.proc p x }

def record (t : Ptable) (e : Event) : Ptable := { t with log := e :: t.log }

def findUnused (t : Ptable) : Option Slot :=
  (List.finRange NPROC).find? fun p => decide ((t.proc p).state = .unused)

def allocproc (t : Ptable) (p np : Slot) : Ptable :=
  { (t.set np { t.proc np with
      state := .embryo, pid := t.nextpid, resume := .forkret, born := t.births }) with
    nextpid := t.nextpid + 1
    births := t.births + 1 }.record (.alloc (t.proc p).born t.births t.nextpid)

def setFork (t : Ptable) (p : Slot) (f : Fork) : Ptable := t.set p { t.proc p with fork := f }

def forkFail (t : Ptable) (np : Slot) : Ptable := t.set np { t.proc np with state := .unused }

def adopt (t : Ptable) (p np : Slot) : Ptable := t.set np { t.proc np with parent := some p }

def forkDone (t : Ptable) (np : Slot) : Ptable := t.set np { t.proc np with state := .runnable }

def wakeup1 (t : Ptable) (chan : Option Chan) : Ptable :=
  { t with
    proc := fun p =>
      if (t.proc p).state = .sleeping ∧ (t.proc p).chan = chan then
        { t.proc p with state := .runnable }
      else t.proc p }

def findPid (t : Ptable) (pid : Int32) : Option Slot :=
  (List.finRange NPROC).find? fun p => decide ((t.proc p).pid = pid)

def kill (t : Ptable) (pid : Int32) : Ptable × Int :=
  match t.findPid pid with
  | none => (t, -1)
  | some p =>
    (t.set p { t.proc p with
      killed := true
      state := if (t.proc p).state = .sleeping then .runnable else (t.proc p).state }, 0)

def passChild (cur : Slot) (t : Ptable) (p : Slot) : Ptable :=
  if (t.proc p).parent = some cur then
    let t := t.set p { t.proc p with parent := some t.initproc }
    if (t.proc p).state = .zombie then t.wakeup1 (some (.proc t.initproc)) else t
  else t

def passChildren (t : Ptable) (cur : Slot) : Ptable :=
  (List.finRange NPROC).foldl (passChild cur) t

def exit (t : Ptable) (cur : Slot) : Ptable :=
  let t := (t.wakeup1 ((t.proc cur).parent.map .proc)).passChildren cur
  (t.set cur { t.proc cur with state := .zombie }).record (.exit (t.proc cur).born)

def zombieChild (t : Ptable) (cur : Slot) : Option Slot :=
  (List.finRange NPROC).find? fun p =>
    decide ((t.proc p).parent = some cur) && decide ((t.proc p).state = .zombie)

def haveKids (t : Ptable) (cur : Slot) : Bool :=
  (List.finRange NPROC).any fun p => decide ((t.proc p).parent = some cur)

def reap (t : Ptable) (cur p : Slot) : Ptable :=
  (t.set p { t.proc p with state := .unused, pid := 0, parent := none, killed := false }).record
    (.wait (t.proc cur).born (t.proc p).born (t.proc p).pid)

def sleepOn (t : Ptable) (p : Slot) (chan : Chan) (r : Resume) : Ptable :=
  t.set p { t.proc p with state := .sleeping, chan := some chan, resume := r }

end Ptable

end Xv6.Procs
