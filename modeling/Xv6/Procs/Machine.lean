import Xv6.Lib.Transition
import Xv6.Procs.Table

/-!
Processors and the scheduler.

A step is what one processor does in a critical section of `ptable.lock`,
or a store outside of one. A critical section that `sched` hands over to
the scheduler, and the scheduler to another process, is cut where the
context changes, and the lock stays taken in between. `wait` is the one
function that sleeps with `ptable.lock` itself: when the scheduler
switches to it, it looks for children again and may sleep again, all
in the same critical section.
-/

namespace Xv6.Procs

open Lib

inductive Pc where
  | idle
  | scan (i : ℕ)
  | run
  | sched
  deriving DecidableEq, Repr

structure Cpu where
  proc : Option Slot
  stack : Option Slot
  cr3 : Option Slot
  pc : Pc
  deriving DecidableEq, Repr

structure Kernel (C : Type) where
  pt : Ptable
  lock : Option C
  cpu : C → Cpu

inductive Act where
  | acquire | look | swtch
  | yield | sleep (chan : ℕ) | wakeup (chan : ℕ) | kill (pid : Int32) | exit | wait
  | alloc | fail | adopt | done
  deriving DecidableEq, Repr

def Cpu.scheduler (pc : Pc) : Cpu := ⟨none, none, none, pc⟩

def Cpu.on (p : Slot) (pc : Pc) : Cpu := ⟨some p, some p, some p, pc⟩

namespace Kernel

variable {C : Type} [DecidableEq C]

def setCpu (s : Kernel C) (c : C) (x : Cpu) : Kernel C :=
  { s with cpu := Function.update s.cpu c x }

def toSched (s : Kernel C) (c : C) (p : Slot) (t : Ptable) : Kernel C :=
  { s.setCpu c (.on p .sched) with pt := t, lock := some c }

def release (s : Kernel C) (c : C) (p : Slot) (t : Ptable) : Kernel C :=
  { s.setCpu c (.on p .run) with pt := t, lock := none }

def waitLoop (s : Kernel C) (c : C) (p : Slot) (t : Ptable) : Kernel C :=
  match t.zombieChild p with
  | some z => s.release c p (t.reap p z)
  | none =>
    if t.haveKids p = false ∨ (t.proc p).killed = true then s.release c p t
    else s.toSched c p (t.sleepOn p (.proc p) .wait)

def dispatch (s : Kernel C) (c : C) (p : Slot) : Kernel C :=
  let x := { s.pt.proc p with state := .running }
  match x.resume with
  | .forkret | .yield => s.release c p (s.pt.set p x)
  | .sleep => s.release c p (s.pt.set p { x with chan := none })
  | .wait => s.waitLoop c p (s.pt.set p { x with chan := none })

def look (s : Kernel C) (c : C) (i : ℕ) : Kernel C :=
  if h : i < NPROC then
    if (s.pt.proc ⟨i, h⟩).state = .runnable then s.dispatch c ⟨i, h⟩
    else s.setCpu c (.scheduler (.scan (i + 1)))
  else { s.setCpu c (.scheduler .idle) with lock := none }

def call (s : Kernel C) (c : C) (p : Slot) : Act → Option (Kernel C)
  | .sleep chan => some (s.toSched c p (s.pt.sleepOn p (.addr chan) .sleep))
  | .kill pid => some { s with pt := (s.pt.kill pid).1.record (.kill pid) }
  | .exit => if p = s.pt.initproc then none else some (s.toSched c p (s.pt.exit p))
  | .wait => some (s.waitLoop c p s.pt)
  | .alloc =>
    some (match s.pt.findUnused with
      | none => s
      | some np => { s with pt := (s.pt.allocproc p np).setFork p (.alloc np) })
  | _ => none

theorem call_alloc {s : Kernel C} {np : Slot} (c : C) (p : Slot)
    (h : s.pt.findUnused = some np) : s.call c p .alloc =
      some { s with pt := (s.pt.allocproc p np).setFork p (.alloc np) } := by
  show some _ = _
  rw [h]

def store (s : Kernel C) (p : Slot) : Act → Option (Kernel C)
  | .fail =>
    match (s.pt.proc p).fork with
    | .alloc np => some { s with pt := (s.pt.forkFail np).setFork p .no }
    | _ => none
  | .adopt =>
    match (s.pt.proc p).fork with
    | .alloc np => some { s with pt := (s.pt.adopt p np).setFork p (.adopted np) }
    | _ => none
  | _ => none

def finish (s : Kernel C) (p : Slot) : Option (Kernel C) :=
  match (s.pt.proc p).fork with
  | .adopted np => some { s with pt := (s.pt.forkDone np).setFork p .no }
  | _ => none

def runStep (s : Kernel C) (c : C) (p : Slot) (a : Act) : Option (Kernel C) :=
  if a = .fail ∨ a = .adopt then s.store p a
  else if s.lock.isSome then none
  else if a = .yield then
    some (s.toSched c p (s.pt.set p { s.pt.proc p with state := .runnable, resume := .yield }))
  else if a = .done then s.finish p
  else if (s.pt.proc p).fork = .no then s.call c p a
  else none

def step (s : Kernel C) (l : C × Act) : Option (Kernel C) :=
  match (s.cpu l.1).pc, l.2 with
  | .idle, .acquire =>
    if s.lock = none then
      some { s.setCpu l.1 (.scheduler (.scan 0)) with lock := some l.1 }
    else none
  | .scan i, .look => some (s.look l.1 i)
  | .sched, .swtch =>
    (s.cpu l.1).proc.map fun p => s.setCpu l.1 (.scheduler (.scan (p.val + 1)))
  | .idle, .wakeup chan | .run, .wakeup chan =>
    if s.lock = none then some { s with pt := s.pt.wakeup1 (some (.addr chan)) } else none
  | .run, a => (s.cpu l.1).proc.bind fun p => s.runStep l.1 p a
  | _, _ => none

end Kernel

def Proc.zero : Proc := ⟨.unused, 0, none, none, false, .forkret, .no, 0⟩

def boot (C : Type) : Kernel C where
  pt :=
    { proc := Function.update (fun _ => .zero) 0 { Proc.zero with state := .runnable, pid := 1 }
      initproc := 0
      nextpid := 2
      births := 1
      log := [] }
  lock := none
  cpu := fun _ => .scheduler .idle

end Xv6.Procs
