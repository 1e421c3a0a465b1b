import Xv6.Lib.Transition

/-!
Sleep locks: `sleeplock.c` with `sleep`, `wakeup`, `kill` and the scheduler.

A step is one call of `acquire` or `release`, one test or store, or a
context switch. `ptable.lock` is taken over by the scheduler when a
process switches to it, and by a process when the scheduler switches to
that. There is one sleep lock `lk`, and a process that sleeps has called
`acquiresleep`. What a process does while it has the sleep lock, or
between two calls, is left out.
-/

namespace Xv6.Sleep

open Lib

inductive State where
  | sleeping | runnable | running
  deriving DecidableEq, Repr

inductive Pc (P : Type) where
  | idle
  | acquireLk
  | test
  | sleepAcquire
  | sleepRelease
  | setChan
  | setSleeping
  | sched
  | off
  | clearChan
  | wokenRelease
  | setLocked
  | setPid
  | acquireEnd
  | held
  | releaseLk
  | clearLocked
  | clearPid
  | wakeAcquire
  | wake
  | wakeRelease
  | releaseEnd
  | killAcquire (q : P)
  | kill (q : P)
  | killRelease
  deriving DecidableEq, Repr

structure Proc (P : Type) where
  state : State
  chan : Bool
  killed : Bool
  pc : Pc P
  deriving DecidableEq, Repr

inductive Owner (P : Type) where
  | proc (p : P)
  | scheduler
  deriving DecidableEq, Repr

structure Sys (P : Type) where
  locked : Bool
  pid : Option P
  lk : Option P
  ptable : Option (Owner P)
  proc : P → Proc P

inductive Act (P : Type) where
  | acquiresleep (p : P)
  | releasesleep (p : P)
  | kill (p q : P)
  | go (p : P)
  | enter
  | dispatch (p : P)
  | leave
  deriving DecidableEq, Repr

namespace Sys

variable {P : Type}

def wakeup (s : Sys P) : Sys P :=
  { s with
    proc := fun q =>
      if (s.proc q).state = .sleeping ∧ (s.proc q).chan = true then
        { s.proc q with state := .runnable }
      else s.proc q }

variable [DecidableEq P]

def set (s : Sys P) (p : P) (x : Proc P) : Sys P :=
  { s with proc := Function.update s.proc p x }

def goto (s : Sys P) (p : P) (pc : Pc P) : Sys P := s.set p { s.proc p with pc := pc }

def takeLk (s : Sys P) (p : P) (pc : Pc P) : Option (Sys P) :=
  if s.lk = none then some { s.goto p pc with lk := some p } else none

def takePtable (s : Sys P) (p : P) (pc : Pc P) : Option (Sys P) :=
  if s.ptable = none then some { s.goto p pc with ptable := some (.proc p) } else none

def killProc (s : Sys P) (q : P) : Sys P :=
  s.set q { s.proc q with
    killed := true
    state := if (s.proc q).state = .sleeping then .runnable else (s.proc q).state }

def go (s : Sys P) (p : P) : Option (Sys P) :=
  match (s.proc p).pc with
  | .idle | .held | .off => none
  | .acquireLk => s.takeLk p .test
  | .test => some (s.goto p (if s.locked then .sleepAcquire else .setLocked))
  | .sleepAcquire => s.takePtable p .sleepRelease
  | .sleepRelease => some { s.goto p .setChan with lk := none }
  | .setChan => some (s.set p { s.proc p with chan := true, pc := .setSleeping })
  | .setSleeping => some (s.set p { s.proc p with state := .sleeping, pc := .sched })
  | .sched => some { s.goto p .off with ptable := some .scheduler }
  | .clearChan => some (s.set p { s.proc p with chan := false, pc := .wokenRelease })
  | .wokenRelease => some { s.goto p .acquireLk with ptable := none }
  | .setLocked => some { s.goto p .setPid with locked := true }
  | .setPid => some { s.goto p .acquireEnd with pid := some p }
  | .acquireEnd => some { s.goto p .held with lk := none }
  | .releaseLk => s.takeLk p .clearLocked
  | .clearLocked => some { s.goto p .clearPid with locked := false }
  | .clearPid => some { s.goto p .wakeAcquire with pid := none }
  | .wakeAcquire => s.takePtable p .wake
  | .wake => some (s.wakeup.goto p .wakeRelease)
  | .wakeRelease => some { s.goto p .releaseEnd with ptable := none }
  | .releaseEnd => some { s.goto p .idle with lk := none }
  | .killAcquire q => s.takePtable p (.kill q)
  | .kill q => some ((s.killProc q).goto p .killRelease)
  | .killRelease => some { s.goto p .idle with ptable := none }

def step (s : Sys P) : Act P → Option (Sys P)
  | .acquiresleep p => if (s.proc p).pc = .idle then some (s.goto p .acquireLk) else none
  | .releasesleep p => if (s.proc p).pc = .held then some (s.goto p .releaseLk) else none
  | .kill p q => if (s.proc p).pc = .idle then some (s.goto p (.killAcquire q)) else none
  | .go p => s.go p
  | .enter => if s.ptable = none then some { s with ptable := some .scheduler } else none
  | .dispatch p =>
    if s.ptable = some .scheduler ∧ (s.proc p).state = .runnable then
      some { s.set p { s.proc p with state := .running, pc := .clearChan } with
        ptable := some (.proc p) }
    else none
  | .leave => if s.ptable = some .scheduler then some { s with ptable := none } else none

end Sys

def start (P : Type) : Sys P where
  locked := false
  pid := none
  lk := none
  ptable := none
  proc := fun _ => ⟨.running, false, false, .idle⟩

end Xv6.Sleep
