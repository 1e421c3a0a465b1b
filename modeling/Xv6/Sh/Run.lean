import Xv6.Lib.Transition
import Xv6.Param
import Xv6.Sh.Parser

/-!
`runcmd`, as the system calls that it makes.

A process is what it still has to do and its table of descriptors. The calls on
descriptors are those of `sysfile.c`: `fdalloc` takes the lowest descriptor that
is free. Any process may take the next step, so processes are interleaved in
every way. Opening a file and making a pipe succeed where there are descriptors
left, and `fork` succeeds. A program that is executed keeps its descriptors until
it exits.

A node of the command has a place, the way from the node up to the root. The
place of the node that a process runs and that of the node that made a pipe,
and the list of the calls made, only record what happens.
-/

namespace Xv6.Sh

abbrev Place := List Bool

inductive File (W R : Type) where
  | given (fd : ℕ)
  | opened (file : W) (mode : UInt32)
  | rend (pipe : R)
  | wend (pipe : R)
  deriving DecidableEq, Repr

abbrev Table (W R : Type) := ℕ → Option (File W R)

namespace Table

variable {W R : Type}

def spare (t : Table W R) : Option ℕ := (List.range NOFILE).find? fun fd => (t fd).isNone

def argfd (t : Table W R) (fd : ℕ) : Option (File W R) := if fd < NOFILE then t fd else none

def close (t : Table W R) (fd : ℕ) : Table W R :=
  match t.argfd fd with
  | none => t
  | some _ => Function.update t fd none

def fdalloc (t : Table W R) (f : File W R) : Option (ℕ × Table W R) :=
  t.spare.map fun fd => (fd, Function.update t fd (some f))

def dup (t : Table W R) (fd : ℕ) : Table W R :=
  match t.argfd fd with
  | none => t
  | some f =>
    match t.fdalloc f with
    | none => t
    | some (_, t') => t'

def pipe (t : Table W R) (r : R) : Option ((ℕ × ℕ) × Table W R) :=
  match t.fdalloc (.rend r) with
  | none => none
  | some (fd0, t₁) =>
    match t₁.fdalloc (.wend r) with
    | none => none
    | some (fd1, t₂) => some ((fd0, fd1), t₂)

end Table

inductive Arg where
  | fd (n : ℕ) | p0 | p1
  deriving DecidableEq, Repr

def Arg.val (p : ℕ × ℕ) : Arg → ℕ
  | .fd n => n
  | .p0 => p.1
  | .p1 => p.2

inductive Code (W : Type) where
  | close (fd : Arg) (k : Code W)
  | dup (fd : Arg) (k : Code W)
  | open (file : W) (mode : UInt32) (k : Code W)
  | pipe (π : Place) (k : Code W)
  | fork (π : Place) (child k : Code W)
  | call (π : Place) (k : Code W)
  | wait (π : Place) (k : Code W)
  | exec (π : Place) (argv : List W) (k : Code W)
  | exit
  deriving DecidableEq, Repr

variable {W : Type}

def runcmd (π : Place) : Cmd W → Code W
  | .exec argv => if argv.isEmpty then .exit else .exec π argv .exit
  | .redir cmd file mode fd =>
    .close (.fd fd) (.open file mode (.call (false :: π) (runcmd (false :: π) cmd)))
  | .list left right =>
    .fork (false :: π) (.call (false :: π) (runcmd (false :: π) left))
      (.wait π (.call (true :: π) (runcmd (true :: π) right)))
  | .pipe left right =>
    .pipe π
      (.fork (false :: π)
        (.close (.fd 1) (.dup .p1 (.close .p0 (.close .p1
          (.call (false :: π) (runcmd (false :: π) left))))))
      (.fork (true :: π)
        (.close (.fd 0) (.dup .p0 (.close .p0 (.close .p1
          (.call (true :: π) (runcmd (true :: π) right))))))
      (.close .p0 (.close .p1 (.wait π (.wait π .exit))))))
  | .back cmd => .fork (false :: π) (.call (false :: π) (runcmd (false :: π) cmd)) .exit

structure PipeId where
  num : ℕ
  node : Place
  deriving DecidableEq, Repr

inductive Status where
  | running | zombie | gone
  deriving DecidableEq, Repr

structure Proc (W : Type) where
  code : Code W
  fds : Table W PipeId
  p : ℕ × ℕ
  node : Place
  parent : Option ℕ
  status : Status

inductive Event (W : Type) where
  | pipe (π : Place)
  | call (π : Place)
  | exec (π : Place) (argv : List W)
  deriving DecidableEq, Repr

structure World (W : Type) where
  procs : List (Proc W)
  log : List (Event W)

namespace World

def put (S : World W) (q : ℕ) (pr : Proc W) : World W := { S with procs := S.procs.set q pr }

def each (S : World W) (g : ℕ → Proc W → Proc W) : World W :=
  { S with procs := S.procs.mapIdx g }

def note (S : World W) (e : Event W) : World W := { S with log := S.log ++ [e] }

def zombieOf (S : World W) (q : ℕ) : Option ℕ :=
  (List.range S.procs.length).find? fun c =>
    (S.procs[c]?).any fun pr => decide (pr.parent = some q ∧ pr.status = .zombie)

def hasChild (S : World W) (q : ℕ) : Bool :=
  S.procs.any fun pr => decide (pr.parent = some q ∧ pr.status ≠ .gone)

def wait (S : World W) (q : ℕ) : Option (World W) :=
  match S.zombieOf q with
  | some c => some (S.each fun i pr => if i = c then { pr with status := .gone } else pr)
  | none => if S.hasChild q then none else some S

def exit (S : World W) (q : ℕ) : World W :=
  S.each fun i pr =>
    if i = q then { pr with fds := fun _ => none, status := .zombie }
    else if pr.parent = some q then { pr with parent := none }
    else pr

def act (S : World W) (q : ℕ) (pr : Proc W) : Option (World W) :=
  match pr.code with
  | .close fd k => some (S.put q { pr with fds := pr.fds.close (fd.val pr.p), code := k })
  | .dup fd k => some (S.put q { pr with fds := pr.fds.dup (fd.val pr.p), code := k })
  | .open file mode k =>
    match pr.fds.fdalloc (.opened file mode) with
    | none => some (S.put q { pr with code := .exit })
    | some (_, t) => some (S.put q { pr with fds := t, code := k })
  | .pipe π k =>
    match pr.fds.pipe ⟨S.log.length, π⟩ with
    | none => some (S.put q { pr with code := .exit })
    | some (p, t) => some ((S.put q { pr with fds := t, p := p, code := k }).note (.pipe π))
  | .fork π child k =>
    some { S with procs := S.procs.set q { pr with code := k } ++
      [{ pr with code := child, node := π, parent := some q }] }
  | .call π k => some ((S.put q { pr with node := π, code := k }).note (.call π))
  | .wait _ k => (S.put q { pr with code := k }).wait q
  | .exec π argv k => some ((S.put q { pr with code := k }).note (.exec π argv))
  | .exit => some (S.exit q)

def step (S : World W) (q : ℕ) : Option (World W) :=
  match S.procs[q]? with
  | none => none
  | some pr => if pr.status = .running then S.act q pr else none

end World

def start (cmd : Cmd W) : World W :=
  ⟨[⟨runcmd [] cmd, fun fd => if fd < 3 then some (.given fd) else none, (0, 0), [], none,
    .running⟩], []⟩

end Xv6.Sh
