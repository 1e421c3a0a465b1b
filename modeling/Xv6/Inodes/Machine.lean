import Xv6.Lib.Transition
import Xv6.Param

/-!
The inode cache of `fs.c` and the processes that use it.

A step is what a process does in one critical section of `icache.lock`, or
with one access to an inode block while it holds `ip->lock`; `ialloc`
looks at inode blocks without any inode's lock. What a process may do is
the discipline of the comment in `fs.c`: it locks and puts only inodes it
has a reference to, changes an inode only while it holds its lock, writes
it back with `iupdate` before it unlocks it, and leaves `ip->type` alone.
Which process has got which references is recorded in `refs`, which no
function reads. A process can have several inodes locked, so where it is
in `ilock` and `iput` is kept for each inode.

The inode blocks are seen through the buffer cache, as a table of
`struct dinode`.
-/

namespace Xv6.Inodes

open Lib Function

structure Dinode where
  type : Int16
  major : Int16
  minor : Int16
  nlink : Int16
  size : UInt32
  addrs : Fin (NDIRECT + 1) → UInt32
  deriving DecidableEq

abbrev Slot := Fin NINODE

structure Entry where
  dev : ℕ
  inum : ℕ
  ref : ℕ
  valid : Bool
  di : Dinode

inductive Pc where
  | out
  | locking | loading | locked | dirty
  | putting | putLocked | putTrunc | putType | putInvalid | putUnlock | putDrop
  deriving DecidableEq, Repr

inductive Alloc where
  | no
  | scan (dev : ℕ) (type : Int16) (inum : ℕ)
  | got (dev inum : ℕ)
  deriving DecidableEq

structure Icache (P : Type) where
  entry : Slot → Entry
  lock : Slot → Option P
  dinode : ℕ → ℕ → Dinode
  refs : Multiset (P × Slot)
  pc : P → Slot → Pc
  alloc : P → Alloc

inductive Act (P : Type) where
  | iget (dev inum : ℕ)
  | idup (i : Slot) (q : P)
  | ilock (i : Slot)
  | modify (i : Slot) (di : Dinode)
  | iupdate (i : Slot)
  | iunlock (i : Slot)
  | iput (i : Slot)
  | go (i : Slot)
  | ialloc (dev : ℕ) (type : Int16)
  | scan

namespace Icache

variable {P : Type}

def disk (s : Icache P) (i : Slot) : Dinode := s.dinode (s.entry i).dev (s.entry i).inum

def setEntry (s : Icache P) (i : Slot) (e : Entry) : Icache P :=
  { s with entry := update s.entry i e }

def setDinode (s : Icache P) (dev inum : ℕ) (d : Dinode) : Icache P :=
  { s with dinode := update s.dinode dev (update (s.dinode dev) inum d) }

def iupdate (s : Icache P) (i : Slot) : Icache P :=
  s.setDinode (s.entry i).dev (s.entry i).inum (s.entry i).di

def find (s : Icache P) (dev inum : ℕ) : Option Slot :=
  (List.finRange NINODE).find? fun i =>
    decide (0 < (s.entry i).ref ∧ (s.entry i).dev = dev ∧ (s.entry i).inum = inum)

def empty (s : Icache P) : Option Slot :=
  (List.finRange NINODE).find? fun i => decide ((s.entry i).ref = 0)

def handOut (s : Icache P) (p : P) (i : Slot) (e : Entry) : Icache P :=
  { s.setEntry i e with refs := (p, i) ::ₘ s.refs }

def iget (s : Icache P) (p : P) (dev inum : ℕ) : Option (Icache P) :=
  match s.find dev inum with
  | some i => some (s.handOut p i { s.entry i with ref := (s.entry i).ref + 1 })
  | none =>
    (s.empty).map fun i =>
      s.handOut p i { s.entry i with dev := dev, inum := inum, ref := 1, valid := false }

def idup (s : Icache P) (q : P) (i : Slot) : Icache P :=
  s.handOut q i { s.entry i with ref := (s.entry i).ref + 1 }

variable [DecidableEq P]

def goto (s : Icache P) (p : P) (i : Slot) (pc : Pc) : Icache P :=
  { s with pc := update s.pc p (update (s.pc p) i pc) }

def acquire (s : Icache P) (p : P) (i : Slot) (pc : Pc) : Option (Icache P) :=
  if s.lock i = none then
    some { s.goto p i pc with lock := update s.lock i (some p) }
  else none

def release (s : Icache P) (p : P) (i : Slot) (pc : Pc) : Icache P :=
  { s.goto p i pc with lock := update s.lock i none }

def drop (s : Icache P) (p : P) (i : Slot) : Icache P :=
  { s.setEntry i { s.entry i with ref := (s.entry i).ref - 1 } with
    refs := s.refs.erase (p, i) }

def go (s : Icache P) (p : P) (i : Slot) : Option (Icache P) :=
  let e := s.entry i
  match s.pc p i with
  | .locking => s.acquire p i (if e.valid then .locked else .loading)
  | .loading =>
    if (s.disk i).type = 0 then none
    else some ((s.setEntry i { e with di := s.disk i, valid := true }).goto p i .locked)
  | .putting => s.acquire p i .putLocked
  | .putLocked =>
    some (s.goto p i
      (if e.valid = true ∧ e.di.nlink = 0 ∧ e.ref = 1 then .putTrunc else .putUnlock))
  | .putTrunc =>
    some (((s.setEntry i { e with di := { e.di with addrs := fun _ => 0, size := 0 } }).iupdate
      i).goto p i .putType)
  | .putType =>
    some (((s.setEntry i { e with di := { e.di with type := 0 } }).iupdate i).goto p i
      .putInvalid)
  | .putInvalid => some ((s.setEntry i { e with valid := false }).goto p i .putUnlock)
  | .putUnlock => some (s.release p i .putDrop)
  | .putDrop => some ((s.drop p i).goto p i .out)
  | _ => none

def scan (ninodes : ℕ) (s : Icache P) (p : P) : Option (Icache P) :=
  match s.alloc p with
  | .no => none
  | .scan dev type inum =>
    if ninodes ≤ inum then none
    else if (s.dinode dev inum).type = 0 then
      some { s.setDinode dev inum ⟨type, 0, 0, 0, 0, fun _ => 0⟩ with
        alloc := update s.alloc p (.got dev inum) }
    else some { s with alloc := update s.alloc p (.scan dev type (inum + 1)) }
  | .got dev inum =>
    (s.iget p dev inum).map fun s => { s with alloc := update s.alloc p .no }

def step (ninodes : ℕ) (s : Icache P) (l : P × Act P) : Option (Icache P) :=
  let p := l.1
  match l.2 with
  | .iget dev inum => s.iget p dev inum
  | .idup i q =>
    if (p, i) ∈ s.refs ∧ s.pc p i ∈ [Pc.out, .locked, .dirty] then some (s.idup q i) else none
  | .ilock i =>
    if (p, i) ∈ s.refs ∧ s.pc p i = .out ∧ 1 ≤ (s.entry i).ref then some (s.goto p i .locking)
    else none
  | .modify i di =>
    if s.pc p i = .locked ∨ s.pc p i = .dirty then
      some ((s.setEntry i
        { s.entry i with di := { di with type := (s.entry i).di.type } }).goto p i .dirty)
    else none
  | .iupdate i =>
    if s.pc p i = .locked ∨ s.pc p i = .dirty then some ((s.iupdate i).goto p i .locked)
    else none
  | .iunlock i =>
    if s.pc p i = .locked ∧ s.lock i = some p ∧ 1 ≤ (s.entry i).ref then
      some (s.release p i .out)
    else none
  | .iput i => if (p, i) ∈ s.refs ∧ s.pc p i = .out then some (s.goto p i .putting) else none
  | .go i => s.go p i
  | .ialloc dev type =>
    if s.alloc p = .no then some { s with alloc := update s.alloc p (.scan dev type 1) }
    else none
  | .scan => s.scan ninodes p

end Icache

def start {P : Type} (entry : Slot → Entry) (dinode : ℕ → ℕ → Dinode) : Icache P where
  entry := fun i => { entry i with ref := 0 }
  lock := fun _ => none
  dinode := dinode
  refs := 0
  pc := fun _ _ => .out
  alloc := fun _ => .no

end Xv6.Inodes
