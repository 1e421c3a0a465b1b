import Xv6.Lib.Transition
import Xv6.Param

/-!
The disk driver of `ide.c`, the disk, and the driver of `memide.c`.

A step is a critical section of `idelock`: `iderw` until it sleeps or
returns, or an interrupt; or it is the disk completing a command; or what
the holder of a buffer does with it between calls. A process that sleeps in
`iderw` is woken by `ideintr`, or for some other reason at any time. A call
that panics, or that would wait for ever for the disk to become ready, has no
step.

Requests are recorded with the contents of the buffer at the time of the
call, when they are made and when they are finished. No function reads
these records.
-/

namespace Xv6.Ide

open Lib Function

abbrev B_VALID : UInt32 := 0x2
abbrev B_DIRTY : UInt32 := 0x4
abbrev SECTOR_SIZE : ℕ := 512

structure Buf where
  flags : UInt32
  dev : UInt32
  blockno : UInt32
  data : Block

def Buf.synced (v : Buf) : Prop := v.flags &&& (B_VALID ||| B_DIRTY) = B_VALID

instance (v : Buf) : Decidable v.synced := inferInstanceAs (Decidable (_ = _))

abbrev Disk := UInt32 × UInt32 → Block

def Buf.addr (v : Buf) : UInt32 × UInt32 := (v.dev &&& 1, v.blockno)

/-! ### `memide.c` -/

def sync (v : Buf) (p : Block) : Buf × Block :=
  if v.flags &&& B_DIRTY ≠ 0 then
    ({ v with flags := v.flags &&& ~~~B_DIRTY ||| B_VALID }, v.data)
  else ({ v with data := p, flags := v.flags ||| B_VALID }, p)

def memIderw (disksize : UInt32) (memdisk : UInt32 → Block) (locked : Bool) (v : Buf) :
    Option (Buf × (UInt32 → Block)) :=
  if locked = false then none
  else if v.synced then none
  else if v.dev ≠ 1 then none
  else if disksize ≤ v.blockno then none
  else
    let (v', p) := sync v (memdisk v.blockno)
    some (v', update memdisk v.blockno p)

/-! ### The disk -/

structure Cmd where
  count : UInt8
  lba0 : UInt8
  lba1 : UInt8
  lba2 : UInt8
  drive : UInt8
  write : Option Block

def Cmd.addr (c : Cmd) : UInt32 × UInt32 :=
  ((c.drive.toUInt32 >>> 4) &&& 1,
    c.lba0.toUInt32 ||| c.lba1.toUInt32 <<< 8 ||| c.lba2.toUInt32 <<< 16 |||
      (c.drive.toUInt32 &&& 0x0f) <<< 24)

inductive Device where
  | idle
  | busy (c : Cmd)
  | done (data : Block)

def Buf.cmd (v : Buf) : Cmd :=
  let sector_per_block : ℕ := BSIZE / SECTOR_SIZE
  let sector := v.blockno * UInt32.ofNat sector_per_block
  { count := UInt8.ofNat sector_per_block
    lba0 := (sector &&& 0xff).toUInt8
    lba1 := ((sector >>> 8) &&& 0xff).toUInt8
    lba2 := ((sector >>> 16) &&& 0xff).toUInt8
    drive := (0xe0 : UInt8) ||| ((v.dev &&& 1) <<< 4).toUInt8 ||| ((sector >>> 24) &&& 0x0f).toUInt8
    write := if v.flags &&& B_DIRTY ≠ 0 then some v.data else none }

/-! ### `ide.c` -/

def Buf.finish (v : Buf) (data : Block) : Buf :=
  { v with
    data := if v.flags &&& B_DIRTY = 0 then data else v.data
    flags := (v.flags ||| B_VALID) &&& ~~~B_DIRTY }

structure Req (B : Type) where
  buf : B
  val : Buf

inductive Wait (B : Type) where
  | idle
  | waiting (b : B) (i : ℕ) (asleep : Bool)
  deriving DecidableEq

structure Sys (P B : Type) where
  buf : B → Buf
  owner : B → Option P
  queue : List B
  dev : Device
  disk : Disk
  proc : P → Wait B
  asked : List (Req B)
  finished : List (Req B)

inductive Act (P B : Type) where
  | lock (p : P) (b : B)
  | unlock (p : P) (b : B)
  | touch (p : P) (b : B) (v : Buf)
  | call (p : P) (b : B)
  | wake (p : P)
  | resume (p : P)
  | complete
  | intr

namespace Sys

variable {P B : Type}

def idestart (s : Sys P B) (b : B) : Option (Sys P B) :=
  if FSSIZE ≤ (s.buf b).blockno.toNat then none
  else match s.dev with
    | .idle => some { s with dev := .busy (s.buf b).cmd }
    | _ => none

def complete (s : Sys P B) : Option (Sys P B) :=
  match s.dev with
  | .busy c =>
    some (match c.write with
      | some data =>
        { s with dev := .done data, disk := update s.disk c.addr data }
      | none => { s with dev := .done (s.disk c.addr) })
  | _ => none

def wakeup [DecidableEq B] (s : Sys P B) (b : B) : Sys P B :=
  { s with
    proc := fun p =>
      match s.proc p with
      | .waiting b' i asleep => .waiting b' i (if b' = b then false else asleep)
      | .idle => .idle }

def finish [DecidableEq B] (s : Sys P B) (b : B) (q : List B) (data : Block) : Sys P B :=
  { s.wakeup b with
    queue := q
    buf := update s.buf b ((s.buf b).finish data)
    finished := s.finished ++ [⟨b, s.buf b⟩] }

def ideintr [DecidableEq B] (s : Sys P B) (data : Block) : Option (Sys P B) :=
  match s.queue with
  | [] => some s
  | [b] => some (s.finish b [] data)
  | b :: b' :: q => (s.finish b (b' :: q) data).idestart b'

variable [DecidableEq P] [DecidableEq B]

def await (s : Sys P B) (p : P) (b : B) (i : ℕ) : Sys P B :=
  { s with
    proc := update s.proc p (if (s.buf b).synced then .idle else .waiting b i true) }

def iderw (s : Sys P B) (havedisk1 : Bool) (p : P) (b : B) : Option (Sys P B) :=
  if s.owner b ≠ some p then none
  else if (s.buf b).synced then none
  else if (s.buf b).dev ≠ 0 ∧ havedisk1 = false then none
  else
    let i := s.asked.length
    let s' := { s with queue := s.queue ++ [b], asked := s.asked ++ [Req.mk b (s.buf b)] }
    (if s.queue = [] then s'.idestart b else some s').map fun s => s.await p b i

def step (havedisk1 : Bool) (s : Sys P B) : Act P B → Option (Sys P B)
  | .lock p b =>
    if s.proc p = .idle ∧ s.owner b = none then
      some { s with owner := update s.owner b (some p) }
    else none
  | .unlock p b =>
    if s.proc p = .idle ∧ s.owner b = some p then
      some { s with owner := update s.owner b none }
    else none
  | .touch p b v =>
    if s.proc p = .idle ∧ s.owner b = some p then
      some { s with buf := update s.buf b v }
    else none
  | .call p b => if s.proc p = .idle then s.iderw havedisk1 p b else none
  | .wake p =>
    match s.proc p with
    | .waiting b i _ => some { s with proc := update s.proc p (.waiting b i false) }
    | .idle => none
  | .resume p =>
    match s.proc p with
    | .waiting b i false => some (s.await p b i)
    | _ => none
  | .complete => s.complete
  | .intr =>
    match s.dev with
    | .done data => { s with dev := .idle }.ideintr data
    | _ => none

end Sys

def start {P B : Type} (buf : B → Buf) (disk : Disk) : Sys P B where
  buf := buf
  owner := fun _ => none
  queue := []
  dev := .idle
  disk := disk
  proc := fun _ => .idle
  asked := []
  finished := []

end Xv6.Ide
