import Xv6.Lib.Ring
import Xv6.Lib.Transition

/-!
Console input: `consoleintr` and `consoleread`.

A step is a critical section of `cons.lock`: a call of `consoleintr`, or
what `consoleread` does until it returns or sleeps. A reader that sleeps
may go on at any time; whether it was woken by `consoleintr` or by `kill`
makes no difference to it. What is printed is left out.

The characters that `w` has passed and those that `r` has passed are
recorded, the latter with the reader; no function reads these records.
-/

namespace Xv6.Cons

open Lib

abbrev INPUT_BUF : ℕ := 128

def C (x : Char) : UInt8 := x.toUInt8 - '@'.toUInt8

abbrev nl : UInt8 := '\n'.toUInt8

abbrev cr : UInt8 := '\r'.toUInt8

structure Input where
  buf : Fin INPUT_BUF → UInt8
  r : UInt32
  w : UInt32
  e : UInt32

inductive Stop where
  | ret
  | killed
  | sleep (n : ℕ)
  deriving DecidableEq, Repr

namespace Input

def between (s : Input) (i j : UInt32) : List UInt8 := (Lib.Ring.mk s.buf i j).contents

def get (s : Input) (i : UInt32) : UInt8 := s.buf (Lib.Ring.index i)

def killLine (s : Input) : Input :=
  if s.e ≠ s.w ∧ s.get (s.e - 1) ≠ nl then killLine { s with e := s.e - 1 } else s
termination_by (s.e - s.w).toNat
decreasing_by
  rename_i h
  have hlt : 0 < (Lib.Ring.mk s.buf s.w s.e).used :=
    Nat.pos_of_ne_zero fun h0 => h.1 (Lib.Ring.empty_iff.2 h0).symm
  have hdec := Lib.Ring.used_unput hlt
  change (s.e - 1 - s.w).toNat = (s.e - s.w).toNat - 1 at hdec
  change 0 < (s.e - s.w).toNat at hlt
  omega

def intr (s : Input) (c : UInt8) : Input :=
  if c = C 'P' then s
  else if c = C 'U' then s.killLine
  else if c = C 'H' ∨ c = 0x7f then
    if s.e ≠ s.w then { s with e := s.e - 1 } else s
  else if c ≠ 0 ∧ s.e - s.r < UInt32.ofNat INPUT_BUF then
    let c := if c = cr then nl else c
    let s := { s with buf := Function.update s.buf (Lib.Ring.index s.e) c, e := s.e + 1 }
    if c = nl ∨ c = C 'D' ∨ s.e = s.r + UInt32.ofNat INPUT_BUF then { s with w := s.e } else s
  else s

def read (killed : Bool) (target : ℕ) : ℕ → List UInt8 → Input → Input × List UInt8 × Stop
  | 0, dst, s => (s, dst, .ret)
  | n + 1, dst, s =>
    if s.r = s.w then (s, dst, if killed then .killed else .sleep (n + 1))
    else
      let c := s.get s.r
      let s := { s with r := s.r + 1 }
      if c = C 'D' then
        (if n + 1 < target then { s with r := s.r - 1 } else s, dst, .ret)
      else if c = nl then (s, dst ++ [c], .ret)
      else s.read killed target n (dst ++ [c])

end Input

inductive Reader where
  | idle (ret : Int) (dst : List UInt8)
  | asleep (target n : ℕ) (dst : List UInt8)
  deriving DecidableEq, Repr

def Stop.reader (target : ℕ) (dst : List UInt8) : Stop → Reader
  | .ret => .idle dst.length dst
  | .killed => .idle (-1) dst
  | .sleep n => .asleep target n dst

structure Console (P : Type) where
  input : Input
  reader : P → Reader
  committed : List UInt8
  consumed : List (P × UInt8)

inductive Act (P : Type) where
  | intr (cs : List UInt8)
  | read (p : P) (n : Int) (killed : Bool)
  | resume (p : P) (killed : Bool)

namespace Console

variable {P : Type}

def pending (s : Console P) : List UInt8 := s.input.between s.input.r s.input.w

def intr (s : Console P) (c : UInt8) : Console P :=
  let i := s.input.intr c
  { s with input := i, committed := s.committed ++ i.between s.input.w i.w }

variable [DecidableEq P]

def read (s : Console P) (p : P) (killed : Bool) (target n : ℕ) (dst : List UInt8) : Console P :=
  let (i, dst, stop) := s.input.read killed target n dst
  { s with
    input := i
    reader := Function.update s.reader p (stop.reader target dst)
    consumed := s.consumed ++ (i.between s.input.r i.r).map (p, ·) }

def step (s : Console P) : Act P → Option (Console P)
  | .intr cs => some (cs.foldl intr s)
  | .read p n killed =>
    match s.reader p with
    | .idle _ _ => some (s.read p killed n.toNat n.toNat [])
    | .asleep _ _ _ => none
  | .resume p killed =>
    match s.reader p with
    | .idle _ _ => none
    | .asleep target n dst => some (s.read p killed target n dst)

end Console

def boot (P : Type) : Console P where
  input := ⟨fun _ => 0, 0, 0, 0⟩
  reader := fun _ => .idle 0 []
  committed := []
  consumed := []

end Xv6.Cons
