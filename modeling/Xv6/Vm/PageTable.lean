import Xv6.Vm.Memory

/-!
Page tables, `vm.c`.

Virtual pages, like physical ones, are named by their number: address
divided by `PGSIZE`. A page directory is named by the physical page that
holds it. A pointer to an entry of a page table is the page of the table;
which entry it is follows from the virtual page.

The bits of an entry are read off with arithmetic: `PTE_P` is bit 0,
`PTE_W` bit 1, `PTE_U` bit 2, and the page number starts at bit 12.

A loop whose counter is an address has a number of turns that is enough
for it: every turn moves on by at least one page.
-/

namespace Xv6.Vm

open Lib

abbrev EXTMEM : ℕ := 0x100
abbrev DEVSPACE : ℕ := 0xFE000
abbrev KERNPAGE : ℕ := KERNBASE / PGSIZE
abbrev PTE_W : ℕ := 2
abbrev PTE_U : ℕ := 4

def Present (w : ℕ) : Prop := w % 2 = 1

def User (w : ℕ) : Prop := w / 4 % 2 = 1

instance (w : ℕ) : Decidable (Present w) := inferInstanceAs (Decidable (w % 2 = 1))

instance (w : ℕ) : Decidable (User w) := inferInstanceAs (Decidable (w / 4 % 2 = 1))

def frame (w : ℕ) : ℕ := w / PGSIZE

def flags (w : ℕ) : ℕ := w % PGSIZE

def mkPte (f perm : ℕ) : ℕ := f * PGSIZE + (perm / 2 * 2 + 1)

def roundUp (sz : ℕ) : ℕ := (sz + (PGSIZE - 1)) / PGSIZE

def tab (m : Mem) (d i : ℕ) : Option ℕ :=
  if Present (entry (m d) i) then some (frame (entry (m d) i)) else none

def pte (m : Mem) (d v : ℕ) : ℕ :=
  match tab m d (v / 1024) with
  | none => 0
  | some t => entry (m t) (v % 1024)

variable (k : Layout)

def walkpgdir (d v : ℕ) (alloc : Bool) : Op (Option ℕ) := do
  match ← .read fun s => tab s.mem d (v / 1024) with
  | some t => pure (some t)
  | none =>
    if alloc then do
      match ← kalloc k with
      | none => pure none
      | some t => do
          clear t
          .modify fun s =>
            s.setPage d (setEntry (s.mem d) (v / 1024) (mkPte t (PTE_W + PTE_U)))
          pure (some t)
    else pure none

def setPte (t v w : ℕ) : Op Unit :=
  .modify fun s => s.setPage t (setEntry (s.mem t) (v % 1024) w)

def mapPage (d v f perm : ℕ) : Op Bool := do
  match ← walkpgdir k d v true with
  | none => pure false
  | some t => do
      let w ← .read fun s => entry (s.mem t) (v % 1024)
      if Present w then .panic .remap
      else do
        setPte t v (mkPte f perm)
        pure true

def mapLoop (d perm : ℕ) : ℕ → ℕ → ℕ → Op Bool
  | 0, v, f => mapPage k d v f perm
  | n + 1, v, f => do
      if ← mapPage k d v f perm then mapLoop d perm n ((v + 1) % 2 ^ 20) ((f + 1) % 2 ^ 20)
      else pure false

def mappages (d va size f perm : ℕ) : Op Bool :=
  let a := va / PGSIZE
  let last := (va + size + (2 ^ 32 - 1)) % 2 ^ 32 / PGSIZE
  mapLoop k d perm ((last + 2 ^ 20 - a) % 2 ^ 20) a f

structure Kmap where
  virt : ℕ
  start : ℕ
  stop : ℕ
  perm : ℕ

def kmap : List Kmap :=
  [⟨KERNPAGE, 0, EXTMEM, PTE_W⟩,
    ⟨KERNPAGE + EXTMEM, EXTMEM, k.data, 0⟩,
    ⟨KERNPAGE + k.data, k.data, PHYSTOP, PTE_W⟩,
    ⟨DEVSPACE, DEVSPACE, 0, PTE_W⟩]

def mapAll (d : ℕ) : List Kmap → Op Bool
  | [] => pure true
  | e :: rest => do
      if ← mappages k d (e.virt * PGSIZE) ((e.stop + 2 ^ 20 - e.start) % 2 ^ 20 * PGSIZE)
          e.start e.perm then mapAll d rest
      else pure false

def freePage (t v w : ℕ) : Op Unit := do
  kfree k (frame w)
  setPte t v 0

def deallocLoop (d oldsz : ℕ) : ℕ → ℕ → Op Unit
  | 0, _ => pure ()
  | turns + 1, v =>
    if v * PGSIZE < oldsz then do
      match ← walkpgdir k d v false with
      | none => deallocLoop d oldsz turns ((v / 1024 + 1) * 1024)
      | some t => do
          let w ← .read fun s => entry (s.mem t) (v % 1024)
          if Present w then
            if frame w = 0 then .panic .kfree
            else do
              freePage k t v w
              deallocLoop d oldsz turns (v + 1)
          else deallocLoop d oldsz turns (v + 1)
    else pure ()

def deallocuvm (d oldsz newsz : ℕ) : Op ℕ :=
  if oldsz ≤ newsz then pure oldsz
  else do
    deallocLoop k d oldsz (oldsz / PGSIZE + 1) (roundUp newsz)
    pure newsz

def freeTables (d : ℕ) : List ℕ → Op Unit
  | [] => pure ()
  | i :: rest => do
      match ← .read fun s => tab s.mem d i with
      | none => freeTables d rest
      | some t => do
          kfree k t
          freeTables d rest

def freevm (d : ℕ) : Op Unit := do
  let _ ← deallocuvm k d KERNBASE 0
  freeTables k d (List.range 1024)
  kfree k d

def setupkvm : Op (Option ℕ) := do
  match ← kalloc k with
  | none => pure none
  | some d => do
      clear d
      if ← mapAll k d (kmap k) then pure (some d)
      else do
        freevm k d
        pure none

def allocLoop (d oldsz newsz : ℕ) : ℕ → ℕ → Op ℕ
  | 0, _ => pure newsz
  | turns + 1, v =>
    if v * PGSIZE < newsz then do
      match ← kalloc k with
      | none => do
          let _ ← deallocuvm k d newsz oldsz
          pure 0
      | some f => do
          clear f
          if ← mappages k d (v * PGSIZE) PGSIZE f (PTE_W + PTE_U) then
            allocLoop d oldsz newsz turns (v + 1)
          else do
            let _ ← deallocuvm k d newsz oldsz
            kfree k f
            pure 0
    else pure newsz

def allocuvm (d oldsz newsz : ℕ) : Op ℕ :=
  if KERNBASE ≤ newsz then pure 0
  else if newsz < oldsz then pure oldsz
  else allocLoop k d oldsz newsz (newsz / PGSIZE + 1) (roundUp oldsz)

def clearpteu (d v : ℕ) : Op Unit := do
  match ← walkpgdir k d v false with
  | none => .panic .clearpteu
  | some t => .modify fun s =>
      let w := entry (s.mem t) (v % 1024)
      s.setPage t (setEntry (s.mem t) (v % 1024) (if User w then w - PTE_U else w))

def copyLoop (d₀ d sz : ℕ) : ℕ → ℕ → Op (Option ℕ)
  | 0, _ => pure (some d)
  | turns + 1, v =>
    if v * PGSIZE < sz then do
      match ← walkpgdir k d₀ v false with
      | none => .panic .copyuvm
      | some t => do
          let w ← .read fun s => entry (s.mem t) (v % 1024)
          if Present w then do
            match ← kalloc k with
            | none => do
                freevm k d
                pure none
            | some f => do
                .modify fun s => s.setPage f (s.mem (frame w))
                if ← mappages k d (v * PGSIZE) PGSIZE f (flags w) then
                  copyLoop d₀ d sz turns (v + 1)
                else do
                  kfree k f
                  freevm k d
                  pure none
          else .panic .copyuvm
    else pure (some d)

def copyuvm (d₀ sz : ℕ) : Op (Option ℕ) := do
  match ← setupkvm k with
  | none => pure none
  | some d => copyLoop k d₀ d sz (sz / PGSIZE + 1) 0

def inituvm (d : ℕ) (init : List UInt8) : Op Unit :=
  if PGSIZE ≤ init.length then .panic .inituvm
  else do
    match ← kalloc k with
    | none => .panic .fault
    | some f => do
        clear f
        let _ ← mappages k d 0 PGSIZE f (PTE_W + PTE_U)
        .modify fun s => s.setPage f (patch (s.mem f) 0 init.length fun i => init.getD i 0)

def store (f off : ℕ) (bs : List UInt8) : Op Unit :=
  if bs = [] ∨ k.kend ≤ f ∧ f < PHYSTOP then
    .modify fun s => s.setPage f (patch (s.mem f) off bs.length fun i => bs.getD i 0)
  else .panic .fault

def Usable (w : ℕ) : Prop := Present w ∧ User w ∧ frame w ≠ KERNPAGE

instance (w : ℕ) : Decidable (Usable w) :=
  inferInstanceAs (Decidable (Present w ∧ User w ∧ frame w ≠ KERNPAGE))

def nullPte (cur : ℕ) : Op (Option ℕ) := do
  let w₀ ← .read fun s => pte s.mem cur 0
  if Present w₀ then do
    let w ← .read fun s => entry (s.mem (frame w₀)) 0
    if Usable w then pure (some (frame w)) else pure none
  else .panic .fault

def uva2ka (null : Op (Option ℕ)) (d v : ℕ) : Op (Option ℕ) := do
  match ← walkpgdir k d v false with
  | some t => do
      let w ← .read fun s => entry (s.mem t) (v % 1024)
      if Usable w then pure (some (frame w)) else pure none
  | none => null

def copyoutLoop (null : Op (Option ℕ)) (d : ℕ) : ℕ → ℕ → List UInt8 → Op Bool
  | 0, _, _ => pure true
  | turns + 1, va, bs =>
    if bs = [] then pure true
    else do
      match ← uva2ka k null d (va / PGSIZE) with
      | none => pure false
      | some f => do
          let n := min (PGSIZE - va % PGSIZE) bs.length
          store k f (va % PGSIZE) (bs.take n)
          copyoutLoop null d turns ((va / PGSIZE + 1) % 2 ^ 20 * PGSIZE) (bs.drop n)

def copyout (null : Op (Option ℕ)) (d va : ℕ) (bs : List UInt8) : Op Bool :=
  copyoutLoop k null d bs.length va bs

def readFile (c : List UInt8) (off n : ℕ) : List UInt8 :=
  if c.length < off ∨ 2 ^ 32 ≤ off + n then [] else (c.drop off).take n

def loadLoop (d : ℕ) (c : List UInt8) : ℕ → ℕ → ℕ → ℕ → Op Bool
  | 0, _, _, _ => pure true
  | turns + 1, v, off, n =>
    if n = 0 then pure true
    else do
      match ← walkpgdir k d v false with
      | none => .panic .loaduvm
      | some t => do
          let w ← .read fun s => entry (s.mem t) (v % 1024)
          let bs := readFile c off (min n PGSIZE)
          store k (frame w) 0 bs
          if bs.length = min n PGSIZE then
            loadLoop d c turns (v + 1) ((off + PGSIZE) % 2 ^ 32) (n - min n PGSIZE)
          else pure false

def loaduvm (d va : ℕ) (c : List UInt8) (off sz : ℕ) : Op Bool :=
  if va % PGSIZE ≠ 0 then .panic .loaduvm
  else loadLoop k d c sz (va / PGSIZE) off sz

end Xv6.Vm
