import Xv6.Vm.PageTable

/-!
`exec.c`, up to the point where the new image is complete.

A file is the list of its bytes. The argument strings are lists of bytes
without the NUL; they have been read from the memory of the caller. `null`
is what `uva2ka` does with a null pointer.

`exec` is done with the file when the program is loaded, so there are two
parts: `loadImage`, and `stackImage` for the rest. Each of them frees the new
directory when it fails.
-/

namespace Xv6.Vm

open Lib

abbrev ELF_MAGIC : ℕ := 0x464C457F
abbrev ELF_PROG_LOAD : ℕ := 1

structure Elfhdr where
  magic : ℕ
  entry : ℕ
  phoff : ℕ
  phnum : ℕ
  deriving DecidableEq

structure Proghdr where
  type : ℕ
  off : ℕ
  vaddr : ℕ
  filesz : ℕ
  memsz : ℕ
  deriving DecidableEq

def Elfhdr.ofBytes (b : Bytes 52) : Elfhdr where
  magic := getLE b 0 4
  entry := getLE b 24 4
  phoff := getLE b 28 4
  phnum := getLE b 44 2

def Proghdr.ofBytes (b : Bytes 32) : Proghdr where
  type := getLE b 0 4
  off := getLE b 4 4
  vaddr := getLE b 8 4
  filesz := getLE b 16 4
  memsz := getLE b 20 4

def readHeader (c : List UInt8) (off n : ℕ) : Option (Bytes n) :=
  if (readFile c off n).length = n then some (ofList (readFile c off n)) else none

structure Loaded where
  pgdir : ℕ
  sz : ℕ
  eip : ℕ

structure Image where
  pgdir : ℕ
  sz : ℕ
  eip : ℕ
  esp : ℕ

def subWord (a b : ℕ) : ℕ := (a + (2 ^ 32 - b % 2 ^ 32)) % 2 ^ 32

variable (k : Layout)

def loadSegs (d : ℕ) (c : List UInt8) : ℕ → ℕ → ℕ → Op (Option ℕ)
  | 0, _, sz => pure (some sz)
  | n + 1, off, sz =>
    match (readHeader c off 32).map Proghdr.ofBytes with
    | none => pure none
    | some ph =>
      let off := (off + 32) % 2 ^ 32
      let top := (ph.vaddr + ph.memsz) % 2 ^ 32
      if ph.type ≠ ELF_PROG_LOAD then loadSegs d c n off sz
      else if ph.memsz < ph.filesz then pure none
      else if top < ph.vaddr then pure none
      else do
        let sz ← allocuvm k d sz top
        if sz = 0 then pure none
        else if ph.vaddr % PGSIZE ≠ 0 then pure none
        else if ← loaduvm k d ph.vaddr c ph.off ph.filesz then loadSegs d c n off sz
        else pure none

def loadImage (c : List UInt8) : Op (Option Loaded) := do
  match (readHeader c 0 52).map Elfhdr.ofBytes with
  | none => pure none
  | some elf =>
    if elf.magic ≠ ELF_MAGIC then pure none
    else do
      match ← setupkvm k with
      | none => pure none
      | some d => do
          match ← loadSegs k d c elf.phnum elf.phoff 0 with
          | none => do
              freevm k d
              pure none
          | some sz => pure (some ⟨d, sz, elf.entry⟩)

def pushArgs (null : Op (Option ℕ)) (d : ℕ) :
    List (List UInt8) → ℕ → ℕ → Op (Option (List ℕ × ℕ))
  | [], _, sp => pure (some ([], sp))
  | arg :: rest, argc, sp =>
    if MAXARG ≤ argc then pure none
    else do
      let sp := subWord sp (arg.length + 1) / 4 * 4
      if ← copyout k null d sp (arg ++ [0]) then
        match ← pushArgs null d rest (argc + 1) sp with
        | none => pure none
        | some (ptrs, last) => pure (some (sp :: ptrs, last))
      else pure none

def ustack (ptrs : List ℕ) (sp : ℕ) : List ℕ :=
  0xffffffff :: ptrs.length :: subWord sp ((ptrs.length + 1) * 4) :: (ptrs ++ [0])

def pushStack (null : Op (Option ℕ)) (d : ℕ) (argv : List (List UInt8)) (sp : ℕ) :
    Op (Option ℕ) := do
  match ← pushArgs k null d argv 0 sp with
  | none => pure none
  | some (ptrs, sp) => do
      let top := subWord sp ((3 + ptrs.length + 1) * 4)
      if ← copyout k null d top ((ustack ptrs sp).flatMap (digits 4)) then pure (some top)
      else pure none

def makeStack (null : Op (Option ℕ)) (d : ℕ) (argv : List (List UInt8)) (sz : ℕ) :
    Op (Option (ℕ × ℕ)) := do
  let sz := roundUp sz * PGSIZE
  let sz ← allocuvm k d sz (sz + 2 * PGSIZE)
  if sz = 0 then pure none
  else do
    clearpteu k d ((sz - 2 * PGSIZE) / PGSIZE)
    match ← pushStack k null d argv sz with
    | none => pure none
    | some sp => pure (some (sz, sp))

def stackImage (null : Op (Option ℕ)) (im : Loaded) (argv : List (List UInt8)) :
    Op (Option Image) := do
  match ← makeStack k null im.pgdir argv im.sz with
  | none => do
      freevm k im.pgdir
      pure none
  | some (sz, sp) => pure (some ⟨im.pgdir, sz, im.eip, sp⟩)

def buildImage (null : Op (Option ℕ)) (c : List UInt8) (argv : List (List UInt8)) :
    Op (Option Image) := do
  match ← loadImage k c with
  | none => pure none
  | some im => stackImage k null im argv

end Xv6.Vm
