import Xv6.Lib.Bytes

/-!
The constants of `param.h`, `fs.h`, `fcntl.h` and `memlayout.h` that several
components use, and disk blocks as arrays of words.
-/

namespace Xv6

open Lib

abbrev ROOTDEV : ℕ := 1
abbrev BSIZE : ℕ := 512
abbrev MAXOPBLOCKS : ℕ := 10
abbrev LOGSIZE : ℕ := MAXOPBLOCKS * 3
abbrev NBUF : ℕ := MAXOPBLOCKS * 3

abbrev FSSIZE : ℕ := 1000
abbrev NPROC : ℕ := 64
abbrev NCPU : ℕ := 8
abbrev NOFILE : ℕ := 16
abbrev NFILE : ℕ := 100
instance : NeZero NFILE := ⟨by decide⟩
abbrev NINODE : ℕ := 50
abbrev NDEV : ℕ := 10
abbrev MAXARG : ℕ := 32
abbrev CONSOLE : ℕ := 1
abbrev ROOTINO : ℕ := 1
abbrev NDIRECT : ℕ := 12
abbrev NINDIRECT : ℕ := BSIZE / 4
abbrev MAXFILE : ℕ := NDIRECT + NINDIRECT
abbrev DIRSIZ : ℕ := 14

abbrev O_RDONLY : UInt32 := 0x000
abbrev O_WRONLY : UInt32 := 0x001
abbrev O_RDWR : UInt32 := 0x002
abbrev O_CREATE : UInt32 := 0x200

abbrev PGSIZE : ℕ := 4096
abbrev KERNBASE : ℕ := 0x80000000

abbrev Block := Bytes BSIZE

def word (b : Block) (i : ℕ) : ℕ := getLE b (4 * i) 4

def setWord (b : Block) (i v : ℕ) : Block := setLE b (4 * i) 4 v

theorem word_setWord (b : Block) {i v : ℕ} (hi : i < 128) (hv : v < 2 ^ 32) :
    word (setWord b i v) i = v := by
  have h := getLE_setLE b (o := 4 * i) (w := 4) v (by simp only [BSIZE]; omega)
  rw [word, setWord, h]
  exact Nat.mod_eq_of_lt hv

theorem word_setWord_of_ne (b : Block) {i j : ℕ} (v : ℕ) (h : i ≠ j) :
    word (setWord b j v) i = word b i :=
  getLE_setLE_of_disjoint b v (by omega)

@[simp] theorem word_zeros (i : ℕ) : word (zeros : Block) i = 0 := getLE_zeros _ _

end Xv6
