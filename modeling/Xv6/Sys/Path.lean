import Xv6.Sys.Inode

/-!
Path names.

`skipelem` works on the bytes of a path. The loop of `namex` runs over
the elements that repeated calls of `skipelem` give; it stops one level
early, for the parent, when no element is left behind the current one,
which is when the rest of the path is empty.
-/

namespace Xv6.Sys

open Lib

variable {P : Type}

abbrev Path := List UInt8

def slash : UInt8 := 47

def skipelem (path : Path) : Option (Name × Path) :=
  let path := path.dropWhile (· = slash)
  if path = [] then none
  else
    let elem := path.takeWhile (· ≠ slash)
    let rest := (path.dropWhile (· ≠ slash)).dropWhile (· = slash)
    some (elem.take DIRSIZ, rest)

def elemsUpTo : ℕ → Path → List Name
  | 0, _ => []
  | n + 1, path =>
    match skipelem path with
    | none => []
    | some (name, rest) => name :: elemsUpTo n rest

def elems (path : Path) : List Name := elemsUpTo path.length path

variable (sb : Super)

def namexLoop (nameiparent : Bool) : ℕ → List Name → Op P (Option (ℕ × Name))
  | ip, [] =>
    if nameiparent then do
      iput .iput ip
      pure none
    else pure (some (ip, []))
  | ip, name :: rest => do
      ilock ip
      let type ← .read fun s => (s.inode ip).type
      if type ≠ .dir then do
        iunlockput .iput ip
        pure none
      else if nameiparent && rest.isEmpty then do
        iunlock ip
        pure (some (ip, name))
      else do
        match ← dirlookup sb ip name with
        | none => do
            iunlockput .iput ip
            pure none
        | some (next, _) => do
            iunlockput .iput ip
            namexLoop nameiparent next rest

def namex (p : P) (path : Path) (nameiparent : Bool) : Op P (Option (ℕ × Name)) :=
  if path.head? = some slash then do
    iget sb ROOTINO
    namexLoop sb nameiparent ROOTINO (elems path)
  else do
    let cwd ← .read fun s => s.cwd p
    idup cwd
    namexLoop sb nameiparent cwd (elems path)

def namei (p : P) (path : Path) : Op P (Option ℕ) := do
  match ← namex sb p path false with
  | none => pure none
  | some (ip, _) => pure (some ip)

def nameiparent (p : P) (path : Path) : Op P (Option (ℕ × Name)) := namex sb p path true

end Xv6.Sys
