import Mathlib.Data.List.FinRange
import Xv6.Param

/-!
The table of open files: `ftable` of `file.c`, and descriptors.
-/

namespace Xv6.Files

open Function

inductive FdType where
  | none | pipe | inode
  deriving DecidableEq, Repr

structure File where
  type : FdType
  ref : ℕ
  readable : Bool
  writable : Bool
  pipe : ℕ
  ip : ℕ
  off : ℕ
  deriving DecidableEq, Repr

abbrev Ftable := Fin NFILE → File

abbrev Ofile := Fin NOFILE → Option (Fin NFILE)

namespace Ftable

def unused (t : Ftable) : Option (Fin NFILE) :=
  (List.finRange NFILE).find? fun f => decide ((t f).ref = 0)

def take (t : Ftable) (f : Fin NFILE) : Ftable := update t f { t f with ref := 1 }

def dup (t : Ftable) (f : Fin NFILE) : Ftable :=
  update t f { t f with ref := (t f).ref + 1 }

def drop (t : Ftable) (f : Fin NFILE) : Ftable :=
  if 1 < (t f).ref then update t f { t f with ref := (t f).ref - 1 }
  else update t f { t f with ref := 0, type := .none }

def Clean (t : Ftable) : Prop := ∀ f, (t f).ref = 0 → (t f).type = .none

variable {t : Ftable} {f : Fin NFILE}

theorem unused_some (h : t.unused = some f) : (t f).ref = 0 := by
  simpa using List.find?_some h

theorem Clean.update {x : File} (h : t.Clean) (hx : x.ref = 0 → x.type = .none) :
    Clean (update t f x) := by
  intro g hg
  by_cases hgf : g = f
  · subst hgf
    rw [update_self] at hg ⊢
    exact hx hg
  · rw [update_of_ne hgf] at hg ⊢
    exact h g hg

theorem Clean.take (h : t.Clean) : (t.take f).Clean :=
  h.update fun h0 => absurd h0 Nat.one_ne_zero

theorem Clean.dup (h : t.Clean) : (t.dup f).Clean :=
  h.update fun h0 => absurd h0 (Nat.succ_ne_zero _)

theorem Clean.drop (h : t.Clean) : (t.drop f).Clean := by
  unfold Ftable.drop
  split
  · exact h.update fun h0 => absurd h0 (Nat.sub_ne_zero_of_lt ‹_›)
  · exact h.update fun _ => rfl

end Ftable

def Ofile.spare (o : Ofile) : Option (Fin NOFILE) :=
  (List.finRange NOFILE).find? fun fd => (o fd).isNone

def Ofile.alloc (o : Ofile) (f : Fin NFILE) : Ofile :=
  match o.spare with
  | none => o
  | some fd => update o fd (some f)

def Ofile.argfd (o : Ofile) (fd : Int) : Option (Fin NOFILE × Fin NFILE) :=
  if h : 0 ≤ fd ∧ fd < NOFILE then
    (o ⟨fd.toNat, by omega⟩).map fun f => (⟨fd.toNat, by omega⟩, f)
  else none

end Xv6.Files
