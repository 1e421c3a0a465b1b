import Mathlib.Tactic.Common

/-!
Programs as trees of steps.

A program over a shared state `σ` is a tree whose nodes are its steps:
taking a lock, giving it back, asking whether one holds it, and atomic
actions on the state. A node holds the rest of the program, so what a
process still has to do is itself a program, and an interleaving of
processes is a sequence of nodes taken from the front of their programs.
Locks have names `ι`; the place of the code that takes a lock is recorded
in a tag `τ`. A program may stop the machine with an error `ε`.

Here a program runs alone, from its first node to its last (`run`).
`wp` is the rule for such runs: it walks over the tree and forgets the
locks, so a proof about a call that is not interrupted never mentions
them. `Lib.Locking` is about interleavings.
-/

namespace Xv6.Lib

inductive Prog (τ ι ε σ α : Type) where
  | pure (a : α)
  | panic (e : ε)
  | acquire (t : τ) (i : ι) (k : Prog τ ι ε σ α)
  | release (i : ι) (k : Prog τ ι ε σ α)
  | holding (i : ι) (k : Bool → Prog τ ι ε σ α)
  | act (f : σ → σ) (k : σ → Prog τ ι ε σ α)

inductive Outcome (P ι ε σ α : Type) where
  | done (a : α) (lock : ι → Option P) (s : σ)
  | panicked (e : ε)
  | blocked (i : ι)

variable {P τ ι ε σ α β : Type}

namespace Prog

protected def bind : Prog τ ι ε σ α → (α → Prog τ ι ε σ β) → Prog τ ι ε σ β
  | .pure a, k => k a
  | .panic e, _ => .panic e
  | .acquire t i x, k => .acquire t i (x.bind k)
  | .release i x, k => .release i (x.bind k)
  | .holding i x, k => .holding i fun b => (x b).bind k
  | .act f x, k => .act f fun s => (x s).bind k

instance : Monad (Prog τ ι ε σ) where
  pure := Prog.pure
  bind := Prog.bind

def read (f : σ → α) : Prog τ ι ε σ α := .act id fun s => .pure (f s)

def modify (f : σ → σ) : Prog τ ι ε σ Unit := .act f fun _ => .pure ()

section
variable [DecidableEq ι] [DecidableEq P]

def run (p : P) : Prog τ ι ε σ α → (ι → Option P) → σ → Outcome P ι ε σ α
  | .pure a, lock, s => .done a lock s
  | .panic e, _, _ => .panicked e
  | .acquire _ i k, lock, s =>
    if lock i = none then k.run p (Function.update lock i (some p)) s else .blocked i
  | .release i k, lock, s => k.run p (Function.update lock i none) s
  | .holding i k, lock, s => (k (decide (lock i = some p))).run p lock s
  | .act f k, lock, s => (k s).run p lock (f s)

end

def wp (E : ε → Prop) : Prog τ ι ε σ α → (α → σ → Prop) → σ → Prop
  | .pure a, Q, s => Q a s
  | .panic e, _, _ => E e
  | .acquire _ _ k, Q, s => k.wp E Q s
  | .release _ k, Q, s => k.wp E Q s
  | .holding _ k, Q, s => ∀ b, (k b).wp E Q s
  | .act f k, Q, s => (k s).wp E Q (f s)

variable {E : ε → Prop} {Q : α → σ → Prop} {s : σ}

@[simp] theorem wp_act (f : σ → σ) (k : σ → Prog τ ι ε σ α) :
    (Prog.act f k).wp E Q s ↔ (k s).wp E Q (f s) := Iff.rfl

@[simp] theorem wp_read (f : σ → α) : (read f : Prog τ ι ε σ α).wp E Q s ↔ Q (f s) s := Iff.rfl

@[simp] theorem wp_bind (x : Prog τ ι ε σ α) (k : α → Prog τ ι ε σ β) {Q : β → σ → Prop} :
    (x >>= k).wp E Q s ↔ x.wp E (fun a s => (k a).wp E Q s) s := by
  show (x.bind k).wp E Q s ↔ _
  induction x generalizing s with
  | pure a => exact Iff.rfl
  | panic e => exact Iff.rfl
  | acquire t i x ih => exact ih
  | release i x ih => exact ih
  | holding i x ih => exact forall_congr' fun b => ih b
  | act f x ih => exact ih s

theorem wp_mono {x : Prog τ ι ε σ α} {Q' : α → σ → Prop} (h : x.wp E Q s)
    (hQ : ∀ a s, Q a s → Q' a s) : x.wp E Q' s := by
  induction x generalizing s with
  | pure a => exact hQ a s h
  | panic e => exact h
  | acquire t i x ih => exact ih h
  | release i x ih => exact ih h
  | holding i x ih => exact fun b => ih b (h b)
  | act f x ih => exact ih s h

def Outcome.Meets (E : ε → Prop) (Q : α → σ → Prop) : Outcome P ι ε σ α → Prop
  | .done a _ s => Q a s
  | .panicked e => E e
  | .blocked _ => True

theorem run_of_wp [DecidableEq ι] [DecidableEq P] (p : P) {x : Prog τ ι ε σ α}
    (lock : ι → Option P) (h : x.wp E Q s) : Outcome.Meets E Q (x.run p lock s) := by
  induction x generalizing s lock with
  | pure a => exact h
  | panic e => exact h
  | acquire t i x ih =>
    rw [run]
    split
    · exact ih _ h
    · trivial
  | release i x ih => exact ih _ h
  | holding i x ih => exact ih _ lock (h _)
  | act f x ih => exact ih s lock h

end Prog

end Xv6.Lib
