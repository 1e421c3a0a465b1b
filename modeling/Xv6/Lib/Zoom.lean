import Mathlib.Data.Finset.Basic
import Xv6.Lib.Triple

/-!
Programs on a part of the state, and the locks that a program holds.

`Prog.zoom` runs a program for a component `σ` on a state `ρ` of which it is
a part. `Prog.Locks` follows the locks that are held, whatever the state
does: where it holds, a run alone never waits for a lock.
-/

namespace Xv6.Lib

open Function

variable {P τ τ' ι ι' ε ε' σ ρ α β : Type}

structure Part (ρ σ : Type) where
  get : ρ → σ
  set : ρ → σ → ρ
  get_set : ∀ r s, get (set r s) = s
  set_get : ∀ r, set r (get r) = r
  set_set : ∀ r s s', set (set r s) s' = set r s'

namespace Prog

def zoom (part : Part ρ σ) (tag : τ → τ') (name : ι → ι') (err : ε → ε') :
    Prog τ ι ε σ α → Prog τ' ι' ε' ρ α
  | .pure a => .pure a
  | .panic e => .panic (err e)
  | .acquire t i k => .acquire (tag t) (name i) (k.zoom part tag name err)
  | .release i k => .release (name i) (k.zoom part tag name err)
  | .holding i k => .holding (name i) fun b => (k b).zoom part tag name err
  | .act f k => .act (fun r => part.set r (f (part.get r))) fun r =>
    (k (part.get r)).zoom part tag name err

variable {x : Prog τ ι ε σ α}

theorem wp_zoom {part : Part ρ σ} {tag : τ → τ'} {name : ι → ι'} {err : ε → ε'} {E : ε' → Prop}
    {Q : α → ρ → Prop} {r : ρ}
    (h : x.wp (fun e => E (err e)) (fun a s => Q a (part.set r s)) (part.get r)) :
    (x.zoom part tag name err).wp E Q r := by
  induction x generalizing r with
  | pure a =>
    have h : Q a (part.set r (part.get r)) := h
    rwa [part.set_get] at h
  | panic e => exact h
  | acquire t i k ih => exact ih h
  | release i k ih => exact ih h
  | holding i k ih => exact fun b => ih b (h b)
  | act f k ih =>
    refine ih _ ?_
    rw [part.get_set]
    simp only [part.set_set]
    exact h

theorem result_zoom (part : Part ρ σ) (tag : τ → τ') (name : ι → ι') (err : ε → ε')
    (x : Prog τ ι ε σ α) (r : ρ) :
    (x.zoom part tag name err).result r =
      ((x.result (part.get r)).1.mapError err, part.set r (x.result (part.get r)).2) := by
  induction x generalizing r with
  | pure a => exact Prod.ext rfl (part.set_get r).symm
  | panic e => exact Prod.ext rfl (part.set_get r).symm
  | acquire t i k ih => exact ih r
  | release i k ih => exact ih r
  | holding i k ih => exact ih true r
  | act f k ih =>
    refine (ih (part.get r) (part.set r (f (part.get r)))).trans ?_
    rw [part.get_set, part.set_set]
    rfl

variable {Q : α → σ → Prop}

theorem Triple.zoom (part : Part ρ σ) {tag : τ → τ'} {name : ι → ι'} {err : ε → ε'}
    {E : ε → σ → Prop} {r : ρ} (h : Triple (· = part.get r) x Q E) :
    Triple (· = r) (x.zoom part tag name err) (fun a t => ∃ s, t = part.set r s ∧ Q a s)
      fun e t => ∃ e' s, e = err e' ∧ t = part.set r s ∧ E e' s := by
  constructor
  rintro _ rfl
  have hx := h.ends _ rfl
  rw [result_zoom]
  rcases hr : x.result (part.get _) with ⟨a | e, s⟩
  · rw [hr] at hx
    exact ⟨_, s, rfl, rfl, hx⟩
  · rw [hr] at hx
    exact ⟨s, rfl, hx⟩

theorem wp_of_result {x : Prog Empty Empty ε σ α} {E : ε → Prop} {s : σ}
    (h : Ends Q (fun e _ => E e) (x.result s)) : x.wp E Q s := by
  induction x generalizing s with
  | pure a => exact h
  | panic e => exact h
  | acquire t i k ih => exact i.elim
  | release i k ih => exact i.elim
  | holding i k ih => exact i.elim
  | act f k ih => exact ih s h

theorem wp_error_mono {E E' : ε → Prop} {s : σ}
    (h : x.wp E Q s) (hE : ∀ e, E e → E' e) : x.wp E' Q s := by
  induction x generalizing s with
  | pure a => exact h
  | panic e => exact hE e h
  | acquire t i k ih => exact ih h
  | release i k ih => exact ih h
  | holding i k ih => exact fun b => ih b (h b)
  | act f k ih => exact ih s h

variable [DecidableEq ι] {H : Finset ι}

def Locks (Q : α → Finset ι → Prop) : Prog τ ι ε σ α → Finset ι → Prop
  | .pure a, H => Q a H
  | .panic _, _ => True
  | .acquire _ i k, H => i ∉ H ∧ k.Locks Q (insert i H)
  | .release i k, H => k.Locks Q (H.erase i)
  | .holding i k, H => (k (decide (i ∈ H))).Locks Q H
  | .act _ k, H => ∀ s, (k s).Locks Q H

theorem locks_bind {x : Prog τ ι ε σ α} {k : α → Prog τ ι ε σ β} {Q : β → Finset ι → Prop}
    (h : x.Locks (fun a H => (k a).Locks Q H) H) : (x >>= k).Locks Q H := by
  show (x.bind k).Locks Q H
  induction x generalizing H with
  | pure a => exact h
  | panic e => trivial
  | acquire t i x ih => exact ⟨h.1, ih h.2⟩
  | release i x ih => exact ih h
  | holding i x ih => exact ih _ h
  | act f x ih => exact fun s => ih s (h s)

variable {Q : α → Finset ι → Prop}

theorem locks_zoom_empty {part : Part ρ σ} {tag : Empty → τ} {name : Empty → ι} {err : ε' → ε}
    {x : Prog Empty Empty ε' σ α} (h : ∀ a, Q a H) :
    (x.zoom part tag name err : Prog τ ι ε ρ α).Locks Q H := by
  induction x with
  | pure a => exact h a
  | panic e => trivial
  | acquire t i k ih => exact i.elim
  | release i k ih => exact i.elim
  | holding i k ih => exact i.elim
  | act f k ih => exact fun r => ih (part.get r)

theorem locks_zoom {part : Part ρ σ} {tag : τ → τ'} {err : ε → ε'} {x : Prog τ ι ε σ α}
    (h : x.Locks Q H) : (x.zoom part tag id err).Locks Q H := by
  induction x generalizing H with
  | pure a => exact h
  | panic e => trivial
  | acquire t i k ih => exact ⟨h.1, ih h.2⟩
  | release i k ih => exact ih h
  | holding i k ih => exact ih _ h
  | act f k ih => exact fun r => ih _ (h (part.get r))

def LockedBy (p : P) (H : Finset ι) (lock : ι → Option P) : Prop :=
  ∀ i, lock i = if i ∈ H then some p else none

variable {lock : ι → Option P}

theorem LockedBy.insert {p : P} (h : LockedBy p H lock) (i : ι) :
    LockedBy p (insert i H) (update lock i (some p)) := by
  intro j
  by_cases hj : j = i
  · subst hj
    rw [update_self, if_pos (Finset.mem_insert_self j H)]
  · rw [update_of_ne hj, h j]
    simp only [Finset.mem_insert, hj, false_or]

theorem LockedBy.erase {p : P} (h : LockedBy p H lock) (i : ι) :
    LockedBy p (H.erase i) (update lock i none) := by
  intro j
  by_cases hj : j = i
  · subst hj
    rw [update_self, if_neg (Finset.notMem_erase j H)]
  · rw [update_of_ne hj, h j]
    simp only [Finset.mem_erase, ne_eq, hj, not_false_eq_true, true_and]

variable [DecidableEq P]

def Outcome.Frees (p : P) (Q : α → Finset ι → Prop) : Outcome P ι ε σ α → Prop
  | .done a lock _ => ∃ H, Q a H ∧ LockedBy p H lock
  | .panicked _ => True
  | .blocked _ => False

theorem run_of_locks {x : Prog τ ι ε σ α} {p : P} {s : σ} (hlock : LockedBy p H lock)
    (h : x.Locks Q H) : Outcome.Frees p Q (x.run p lock s) := by
  induction x generalizing H lock s with
  | pure a => exact ⟨H, h, hlock⟩
  | panic e => trivial
  | acquire t i k ih =>
    have hfree : lock i = none := by rw [hlock i, if_neg h.1]
    rw [run, if_pos hfree]
    exact ih (hlock.insert i) h.2
  | release i k ih => exact ih (hlock.erase i) h
  | holding i k ih =>
    have heq : decide (lock i = some p) = decide (i ∈ H) := by
      rw [hlock i]
      by_cases hi : i ∈ H <;> simp [hi]
    rw [run, heq]
    exact ih _ hlock h
  | act f k ih => exact ih s hlock (h s)

end Prog

export Prog (locks_bind)

end Xv6.Lib
