import Xv6.Lib.Zoom

/-!
Programs with locks that run alone.

`Solo` follows the state and the locks of a run together: the program takes no
lock that it has, and `Q` is true of its result, the locks that it holds at its
end and the last state. Other than `wp`, it knows whether a lock is held where
the program asks for it.
-/

namespace Xv6.Lib.Prog

variable {P τ ι ε σ α β : Type} [DecidableEq ι]

def Solo (E : ε → Prop) (Q : α → Finset ι → σ → Prop) : Prog τ ι ε σ α → Finset ι → σ → Prop
  | .pure a, H, s => Q a H s
  | .panic e, _, _ => E e
  | .acquire _ i k, H, s => i ∉ H ∧ k.Solo E Q (insert i H) s
  | .release i k, H, s => k.Solo E Q (H.erase i) s
  | .holding i k, H, s => (k (decide (i ∈ H))).Solo E Q H s
  | .act f k, H, s => (k s).Solo E Q H (f s)

variable {E : ε → Prop} {H : Finset ι} {s : σ}

theorem solo_bind {x : Prog τ ι ε σ α} {k : α → Prog τ ι ε σ β} {Q : β → Finset ι → σ → Prop}
    (h : x.Solo E (fun a H s => (k a).Solo E Q H s) H s) : (x >>= k).Solo E Q H s := by
  show (x.bind k).Solo E Q H s
  induction x generalizing H s with
  | pure a => exact h
  | panic e => exact h
  | acquire t i x ih => exact ⟨h.1, ih h.2⟩
  | release i x ih => exact ih h
  | holding i x ih => exact ih _ h
  | act f x ih => exact ih s h

variable [DecidableEq P]

def Outcome.EndsAlone (p : P) (E : ε → Prop) (Q : α → Finset ι → σ → Prop) :
    Outcome P ι ε σ α → Prop
  | .done a lock s => ∃ H, Q a H s ∧ LockedBy p H lock
  | .panicked e => E e
  | .blocked _ => False

theorem run_of_solo {x : Prog τ ι ε σ α} {p : P} {Q : α → Finset ι → σ → Prop}
    {lock : ι → Option P} (hlock : LockedBy p H lock) (h : x.Solo E Q H s) :
    Outcome.EndsAlone p E Q (x.run p lock s) := by
  induction x generalizing H lock s with
  | pure a => exact ⟨H, h, hlock⟩
  | panic e => exact h
  | acquire t i k ih =>
    have hfree : lock i = none := by rw [hlock i, if_neg h.1]
    rw [run, if_pos hfree]
    exact ih (hlock.insert i) h.2
  | release i k ih => exact ih (hlock.erase i) h
  | holding i k ih =>
    have heq : decide (lock i = some p) = decide (i ∈ H) := by
      rw [hlock i]
      by_cases hi : i ∈ H <;> simp [hi]
    rw [run, heq]
    exact ih _ hlock h
  | act f k ih => exact ih s hlock h

end Xv6.Lib.Prog
