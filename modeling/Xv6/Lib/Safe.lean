import Xv6.Lib.Prog

/-!
Programs all of whose steps keep a property of the state.

`wp` follows one run. `Safe` says of the whole tree of a program that each of
its actions keeps `R`, and that `E` allows each panic it has where `R` holds.
-/

namespace Xv6.Lib.Prog

variable {τ ι ε σ α β : Type} {R : σ → Prop} {E : ε → Prop} {s : σ}

def Safe (R : σ → Prop) (E : ε → Prop) : Prog τ ι ε σ α → Prop
  | .pure _ => True
  | .panic e => E e
  | .acquire _ _ k => k.Safe R E
  | .release _ k => k.Safe R E
  | .holding _ k => ∀ b, (k b).Safe R E
  | .act f k => ∀ s, R s → R (f s) ∧ (k s).Safe R E

namespace Safe

theorem pure (a : α) : Safe R E (Pure.pure a : Prog τ ι ε σ α) := trivial

theorem panic {e : ε} (h : E e) : Safe R E (.panic e : Prog τ ι ε σ α) := h

theorem read (f : σ → α) : Safe R E (.read f : Prog τ ι ε σ α) := fun _ h => ⟨h, trivial⟩

theorem modify {f : σ → σ} (h : ∀ s, R s → R (f s)) :
    Safe R E (.modify f : Prog τ ι ε σ Unit) := fun s hs => ⟨h s hs, trivial⟩

variable {x : Prog τ ι ε σ α}

theorem bind {k : α → Prog τ ι ε σ β} (hx : Safe R E x) (hk : ∀ a, Safe R E (k a)) :
    Safe R E (x >>= k) := by
  show Safe R E (x.bind k)
  induction x with
  | pure a => exact hk a
  | panic e => exact hx
  | acquire t i x ih => exact ih hx
  | release i x ih => exact ih hx
  | holding i x ih => exact fun b => ih b (hx b)
  | act f x ih => exact fun s hs => ⟨(hx s hs).1, ih s (hx s hs).2⟩

theorem ite {c : Prop} [Decidable c] {y : Prog τ ι ε σ α} (hx : c → Safe R E x)
    (hy : ¬c → Safe R E y) : Safe R E (if c then x else y) := by
  split
  · exact hx ‹_›
  · exact hy ‹_›

theorem wp (h : Safe R E x) (hs : R s) : x.wp E (fun _ => R) s := by
  induction x generalizing s with
  | pure a => exact hs
  | panic e => exact h
  | acquire t i x ih => exact ih h hs
  | release i x ih => exact ih h hs
  | holding i x ih => exact fun b => ih b (h b) hs
  | act f x ih => exact ih s (h s hs).2 (h s hs).1

theorem wp_bind {k : α → Prog τ ι ε σ β} {Q : β → σ → Prop} (hx : Safe R E x) (hs : R s)
    (hk : ∀ a s, R s → (k a).wp E Q s) : (x >>= k).wp E Q s :=
  (Prog.wp_bind x k).2 (wp_mono (hx.wp hs) hk)

theorem ends (h : Safe (fun _ => True) E x) (s : σ) :
    x.wp E (fun _ _ => True) s := wp_mono (h.wp trivial) fun _ _ h => h

end Safe

end Xv6.Lib.Prog
