import Xv6.Lib.Prog

/-!
Pre- and postconditions for programs that run alone.

`Prog.result` runs a program from its first node to its last, with every
lock free for it, and gives the state at the end also when it panics. A
`Triple` says what holds at the end: `Q` of the result if the program
returns, `E` of the error if it panics. There is one rule for each way to
build a program.
-/

namespace Xv6.Lib

variable {τ ι ε σ α β : Type}

namespace Prog

def result : Prog τ ι ε σ α → σ → Except ε α × σ
  | .pure a, s => (.ok a, s)
  | .panic e, s => (.error e, s)
  | .acquire _ _ k, s => k.result s
  | .release _ k, s => k.result s
  | .holding _ k, s => (k true).result s
  | .act f k, s => (k s).result (f s)

theorem result_bind (x : Prog τ ι ε σ α) (k : α → Prog τ ι ε σ β) (s : σ) :
    (x >>= k).result s =
      match x.result s with
      | (.ok a, s) => (k a).result s
      | (.error e, s) => (.error e, s) := by
  show (x.bind k).result s = _
  induction x generalizing s with
  | pure a => rfl
  | panic e => rfl
  | acquire t i x ih => exact ih s
  | release i x ih => exact ih s
  | holding i x ih => exact ih true s
  | act f x ih => exact ih s (f s)

theorem result_bind_ok {x : Prog τ ι ε σ α} {k : α → Prog τ ι ε σ β} {s t : σ} {a : α}
    (h : x.result s = (.ok a, t)) : (x >>= k).result s = (k a).result t := by
  rw [result_bind, h]

theorem result_bind_error {x : Prog τ ι ε σ α} {k : α → Prog τ ι ε σ β} {s t : σ} {e : ε}
    (h : x.result s = (.error e, t)) : (x >>= k).result s = (.error e, t) := by
  rw [result_bind, h]

theorem result_read_bind (f : σ → α) (k : α → Prog τ ι ε σ β) (s : σ) :
    (read f >>= k).result s = (k (f s)).result s := rfl

theorem result_modify_bind (f : σ → σ) (k : Unit → Prog τ ι ε σ β) (s : σ) :
    (modify f >>= k).result s = (k ()).result (f s) := rfl

def Ends (Q : α → σ → Prop) (E : ε → σ → Prop) : Except ε α × σ → Prop
  | (.ok a, s) => Q a s
  | (.error e, s) => E e s

structure Triple (P : σ → Prop) (x : Prog τ ι ε σ α) (Q : α → σ → Prop) (E : ε → σ → Prop) :
    Prop where
  ends : ∀ s, P s → Ends Q E (x.result s)

abbrev Never : ε → σ → Prop := fun _ _ => False

namespace Triple

variable {P P' : σ → Prop} {x : Prog τ ι ε σ α} {Q Q' : α → σ → Prop} {E E' : ε → σ → Prop}

section
variable (h : Triple P x Q E)
include h

theorem conseq (hP : ∀ s, P' s → P s) (hQ : ∀ a s, Q a s → Q' a s)
    (hE : ∀ e s, E e s → E' e s) : Triple P' x Q' E' := by
  constructor
  intro s hs
  have hx := h.ends s (hP s hs)
  rcases hr : x.result s with ⟨r, t⟩
  rw [hr] at hx
  cases r with
  | ok a => exact hQ a t hx
  | error e => exact hE e t hx

theorem pre (hP : ∀ s, P' s → P s) : Triple P' x Q E :=
  ⟨fun s hs => h.ends s (hP s hs)⟩

theorem mono (hQ : ∀ a s, Q a s → Q' a s) (hE : ∀ e s, E e s → E' e s) :
    Triple P x Q' E' := h.conseq (fun _ hs => hs) hQ hE

theorem post (hQ : ∀ a s, Q a s → Q' a s) : Triple P x Q' E :=
  h.mono hQ fun _ _ he => he

theorem err (hE : ∀ e s, E e s → E' e s) : Triple P x Q E' :=
  h.mono (fun _ _ ha => ha) hE

theorem returns_of (hE : ∀ e t, ¬E e t) {s : σ} (hs : P s) :
    ∃ a t, x.result s = (.ok a, t) ∧ Q a t := by
  have hx := h.ends s hs
  rcases hr : x.result s with ⟨r, t⟩
  rw [hr] at hx
  cases r with
  | ok a => exact ⟨a, t, rfl, hx⟩
  | error e => exact absurd hx (hE e t)

end

variable {s : σ}

theorem returns (h : Triple P x Q Never) (hs : P s) :
    ∃ a t, x.result s = (.ok a, t) ∧ Q a t := h.returns_of (fun _ _ => not_false) hs

theorem of_ok (h : Triple P x Q E) {s t : σ} {a : α} (hs : P s) (hx : x.result s = (.ok a, t)) :
    Q a t := by
  have hend := h.ends s hs
  rw [hx] at hend
  exact hend

theorem of_error (h : Triple P x Q E) {s t : σ} {e : ε} (hs : P s)
    (hx : x.result s = (.error e, t)) : E e t := by
  have hend := h.ends s hs
  rw [hx] at hend
  exact hend

theorem fails {a : ε} (h : Triple P x (fun _ _ => False) fun e _ => e = a) (hs : P s) :
    ∃ t, x.result s = (.error a, t) := by
  have hx := h.ends s hs
  rcases hr : x.result s with ⟨r, t⟩
  rw [hr] at hx
  cases r with
  | ok b => exact hx.elim
  | error e =>
    obtain rfl : e = a := hx
    exact ⟨t, rfl⟩

theorem panics (h : Triple P x Q Never) (E : ε → σ → Prop) : Triple P x Q E :=
  h.err fun _ _ => False.elim

theorem and {P1 : σ → Prop} {Q1 : α → σ → Prop} {E1 : ε → σ → Prop} (h : Triple P x Q E)
    (h1 : Triple P1 x Q1 E1) :
    Triple (fun s => P s ∧ P1 s) x (fun a s => Q a s ∧ Q1 a s) fun e s => E e s ∧ E1 e s := by
  constructor
  intro s hs
  have hx := h.ends s hs.1
  have hx1 := h1.ends s hs.2
  rcases hr : x.result s with ⟨r, t⟩
  rw [hr] at hx hx1
  cases r with
  | ok a => exact ⟨hx, hx1⟩
  | error e => exact ⟨hx, hx1⟩

theorem final {R : σ → Prop} (h : Triple P x (fun _ => R) fun _ => R) (hs : P s) :
    R (x.result s).2 := by
  have hx := h.ends s hs
  rcases hr : x.result s with ⟨_ | _, t⟩ <;>
  · rw [hr] at hx
    exact hx

theorem ends_somehow (x : Prog τ ι ε σ α) : Triple P x (fun _ _ => True) fun _ _ => True := by
  constructor
  intro s _
  rcases x.result s with ⟨_ | _, t⟩ <;> trivial

theorem pure {a : α} (h : ∀ s, P s → Q a s) : Triple P (Pure.pure a : Prog τ ι ε σ α) Q E := ⟨h⟩

theorem panic {e : ε} (h : ∀ s, P s → E e s) : Triple P (.panic e : Prog τ ι ε σ α) Q E := ⟨h⟩

theorem bind {R : α → σ → Prop} {k : α → Prog τ ι ε σ β} {Q : β → σ → Prop}
    (hx : Triple P x R E) (hk : ∀ a, Triple (R a) (k a) Q E) : Triple P (x >>= k) Q E := by
  constructor
  intro s hs
  have h := hx.ends s hs
  rw [result_bind]
  rcases hr : x.result s with ⟨r, t⟩
  rw [hr] at h
  cases r with
  | ok a => exact (hk a).ends t h
  | error e => exact h

theorem modify {f : σ → σ} {Q : Unit → σ → Prop} (h : ∀ s, P s → Q () (f s)) :
    Triple P (.modify f : Prog τ ι ε σ Unit) Q E := ⟨h⟩

theorem read {f : σ → α} (h : ∀ s, P s → Q (f s) s) :
    Triple P (.read f : Prog τ ι ε σ α) Q E := ⟨h⟩

theorem of_exists {γ : Sort*} {R : γ → σ → Prop} (h : ∀ c, Triple (R c) x Q E) :
    Triple (fun s => ∃ c, R c s) x Q E := ⟨fun s ⟨c, hs⟩ => (h c).ends s hs⟩

theorem of_and {p : Prop} (h : p → Triple P x Q E) : Triple (fun s => p ∧ P s) x Q E :=
  ⟨fun s ⟨hp, hs⟩ => (h hp).ends s hs⟩

theorem of_state (h : ∀ s, P s → Triple (· = s) x Q E) : Triple P x Q E :=
  ⟨fun s hs => (h s hs).ends s rfl⟩

theorem start (h : Triple P x Q E) (hs : P s) : Triple (· = s) x Q E :=
  ⟨fun _ heq => h.ends _ (heq ▸ hs)⟩

theorem ite {c : Prop} [Decidable c] {x y : Prog τ ι ε σ α} (hx : c → Triple P x Q E)
    (hy : ¬c → Triple P y Q E) : Triple P (if c then x else y) Q E := by
  split
  · exact hx ‹_›
  · exact hy ‹_›

end Triple

def Keeps (P : σ → Prop) (E : ε → σ → Prop) (x : Prog τ ι ε σ α) : Prop :=
  Triple P x (fun _ => P) E

namespace Keeps

variable {P : σ → Prop} {E : ε → σ → Prop} {x : Prog τ ι ε σ α}

theorem pure (a : α) : Keeps P E (Pure.pure a : Prog τ ι ε σ α) := Triple.pure fun _ h => h

theorem panic {e : ε} (h : ∀ s, P s → E e s) : Keeps P E (.panic e : Prog τ ι ε σ α) :=
  Triple.panic h

theorem bind {k : α → Prog τ ι ε σ β} (hx : Keeps P E x) (hk : ∀ a, Keeps P E (k a)) :
    Keeps P E (x >>= k) := Triple.bind hx hk

theorem modify {f : σ → σ} (h : ∀ s, P s → P (f s)) :
    Keeps P E (.modify f : Prog τ ι ε σ Unit) := Triple.modify h

theorem read (f : σ → α) : Keeps P E (.read f : Prog τ ι ε σ α) := Triple.read fun _ h => h

theorem ite {c : Prop} [Decidable c] {x y : Prog τ ι ε σ α} (hx : Keeps P E x)
    (hy : Keeps P E y) : Keeps P E (if c then x else y) :=
  Triple.ite (fun _ => hx) fun _ => hy

end Keeps

end Prog

export Prog (Triple Never result_bind result_bind_ok result_bind_error result_read_bind)

end Xv6.Lib
