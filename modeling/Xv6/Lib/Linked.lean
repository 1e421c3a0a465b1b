import Mathlib.Tactic.Common

/-!
Singly linked lists in a store.

The nodes of the list are cells of some store. `ptr` is the pointer to a
cell, and `next` the pointer that the cell holds. `Linked ptr null next w l`
says that following pointers from `w` visits exactly the cells `l` and
then ends with the null pointer.
-/

namespace Xv6.Lib

variable {α ω : Type} {ptr : α → ω} {null : ω} {next next' : α → ω} {w : ω} {a : α} {l : List α}

def Linked (ptr : α → ω) (null : ω) (next : α → ω) : ω → List α → Prop
  | w, [] => w = null
  | w, a :: l => w = ptr a ∧ Linked ptr null next (next a) l

section
variable (h : Linked ptr null next w l)
include h

theorem Linked.congr (heq : ∀ a ∈ l, next' a = next a) : Linked ptr null next' w l := by
  induction l generalizing w with
  | nil => exact h
  | cons a l ih =>
    refine ⟨h.1, ?_⟩
    rw [heq a (List.mem_cons_self ..)]
    exact ih h.2 fun b hb => heq b (List.mem_cons_of_mem _ hb)

theorem Linked.push (ha : next a = w) : Linked ptr null next (ptr a) (a :: l) := by
  refine ⟨rfl, ?_⟩
  rw [ha]
  exact h

theorem Linked.pop (hw : w ≠ null) :
    ∃ a l', l = a :: l' ∧ w = ptr a ∧ Linked ptr null next (next a) l' := by
  cases l with
  | nil => exact absurd h hw
  | cons a l => exact ⟨a, l, rfl, h.1, h.2⟩

end

theorem Linked.eq_nil (h : Linked ptr null next null l) (hp : ∀ a, ptr a ≠ null) : l = [] := by
  cases l with
  | nil => rfl
  | cons a l => exact absurd h.1.symm (hp a)

theorem Linked.unique {l' : List α} (h : Linked ptr null next w l) (h' : Linked ptr null next w l')
    (hp : ∀ a, ptr a ≠ null) (hinj : Function.Injective ptr) : l = l' := by
  induction l generalizing w l' with
  | nil =>
    obtain rfl : w = null := h
    exact (h'.eq_nil hp).symm
  | cons a l ih =>
    obtain ⟨b, l', rfl, hb, h'⟩ := h'.pop (h.1 ▸ hp a)
    obtain rfl : a = b := hinj (h.1.symm.trans hb)
    rw [ih h.2 h']

end Xv6.Lib
