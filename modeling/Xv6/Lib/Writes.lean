import Mathlib.Data.List.Basic

/-!
Sequences of atomic writes to an addressed store, and the stores a crash in
the middle of one can leave behind.

A store is a function from addresses to contents. The writes of a program are
a list, applied in order; a crash keeps a prefix of that list.
-/

namespace Xv6.Lib

open Function
open Prod (fst)

variable {A B : Type} [DecidableEq A]

def applyWrites (ws : List (A × B)) (d : A → B) : A → B :=
  ws.foldl (fun d w => update d w.1 w.2) d

@[simp] theorem applyWrites_nil (d : A → B) : applyWrites [] d = d := rfl

@[simp] theorem applyWrites_cons (w : A × B) (ws : List (A × B)) (d : A → B) :
    applyWrites (w :: ws) d = applyWrites ws (update d w.1 w.2) := rfl

theorem applyWrites_append (ws vs : List (A × B)) (d : A → B) :
    applyWrites (ws ++ vs) d = applyWrites vs (applyWrites ws d) :=
  List.foldl_append

variable {ws : List (A × B)} {d : A → B} {a : A}

theorem applyWrites_of_notMem (h : a ∉ ws.map fst) : applyWrites ws d a = d a := by
  induction ws generalizing d with
  | nil => rfl
  | cons w ws ih =>
    rw [List.map_cons, List.mem_cons, not_or] at h
    rw [applyWrites_cons, ih h.2, update_of_ne h.1]

theorem applyWrites_of_mem {e : A → B} (h : a ∈ ws.map fst) :
    applyWrites ws d a = applyWrites ws e a := by
  induction ws generalizing d e with
  | nil => simp at h
  | cons w ws ih =>
    rw [applyWrites_cons, applyWrites_cons]
    by_cases hw : a ∈ ws.map fst
    · exact ih hw
    · rw [List.map_cons, List.mem_cons, or_iff_left hw] at h
      subst h
      rw [applyWrites_of_notMem hw, applyWrites_of_notMem hw, update_self, update_self]

theorem applyWrites_congr {e : A → B} (h : d a = e a) :
    applyWrites ws d a = applyWrites ws e a := by
  by_cases hm : a ∈ ws.map fst
  · exact applyWrites_of_mem hm
  · rw [applyWrites_of_notMem hm, applyWrites_of_notMem hm, h]

theorem applyWrites_of_nodup (hnd : (ws.map fst).Nodup) {w : A × B} (hw : w ∈ ws) :
    applyWrites ws d w.1 = w.2 := by
  induction ws generalizing d with
  | nil => simp at hw
  | cons v ws ih =>
    rw [List.map_cons, List.nodup_cons] at hnd
    rcases List.mem_cons.mp hw with rfl | hw
    · rw [applyWrites_cons, applyWrites_of_notMem hnd.1, update_self]
    · exact ih hnd.2 hw

theorem applyWrites_take_replay (ws : List (A × B)) (j : ℕ) (d : A → B) :
    applyWrites ws (applyWrites (ws.take j) d) = applyWrites ws d := by
  funext a
  by_cases hm : a ∈ ws.map fst
  · exact applyWrites_of_mem hm
  have hj : a ∉ (ws.take j).map fst := by
    intro ha
    obtain ⟨w, hw, rfl⟩ := List.mem_map.mp ha
    exact hm (List.mem_map_of_mem (List.mem_of_mem_take hw))
  rw [applyWrites_of_notMem hm, applyWrites_of_notMem hm, applyWrites_of_notMem hj]

end Xv6.Lib
