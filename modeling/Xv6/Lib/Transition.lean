import Mathlib.Algebra.BigOperators.Ring.Finset

/-!
Runs of a state machine given by a partial step function, what they show, the
two induction rules for what holds along every run, sums over the processes of
a system of which one process moves at a time, and counting what has
references.
-/

namespace Xv6.Lib

open Function
open Finset (mem_univ sum_congr univ)

variable {S L : Type}

def exec (step : S → L → Option S) (s : S) (tr : List L) : Option S := tr.foldlM step s

variable {step : S → L → Option S} {t : S} {s : S} {l : L}

theorem exec_cons (h : step s l = some t) (tr : List L) :
    exec step s (l :: tr) = exec step t tr := by
  simp [exec, h]

theorem exec_append (step : S → L → Option S) (s : S) (tr tr' : List L) :
    exec step s (tr ++ tr') = (exec step s tr).bind fun t => exec step t tr' :=
  List.foldlM_append

variable {tr : List L}

theorem exec_concat {s u : S} (h : exec step s tr = some t) (hl : step t l = some u) :
    exec step s (tr ++ [l]) = some u := by
  rw [exec_append, h, Option.bind_some]
  simp [exec, hl]

theorem exec_concat_inv {s u : S} (h : exec step s (tr ++ [l]) = some u) :
    ∃ t, exec step s tr = some t ∧ step t l = some u := by
  rw [exec_append, Option.bind_eq_some_iff] at h
  obtain ⟨t, ht, hl⟩ := h
  exact ⟨t, ht, by simpa [exec] using hl⟩

theorem exec_exists (step : S → L → Option S) (s : S) (tr : List L) (Q : S → Prop)
    [DecidablePred Q] (h : (exec step s tr).any (fun t => decide (Q t)) = true) :
    ∃ t, exec step s tr = some t ∧ Q t := by
  cases ht : exec step s tr with
  | none => simp [ht] at h
  | some t => exact ⟨t, rfl, by simpa [ht] using h⟩

theorem exec_history (I : List L → S → Prop) (h0 : I [] s)
    (hstep : ∀ tr t l u, exec step s tr = some t → I tr t → step t l = some u → I (tr ++ [l]) u)
    (h : exec step s tr = some t) : I tr t := by
  induction tr using List.reverseRecOn generalizing t with
  | nil =>
    cases h
    exact h0
  | append_singleton tr l ih =>
    obtain ⟨v, hv, hl⟩ := exec_concat_inv h
    exact hstep tr v l t hv (ih hv) hl

theorem exec_invariant (I : S → Prop) (h0 : I s)
    (hstep : ∀ t l u, I t → step t l = some u → I u) (h : exec step s tr = some t) : I t :=
  exec_history (fun _ => I) h0 (fun _ t l u _ ht hl => hstep t l u ht hl) h

def outputs {B : Type} (step : S → L → Option S) (f : S → L → S → List B) : S → List L → List B
  | _, [] => []
  | s, l :: tr =>
    match step s l with
    | some t => f s l t ++ outputs step f t tr
    | none => []

theorem outputs_append {B : Type} (f : S → L → S → List B) {tr' : List L}
    (h : exec step s tr = some t) :
    outputs step f s (tr ++ tr') = outputs step f s tr ++ outputs step f t tr' := by
  induction tr generalizing s with
  | nil =>
    cases h
    rfl
  | cons l tr ih =>
    cases hl : step s l with
    | none => simp [exec, hl] at h
    | some u =>
      rw [exec_cons hl] at h
      simp only [List.cons_append, outputs, hl, ih h, List.append_assoc]

theorem outputs_concat {B : Type} (f : S → L → S → List B) {u : S}
    (h : exec step s tr = some t) (hl : step t l = some u) :
    outputs step f s (tr ++ [l]) = outputs step f s tr ++ f t l u := by
  rw [outputs_append f h]
  simp [outputs, hl]

def EveryState (step : S → L → Option S) (s : S) (Q : S → Prop) (tr : List L) : Prop :=
  ∀ tr' t, tr' <+: tr → exec step s tr' = some t → Q t

def EveryStep (step : S → L → Option S) (s : S) (G : S → L → Prop) (tr : List L) : Prop :=
  ∀ tr' l t, tr' ++ [l] <+: tr → exec step s tr' = some t → G t l

theorem exec_prefix {tr' : List L} (h : exec step s tr = some t) (hpre : tr' <+: tr) :
    ∃ u, exec step s tr' = some u := by
  obtain ⟨rest, rfl⟩ := hpre
  rw [exec_append, Option.bind_eq_some_iff] at h
  obtain ⟨u, hu, -⟩ := h
  exact ⟨u, hu⟩

variable {G : S → L → Prop}

theorem everyStep_nil : EveryStep step s G [] := by
  intro tr' l t hpre
  simp at hpre

theorem EveryStep.cons (h : EveryStep step t G tr) (ht : step s l = some t)
    (hl : G s l) : EveryStep step s G (l :: tr) := by
  intro tr' l' u hpre hu
  cases tr' with
  | nil =>
    obtain ⟨rfl, -⟩ := List.cons_prefix_cons.1 hpre
    cases hu
    exact hl
  | cons a tr' =>
    obtain ⟨rfl, hpre'⟩ := List.cons_prefix_cons.1 hpre
    refine h tr' l' u hpre' ?_
    simpa [exec, ht] using hu

def checkSteps (step : S → L → Option S) (g : S → L → Bool) : S → List L → Bool
  | _, [] => true
  | s, l :: tr => g s l && (step s l).all fun t => checkSteps step g t tr

theorem EveryStep.of_check {g : S → L → Bool} (hg : ∀ s l, g s l = true → G s l)
    (h : checkSteps step g s tr = true) : EveryStep step s G tr := by
  induction tr generalizing s with
  | nil => exact everyStep_nil
  | cons l tr ih =>
    rw [checkSteps, Bool.and_eq_true, Option.all_eq_true] at h
    cases ht : step s l with
    | some t => exact .cons (ih (h.2 t ht)) ht (hg s l h.1)
    | none =>
      intro tr' l' u hpre hu
      cases tr' with
      | nil =>
        obtain ⟨rfl, -⟩ := List.cons_prefix_cons.1 hpre
        cases hu
        exact hg s l' h.1
      | cons a tr' =>
        obtain ⟨rfl, -⟩ := List.cons_prefix_cons.1 hpre
        simp [exec, ht] at hu

theorem EveryStep.concat (h : EveryStep step s G tr) (ht : exec step s tr = some t)
    (hl : G t l) : EveryStep step s G (tr ++ [l]) := by
  intro tr' l' u hpre hu
  rcases List.prefix_concat_iff.1 hpre with heq | hpre
  · obtain ⟨rfl, hll⟩ := List.append_inj' heq rfl
    cases hll
    obtain rfl : u = t := Option.some.inj (hu.symm.trans ht)
    exact hl
  · exact h tr' l' u hpre hu

theorem EveryStep.of_prefix {tr' : List L} (h : EveryStep step s G tr) (hpre : tr' <+: tr) :
    EveryStep step s G tr' := fun tr'' l t hp ht => h tr'' l t (hp.trans hpre) ht

theorem exec_guarded_history (I : List L → S → Prop) (h0 : I [] s)
    (hstep : ∀ tr t l u, I tr t → G t l → step t l = some u → I (tr ++ [l]) u)
    (h : exec step s tr = some t) (hG : EveryStep step s G tr) : I tr t := by
  refine exec_history (fun tr t => EveryStep step s G tr → I tr t) (fun _ => h0) ?_ h hG
  intro tr t l u ht ih hl hG
  exact hstep tr t l u (ih (hG.of_prefix (List.prefix_append _ _)))
    (hG tr l t (List.prefix_refl _) ht) hl

theorem exec_guarded (I : S → Prop) (h0 : I s)
    (hstep : ∀ t l u, I t → G t l → step t l = some u → I u) (h : exec step s tr = some t)
    (hG : EveryStep step s G tr) : I t :=
  exec_guarded_history (fun _ => I) h0 (fun _ t l u => hstep t l u) h hG

def restrict (G : S → L → Prop) [∀ s l, Decidable (G s l)] (step : S → L → Option S) (s : S)
    (l : L) : Option S := if G s l then step s l else none

theorem exec_restrict [∀ s l, Decidable (G s l)] (h : exec (restrict G step) s tr = some t) :
    exec step s tr = some t ∧ EveryStep step s G tr := by
  refine exec_history (fun tr t => exec step s tr = some t ∧ EveryStep step s G tr) ?_ ?_ h
  · refine ⟨rfl, fun tr' l t hpre => ?_⟩
    simp at hpre
  rintro tr t l u - ⟨ht, hG⟩ hl
  unfold restrict at hl
  split at hl
  · exact ⟨exec_concat ht hl, hG.concat ht ‹_›⟩
  · cases hl

theorem everyState_iff_everyStep {Q : S → Prop} (h0 : Q s)
    (hstep : ∀ tr t l u, exec step s tr = some t → Q t → step t l = some u → (Q u ↔ G t l)) {v : S}
    (h : exec step s tr = some v) : EveryState step s Q tr ↔ EveryStep step s G tr := by
  constructor
  · intro hQ tr' l t hpre ht
    obtain ⟨u, hu⟩ := exec_prefix h hpre
    obtain ⟨t', ht', hl⟩ := exec_concat_inv hu
    obtain rfl : t' = t := Option.some.inj (ht'.symm.trans ht)
    have hQt := hQ tr' t' ((List.prefix_append _ _).trans hpre) ht
    exact (hstep tr' t' l u ht hQt hl).1 (hQ _ u hpre hu)
  · intro hG tr' t hpre ht
    induction tr' using List.reverseRecOn generalizing t with
    | nil =>
      cases ht
      exact h0
    | append_singleton tr' l ih =>
      obtain ⟨u, hu, hl⟩ := exec_concat_inv ht
      have hQu := ih u ((List.prefix_append _ _).trans hpre) hu
      exact (hstep tr' u l t hu hQu hl).2 (hG tr' l u hpre hu)

variable {P A : Type} [Fintype P] [DecidableEq P] {M : Type}

theorem sum_update [AddCommGroup M] (f : P → A) (g : A → M) (p : P) (a : A) :
    ∑ q, g (update f p a q) = ∑ q, g (f q) - g (f p) + g a := by
  have h1 := Finset.sum_erase_add univ (fun q => g (update f p a q)) (mem_univ p)
  have h2 := Finset.sum_erase_add univ (fun q => g (f q)) (mem_univ p)
  have hrest : ∑ q ∈ Finset.univ.erase p, g (update f p a q) =
      ∑ q ∈ Finset.univ.erase p, g (f q) := by
    apply sum_congr rfl
    intro q hq
    rw [update_of_ne (Finset.ne_of_mem_erase hq)]
  rw [← h1, ← h2, hrest, update_self, add_sub_cancel_right]

theorem sum_update_mem {Q : Type} [AddCommMonoid M] [DecidableEq Q] {s : Finset Q} {p : Q}
    (hp : p ∈ s) (f : Q → A) (g : A → M) (a : A) :
    ∑ q ∈ s, g (update f p a q) + g (f p) = ∑ q ∈ s, g (f q) + g a := by
  rw [← Finset.add_sum_erase s _ hp, ← Finset.add_sum_erase s (fun q => g (f q)) hp]
  have hrest : ∑ q ∈ s.erase p, g (update f p a q) = ∑ q ∈ s.erase p, g (f q) := by
    apply sum_congr rfl
    intro q hq
    rw [update_of_ne (Finset.ne_of_mem_erase hq)]
  rw [hrest, update_self]
  ac_rfl

theorem sum_update_add [AddCommMonoid M] (f : P → A) (g : A → M) (p : P) (a : A) :
    ∑ q, g (update f p a q) + g (f p) = ∑ q, g (f q) + g a :=
  sum_update_mem (mem_univ p) f g a

theorem sum_map_set {A : Type} [AddCommMonoid M] (g : A → M) {l : List A} {p : ℕ} {a : A}
    (h : l[p]? = some a) (b : A) : ((l.set p b).map g).sum + g a = (l.map g).sum + g b := by
  induction l generalizing p with
  | nil => cases h
  | cons x l ih =>
    cases p with
    | zero =>
      cases h
      simp only [List.set_cons_zero, List.map_cons, List.sum_cons]
      ac_rfl
    | succ p =>
      simp only [List.set_cons_succ, List.map_cons, List.sum_cons, add_assoc]
      rw [ih h]

theorem countP_add_count_le (n : ℕ) (f : ℕ → ℕ) (m : Multiset ℕ) :
    (List.range n).countP (fun i => decide (0 < f i + m.count i)) ≤
      (List.range n).countP (fun i => decide (0 < f i)) + m.card := by
  have hnd : (List.range n).Nodup := List.nodup_range
  rw [List.countP_eq_length_filter, List.countP_eq_length_filter,
    ← List.toFinset_card_of_nodup (hnd.filter _), ← List.toFinset_card_of_nodup (hnd.filter _)]
  refine (Finset.card_le_card fun i hi => ?_).trans ((Finset.card_union_le _ m.toFinset).trans
    (Nat.add_le_add_left (Multiset.toFinset_card_le m) _))
  rw [List.mem_toFinset, List.mem_filter, decide_eq_true_iff] at hi
  rw [Finset.mem_union, List.mem_toFinset, List.mem_filter, decide_eq_true_iff,
    Multiset.mem_toFinset, ← Multiset.count_pos]
  by_cases hpos : 0 < f i
  · exact .inl ⟨hi.1, hpos⟩
  · exact .inr (by omega)

end Xv6.Lib
