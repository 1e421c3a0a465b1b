import Xv6.Lib.Transition
import Xv6.Vm.PageTable

/-!
A page directory as a flat map, and the pages it owns.

What a page directory means is two functions: `T` says where its page
tables are, and `P` gives the entry of every virtual page. The directory
owns its own page, the pages of its tables, and the pages of present
entries below `KERNBASE`. The lemmas here say what single stores to
memory do to `T` and `P`, provided that the pages of the directory are
pairwise distinct.
-/

namespace Xv6.Vm

open Lib Function

def optPage (o : Option ℕ) : Multiset ℕ := o.elim 0 fun t => {t}

def entryPage (w : ℕ) : Multiset ℕ := if Present w then {frame w} else 0

@[irreducible] def tabPages (T : ℕ → Option ℕ) : Multiset ℕ :=
  ∑ i ∈ Finset.range 1024, optPage (T i)

@[irreducible] def userPages (P : ℕ → ℕ) : Multiset ℕ :=
  ∑ v ∈ Finset.range KERNPAGE, entryPage (P v)

def dirPages (d : ℕ) (T : ℕ → Option ℕ) (P : ℕ → ℕ) : Multiset ℕ :=
  d ::ₘ (tabPages T + userPages P)

section
variable {d i j v t f w : ℕ} {T : ℕ → Option ℕ} {P : ℕ → ℕ}

theorem mem_optPage {o : Option ℕ} : t ∈ optPage o ↔ o = some t := by
  cases o with
  | none => simp [optPage]
  | some u => simp [optPage, eq_comm]

theorem mem_entryPage : f ∈ entryPage w ↔ Present w ∧ frame w = f := by
  unfold entryPage
  split
  · simp [*, eq_comm]
  · simp [*]

theorem mem_tabPages : t ∈ tabPages T ↔ ∃ i < 1024, T i = some t := by
  unfold tabPages
  simp only [Multiset.mem_sum, Finset.mem_range, mem_optPage]

theorem mem_userPages : f ∈ userPages P ↔ ∃ v < KERNPAGE, Present (P v) ∧ frame (P v) = f := by
  unfold userPages
  simp only [Multiset.mem_sum, Finset.mem_range, mem_entryPage]

theorem tabPages_update (hi : i < 1024) (o : Option ℕ) :
    tabPages (update T i o) + optPage (T i) = tabPages T + optPage o := by
  unfold tabPages
  exact sum_update_mem (Finset.mem_range.2 hi) T optPage o

theorem userPages_update (hv : v < KERNPAGE) (w : ℕ) :
    userPages (update P v w) + entryPage (P v) = userPages P + entryPage w := by
  unfold userPages
  exact sum_update_mem (Finset.mem_range.2 hv) P entryPage w

theorem userPages_congr {P' : ℕ → ℕ} (h : ∀ v < KERNPAGE, P' v = P v) :
    userPages P' = userPages P := by
  unfold userPages
  exact Finset.sum_congr rfl fun v hv => by rw [h v (Finset.mem_range.1 hv)]

theorem userPages_update_of_le (hv : KERNPAGE ≤ v) (w : ℕ) :
    userPages (update P v w) = userPages P :=
  userPages_congr fun x hx => update_of_ne (by omega) _ _

theorem tabPages_none : tabPages (fun _ => none) = 0 := by
  unfold tabPages
  exact Finset.sum_const_zero

theorem userPages_zero : userPages (fun _ => 0) = 0 := by
  unfold userPages
  exact Finset.sum_const_zero

theorem tabPages_eq_cons (hi : i < 1024) (ht : T i = some t) :
    tabPages T = t ::ₘ tabPages (update T i none) := by
  have h : tabPages (update T i none) + {t} = tabPages T + 0 := by
    have h := tabPages_update (T := T) hi none
    rwa [ht] at h
  rw [← add_zero (tabPages T), ← h, ← Multiset.singleton_add, add_comm]

theorem dirPages_nodup (h : (dirPages d T P).Nodup) :
    d ∉ tabPages T ∧ d ∉ userPages P ∧ (tabPages T).Nodup ∧
      ∀ t, t ∈ tabPages T → t ∉ userPages P := by
  obtain ⟨hd, hsum⟩ := Multiset.nodup_cons.1 h
  obtain ⟨ht, -, hdisj⟩ := Multiset.nodup_add.1 hsum
  rw [Multiset.mem_add, not_or] at hd
  exact ⟨hd.1, hd.2, ht, fun t => Multiset.disjoint_left.1 hdisj⟩

theorem tab_inj (h : (tabPages T).Nodup) (hi : i < 1024) (hj : j < 1024) (hti : T i = some t)
    (htj : T j = some t) : i = j := by
  by_contra hne
  rw [tabPages_eq_cons hi hti] at h
  refine (Multiset.nodup_cons.1 h).1 (mem_tabPages.2 ⟨j, hj, ?_⟩)
  rwa [update_of_ne (.symm hne)]

theorem user_inj (h : (userPages P).Nodup) (hi : i < KERNPAGE) (hj : j < KERNPAGE)
    (hpi : Present (P i)) (hpj : Present (P j)) (heq : frame (P i) = frame (P j)) : i = j := by
  by_contra hne
  have hsum := userPages_update (P := P) hi 0
  rw [entryPage, if_pos hpi, entryPage, if_neg (by decide), add_zero] at hsum
  rw [← hsum] at h
  refine Multiset.disjoint_left.1 (Multiset.nodup_add.1 h).2.2 ?_ (Multiset.mem_singleton_self _)
  refine mem_userPages.2 ⟨j, hj, ?_, ?_⟩
  · rwa [update_of_ne (.symm hne)]
  · rw [update_of_ne (.symm hne), heq]

end

variable {m : Mem} {d i v t f w : ℕ}

theorem present_mkPte (f perm : ℕ) : Present (mkPte f perm) := by
  unfold Present mkPte
  simp only [PGSIZE]
  omega

theorem user_mkPte (f : ℕ) : User (mkPte f (PTE_W + PTE_U)) := by
  unfold User mkPte
  simp only [PGSIZE, PTE_W, PTE_U]
  omega

theorem frame_mkPte {f perm : ℕ} (h : perm < PGSIZE) : frame (mkPte f perm) = f := by
  unfold frame mkPte
  simp only [PGSIZE] at *
  omega

theorem mkPte_lt {f perm : ℕ} (hf : f < 2 ^ 20) (h : perm < PGSIZE) : mkPte f perm < 2 ^ 32 := by
  unfold mkPte
  simp only [PGSIZE] at *
  omega

theorem userPages_map {P : ℕ → ℕ} {perm : ℕ} (hv : v < KERNPAGE) (hP : ¬Present (P v))
    (hperm : perm < PGSIZE) : userPages (update P v (mkPte f perm)) = f ::ₘ userPages P := by
  have h := userPages_update (P := P) hv (mkPte f perm)
  rw [entryPage, if_neg hP, add_zero, entryPage, if_pos (present_mkPte _ _), frame_mkPte hperm] at h
  rw [h, ← Multiset.singleton_add, add_comm]

theorem tab_lt (h : tab m d i = some t) : i < 1024 := by
  by_contra hi
  rw [tab, entry_eq_zero _ (by omega), if_neg (by decide)] at h
  exact absurd h (by simp)

theorem tab_congr {m' : Mem} (h : m' d = m d) : tab m' d = tab m d := by
  funext i
  rw [tab, tab, h]

theorem pte_congr {m' : Mem} (hd : m' d = m d)
    (ht : ∀ i t, tab m d i = some t → m' t = m t) : pte m' d = pte m d := by
  funext v
  rw [pte, pte, tab_congr hd]
  cases h : tab m d (v / 1024) with
  | none => rfl
  | some t =>
    show entry (m' t) _ = entry (m t) _
    rw [ht _ _ h]

theorem tab_of_present (h : Present (pte m d v)) : ∃ t, tab m d (v / 1024) = some t := by
  cases ht : tab m d (v / 1024) with
  | none =>
    rw [pte, ht] at h
    exact absurd h Nat.zero_ne_one
  | some t => exact ⟨t, rfl⟩

theorem pte_of_tab (h : tab m d (v / 1024) = some t) : pte m d v = entry (m t) (v % 1024) := by
  rw [pte, h]

theorem dir_zeros (h : m d = zeros) : tab m d = (fun _ => none) ∧ pte m d = fun _ => 0 := by
  have htab : tab m d = fun _ => none := by
    funext i
    rw [tab, h, entry_zeros]
    exact if_neg Nat.zero_ne_one
  refine ⟨htab, ?_⟩
  funext v
  rw [pte, htab]

theorem dir_update_of_not_mem (b : Bytes PGSIZE) (hd : f ≠ d) (ht : f ∉ tabPages (tab m d)) :
    tab (update m f b) d = tab m d ∧ pte (update m f b) d = pte m d := by
  refine ⟨tab_congr (update_of_ne hd.symm _ _), pte_congr
    (update_of_ne hd.symm _ _) fun i t hi => update_of_ne ?_ _ _⟩
  rintro rfl
  exact ht (mem_tabPages.2 ⟨i, tab_lt hi, hi⟩)

theorem dir_newTable (hi : i < 1024) (hnone : tab m d i = none) (hd : t ≠ d)
    (ht : t ∉ tabPages (tab m d)) (hdt : d ∉ tabPages (tab m d)) (htlt : t < 2 ^ 20) :
    let m' := update (update m t zeros) d
      (setEntry ((update m t zeros) d) i (mkPte t (PTE_W + PTE_U)))
    tab m' d = update (tab m d) i (some t) ∧ pte m' d = pte m d := by
  intro m'
  have hm'd : m' d = setEntry (m d) i (mkPte t (PTE_W + PTE_U)) := by
    show update _ d _ d = _
    rw [update_self, update_of_ne hd.symm]
  have hm'of : ∀ u, u ≠ d → u ≠ t → m' u = m u := fun u h1 h2 =>
    (update_of_ne h1 _ _).trans (update_of_ne h2 _ _)
  have hperm : PTE_W + PTE_U < PGSIZE := by decide
  have htab : tab m' d = update (tab m d) i (some t) := by
    funext j
    rw [tab, hm'd]
    by_cases hj : j = i
    · subst hj
      rw [entry_setEntry _ hi (mkPte_lt htlt hperm), if_pos (present_mkPte _ _),
        frame_mkPte hperm, update_self]
    · rw [entry_setEntry_of_ne _ _ hj, update_of_ne hj, tab]
  refine ⟨htab, ?_⟩
  funext v
  rw [pte, htab, pte]
  by_cases hv : v / 1024 = i
  · rw [hv, update_self, hnone]
    show entry (m' t) _ = 0
    rw [show m' t = zeros from (update_of_ne hd _ _).trans (update_self ..), entry_zeros]
  rw [update_of_ne hv]
  cases hu : tab m d (v / 1024) with
  | none => rfl
  | some u =>
    have hmem : u ∈ tabPages (tab m d) := mem_tabPages.2 ⟨_, tab_lt hu, hu⟩
    have hud : u ≠ d := fun h => hdt (by rwa [h] at hmem)
    have hut : u ≠ t := fun h => ht (by rwa [h] at hmem)
    show entry (m' u) _ = entry (m u) _
    rw [hm'of u hud hut]

theorem dir_setPte (htv : tab m d (v / 1024) = some t) (hnd : (tabPages (tab m d)).Nodup)
    (hd : d ∉ tabPages (tab m d)) (hw : w < 2 ^ 32) :
    let m' := update m t (setEntry (m t) (v % 1024) w)
    tab m' d = tab m d ∧ pte m' d = update (pte m d) v w := by
  intro m'
  have htd : t ≠ d := by
    rintro rfl
    exact hd (mem_tabPages.2 ⟨_, tab_lt htv, htv⟩)
  have htab : tab m' d = tab m d := tab_congr (update_of_ne htd.symm _ _)
  have hself : m' t = setEntry (m t) (v % 1024) w := update_self ..
  refine ⟨htab, ?_⟩
  funext x
  rw [pte, htab]
  by_cases hxv : x = v
  · subst hxv
    rw [htv, update_self]
    show entry (m' t) _ = w
    rw [hself, entry_setEntry _ (Nat.mod_lt _ (by omega)) hw]
  rw [update_of_ne hxv, pte]
  cases hu : tab m d (x / 1024) with
  | none => rfl
  | some u =>
    show entry (m' u) _ = entry (m u) _
    by_cases hut : u = t
    · subst hut
      have hblock := tab_inj hnd (tab_lt hu) (tab_lt htv) hu htv
      rw [hself, entry_setEntry_of_ne _ _ (by omega)]
    · rw [show m' u = m u from update_of_ne hut _ _]

end Xv6.Vm
