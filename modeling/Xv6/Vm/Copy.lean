import Xv6.Vm.Grow

/-!
Specification of `copyuvm`. The directory that is copied belongs to another
process, so its pages are not in the stock, and stay as they were.
-/

namespace Xv6.Vm

open Lib Function
open Multiset (card card_cons)

structure Apart (M : Multiset ℕ) (m₀ : Mem) (d₀ : ℕ) : Prop where
  dir : d₀ ∉ M
  tabs : ∀ i t, tab m₀ d₀ i = some t → t ∉ M

theorem Work.apart {F : Prop} {M X : Multiset ℕ} {m0 : Mem} {s : Phys} {d0 : ℕ}
    (h : Work F M m0 X s)
    (ha : Apart M m0 d0) : tab s.mem d0 = tab m0 d0 ∧ pte s.mem d0 = pte m0 d0 :=
  ⟨tab_congr (h.rest d0 ha.dir),
    pte_congr (h.rest d0 ha.dir) fun i t ht => h.rest t (ha.tabs i t ht)⟩

def content (m : Mem) (d v : ℕ) : Bytes PGSIZE := m (frame (pte m d v))

def Copied (P₀ K P' : ℕ → ℕ) (v : ℕ) : Prop :=
  ∀ x, if x < v then ∃ f, P' x = mkPte f (flags (P₀ x)) else P' x = K x

theorem Copied.zero (P0 K : ℕ → ℕ) : Copied P0 K K 0 := by
  intro x
  rw [if_neg (by omega)]

theorem Copied.step {P0 K P' : ℕ → ℕ} {v f : ℕ} (h : Copied P0 K P' v) :
    Copied P0 K (update P' v (mkPte f (flags (P0 v)))) (v + 1) := by
  intro x
  have hx := h x
  by_cases hxv : x = v
  · subst hxv
    rw [if_pos (by omega)]
    exact ⟨f, update_self ..⟩
  rw [update_of_ne hxv]
  by_cases hlt : x < v
  · rw [if_pos hlt] at hx
    rw [if_pos (by omega)]
    exact hx
  · rw [if_neg hlt] at hx
    rw [if_neg (by omega)]
    exact hx

variable {k : Layout} {F : Prop} {M Y : Multiset ℕ} {m0 : Mem} {d d0 v : ℕ} {T : ℕ → Option ℕ}
  {P : ℕ → ℕ} (hM : M.Nodup) (hok : ∀ f ∈ M, k.Ok f)
include hM hok

theorem copyPage_spec {P0 : ℕ → ℕ} {C : ℕ → Bytes PGSIZE} {next : Op (Option ℕ)}
    {Q : Option ℕ → Phys → Prop} {E : Panic → Phys → Prop} (hv : v < KERNPAGE)
    (hnot : ¬Present (P v)) (hsrc : frame (P0 v) ∉ M) (hC : C v = m0 (frame (P0 v)))
    (hnone : ∀ s, Work F M m0 Y s → Short F M (1026 + card (userPages P) + card Y) → Q none s)
    (hnext : ∀ T' f, Triple
      (Holds F M m0 d T' (update P v (mkPte f (flags (P0 v)))) C Y) next Q E) :
    Triple (Holds F M m0 d T P C Y)
      (do
        match ← kalloc k with
        | none => do
            freevm k d
            pure none
        | some f => do
            .modify fun s => s.setPage f (s.mem (frame (P0 v)))
            if ← mappages k d (v * PGSIZE) PGSIZE f (flags (P0 v)) then next
            else do
              kfree k f
              freevm k d
              pure none)
      Q E := by
  have hflags : flags (P0 v) < PGSIZE := Nat.mod_lt _ (by decide)
  have hbad {T' : ℕ → Option ℕ} (hshort : Short F M (1026 + card (userPages P) + card Y)) :
      Triple (Holds F M m0 d T' P C Y) (do
        freevm k d
        pure none) Q E :=
    .bind (((freevm_spec hM hok).panics E).pre fun _ hs => hs.toHas) fun _ =>
      .pure fun s hs => hnone s hs hshort
  refine .bind ((Holds.kalloc hM hok).panics E) fun r => ?_
  cases r with
  | none => exact .of_and fun hfull => hbad ((short_of_eq hfull).mono (by omega))
  | some f =>
    refine .of_and fun hfM => .bind
      (Holds.write hM (Multiset.mem_cons_self f Y) (fun s => s.mem (frame (P0 v)))
        (fun s hs => (hs.work.rest _ hsrc).trans hC.symm) _) fun _ =>
      Prog.Triple.bind ((mappages_user hM hok hv hnot hfM hflags).panics E) fun r =>
      .of_exists fun T' => .of_and fun _ => .of_and fun _ => ?_
    cases r with
    | true =>
      rw [update_eq_self]
      exact hnext T' f
    | false =>
      refine .of_state fun s1 ⟨hs1, hshort⟩ =>
        .pre (P := Holds F M m0 d T' P C (f ::ₘ Y)) ?_ fun _ heq => heq ▸ hs1
      exact .bind ((Holds.kfree hM hok hfM).panics E) fun _ => hbad hshort

theorem copyLoop_spec {sz turns : ℕ} (hsz : sz ≤ KERNBASE) (ha : Apart M m0 d0)
    (hsrc : ∀ x < roundUp sz, Present (pte m0 d0 x) → frame (pte m0 d0 x) ∉ M)
    (hhi : v ≤ roundUp sz) (hturns : roundUp sz ≤ v + turns)
    (hP : Copied (pte m0 d0) (kernelMap k) P v) (hcard : card (userPages P) = v) :
    Triple (Holds F M m0 d T P (content m0 d0) Y) (copyLoop k d0 d sz turns v)
      (fun r s =>
        match r with
        | none => Work F M m0 Y s ∧ Short F M (1026 + roundUp sz + card Y)
        | some d => ∃ T' P', Copied (pte m0 d0) (kernelMap k) P' (roundUp sz) ∧
            Holds F M m0 d T' P' (content m0 d0) Y s)
      fun e _ => e = .copyuvm ∧ ∃ x < roundUp sz, ¬Present (pte m0 d0 x) := by
  have hkern : roundUp sz ≤ KERNPAGE := by
    unfold roundUp
    simp only [KERNPAGE, KERNBASE, PGSIZE] at *
    omega
  induction turns generalizing v T P with
  | zero =>
    obtain rfl : v = roundUp sz := by omega
    exact .pure fun s hs => ⟨T, P, hP, hs⟩
  | succ turns ih =>
    unfold copyLoop
    refine .ite (fun hlt => ?_) fun hge => ?_
    · have hlt := lt_roundUp.2 hlt
      refine .bind (walkpgdir_look _ _) fun o => ?_
      cases o with
      | none =>
        refine .panic fun s ⟨ho, hs⟩ => ⟨rfl, v, hlt, fun hp => ?_⟩
        obtain ⟨t, ht⟩ := tab_of_present hp
        rw [(hs.work.apart ha).1, ht] at ho
        exact absurd ho (Option.some_ne_none t)
      | some t =>
        refine .bind (R := fun w (s : Phys) => pte m0 d0 v = w ∧
          Holds F M m0 d T P (content m0 d0) Y s) (.read fun s ⟨ho, hs⟩ => ⟨?_, hs⟩) fun w =>
          .of_and ?_
        · rw [← (hs.work.apart ha).2, pte_of_tab ho]
        rintro rfl
        refine .ite (fun hp => ?_) fun hp => ?_
        · have hnot : ¬Present (P v) := by
            have hx := hP v
            rw [if_neg (by omega), kernelMap_user (by omega)] at hx
            rw [hx]
            exact Nat.zero_ne_one
          have hflags : flags (pte m0 d0 v) < PGSIZE := Nat.mod_lt _ (by decide)
          refine copyPage_spec hM hok (by omega) hnot (hsrc v hlt hp) rfl
            (fun _ hs hshort => ⟨hs, hshort.mono (by omega)⟩)
            fun T' f => ih (by omega) (by omega) hP.step ?_
          rw [userPages_map (by omega) hnot hflags, card_cons, hcard]
        · exact .panic fun s hs => ⟨rfl, v, hlt, hp⟩
    · have hge : ¬v < roundUp sz := fun h => hge (lt_roundUp.1 h)
      obtain rfl : v = roundUp sz := by omega
      exact .pure fun s hs => ⟨T, P, hP, hs⟩

theorem copyuvm_spec {sz : ℕ} (hsz : sz ≤ KERNBASE) (ha : Apart M m0 d0)
    (hsrc : ∀ x < roundUp sz, Present (pte m0 d0 x) → frame (pte m0 d0 x) ∉ M) :
    Triple (Work F M m0 Y) (copyuvm k d0 sz)
      (fun r s =>
        match r with
        | none => Work F M m0 Y s ∧ Short F M (1026 + roundUp sz + card Y)
        | some d => ∃ T P, Copied (pte m0 d0) (kernelMap k) P (roundUp sz) ∧
            Holds F M m0 d T P (content m0 d0) Y s)
      fun e _ => e = .copyuvm ∧ ∃ x < roundUp sz, ¬Present (pte m0 d0 x) := by
  have hturns : roundUp sz ≤ 0 + (sz / PGSIZE + 1) := by
    unfold roundUp
    simp only [PGSIZE]
    omega
  unfold copyuvm
  refine .bind ((setupkvm_spec hM hok).err fun _ _ h => h.elim) fun r => ?_
  cases r with
  | none => exact .pure fun s hs => ⟨hs.1, hs.2.mono (by omega)⟩
  | some d =>
    refine .of_exists fun T => .of_and fun _ => ?_
    have hcard : card (userPages (kernelMap k)) = 0 := by
      rw [userPages_kernelMap, Multiset.card_zero]
    exact (copyLoop_spec hM hok hsz ha hsrc (Nat.zero_le _) hturns (.zero _ _) hcard).pre
      fun s hs => hs.holds_kernel _

end Xv6.Vm
