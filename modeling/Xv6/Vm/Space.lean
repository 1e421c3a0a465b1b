import Xv6.Vm.Copy

/-!
Address spaces: the entries of a directory for a process of a given size,
and what growing, shrinking, copying and guard pages do to them.
-/

namespace Xv6.Vm

open Lib Function
open Multiset (card)

theorem card_userPages {P : ℕ → ℕ} {n : ℕ} (hn : n ≤ KERNPAGE)
    (h : ∀ v < KERNPAGE, Present (P v) ↔ v < n) : card (userPages P) = n := by
  have hone : ∀ v ∈ Finset.range KERNPAGE, card (entryPage (P v)) = if v < n then 1 else 0 := by
    intro v hv
    unfold entryPage
    by_cases hlt : v < n
    · rw [if_pos ((h v (Finset.mem_range.1 hv)).2 hlt), if_pos hlt, Multiset.card_singleton]
    · rw [if_neg (mt (h v (Finset.mem_range.1 hv)).1 hlt), if_neg hlt, Multiset.card_zero]
  have hfilter : {v ∈ Finset.range KERNPAGE | v < n} = Finset.range n := by
    ext v
    rw [Finset.mem_filter, Finset.mem_range, Finset.mem_range]
    omega
  unfold userPages
  rw [Multiset.card_sum, Finset.sum_congr rfl hone, ← Finset.card_filter, hfilter,
    Finset.card_range]

structure Space (U : Prop) (k : Layout) (P : ℕ → ℕ) (sz : ℕ) : Prop where
  le : sz ≤ KERNBASE
  clean : ∀ v < KERNPAGE, Present (P v) ∨ P v = 0
  above : ∀ v < KERNPAGE, sz ≤ v * PGSIZE → P v = 0
  full : U → ∀ v, v * PGSIZE < sz → Present (P v)
  kern : ∀ v, KERNPAGE ≤ v → P v = kernelMap k v

section
variable {U : Prop} {k : Layout} {P P' : ℕ → ℕ} {sz newsz v : ℕ}

theorem lt_KERNPAGE (h : v * PGSIZE < KERNBASE) : v < KERNPAGE := by
  simp only [KERNPAGE, KERNBASE, PGSIZE] at *
  omega

theorem roundUp_le_KERNPAGE (h : sz ≤ KERNBASE) : roundUp sz ≤ KERNPAGE := by
  unfold roundUp
  simp only [KERNPAGE, KERNBASE, PGSIZE] at *
  omega

theorem roundUp_le (h : sz ≤ newsz) : roundUp sz ≤ roundUp newsz :=
  Nat.div_le_div_right (by omega)

namespace Space

theorem lt_KERNPAGE (h : Space U k P sz) (hv : v * PGSIZE < sz) : v < KERNPAGE :=
  Vm.lt_KERNPAGE (hv.trans_le h.le)

theorem present_iff (h : Space True k P sz) (hv : v < KERNPAGE) :
    Present (P v) ↔ v < roundUp sz := by
  refine ⟨fun hp => lt_roundUp.2 ?_, fun hlt => h.full trivial v (lt_roundUp.1 hlt)⟩
  by_contra hge
  rw [h.above v hv (not_lt.1 hge)] at hp
  exact absurd hp Nat.zero_ne_one

theorem card_userPages (h : Space True k P sz) : card (userPages P) = roundUp sz :=
  Vm.card_userPages (roundUp_le_KERNPAGE h.le) fun _ hv => h.present_iff hv

theorem zero (k : Layout) : Space U k (kernelMap k) 0 where
  le := Nat.zero_le _
  clean v hv := .inr (kernelMap_user hv)
  above v hv _ := kernelMap_user hv
  full _ v hv := by omega
  kern _ _ := rfl

theorem round (h : Space U k P sz) : Space U k P (roundUp sz * PGSIZE) where
  le := by
    have := roundUp_le_KERNPAGE h.le
    simp only [KERNPAGE, KERNBASE, PGSIZE] at *
    omega
  clean := h.clean
  above v hv hge := by
    refine h.above v hv ?_
    by_contra hlt
    have := lt_roundUp.2 (show v * PGSIZE < sz by omega)
    simp only [PGSIZE] at *
    omega
  full hU v hv := by
    refine h.full hU v (lt_roundUp.1 ?_)
    simp only [PGSIZE] at *
    omega
  kern := h.kern

theorem grow (h : Space U k P sz) (hP : Grown P P' (roundUp sz) (roundUp newsz))
    (hnew : newsz < KERNBASE) (hle : sz ≤ newsz) : Space U k P' newsz where
  le := hnew.le
  clean v hv := by
    have hx := hP v
    split at hx
    · obtain ⟨f, hf⟩ := hx
      rw [hf]
      exact .inl (present_mkPte _ _)
    · rw [hx]
      exact h.clean v hv
  above v hv hge := by
    have hx := hP v
    rw [if_neg (fun hc => absurd (lt_roundUp.1 hc.2) (by omega))] at hx
    rw [hx, h.above v hv (by omega)]
  full hU v hv := by
    have hx := hP v
    split at hx
    · obtain ⟨f, hf⟩ := hx
      rw [hf]
      exact present_mkPte _ _
    · rename_i hc
      have hlt := lt_roundUp.2 hv
      rw [hx]
      exact h.full hU v (lt_roundUp.1 (by omega))
  kern v hv := by
    have hx := hP v
    have := roundUp_le_KERNPAGE hnew.le
    rw [if_neg (by omega)] at hx
    rw [hx, h.kern v hv]

theorem update {w : ℕ} (h : Space U k P sz) (hv : v * PGSIZE < sz) (hw : Present w) :
    Space U k (update P v w) sz where
  le := h.le
  clean x hx := by
    by_cases hxv : x = v
    · subst hxv
      rw [update_self]
      exact .inl hw
    · rw [update_of_ne hxv]
      exact h.clean x hx
  above x hx hge := by
    rw [update_of_ne (by rintro rfl; omega)]
    exact h.above x hx hge
  full hU x hx := by
    by_cases hxv : x = v
    · subst hxv
      rwa [update_self]
    · rw [update_of_ne hxv]
      exact h.full hU x hx
  kern x hx := by
    have := h.lt_KERNPAGE hv
    rw [update_of_ne (by omega)]
    exact h.kern x hx

end Space

end

variable {U : Prop} {k : Layout} {F : Prop} {M Y : Multiset ℕ} {m0 : Mem} {d sz newsz : ℕ}
  {T : ℕ → Option ℕ} {P : ℕ → ℕ} {C : ℕ → Bytes PGSIZE} (hM : M.Nodup) (hok : ∀ f ∈ M, k.Ok f)

structure Allocated (U : Prop) (k : Layout) (F : Prop) (M : Multiset ℕ) (m₀ : Mem) (d : ℕ)
    (P : ℕ → ℕ) (C : ℕ → Bytes PGSIZE) (Y : Multiset ℕ) (sz newsz : ℕ) (T' : ℕ → Option ℕ)
    (P' : ℕ → ℕ) (r : ℕ) (s : Phys) : Prop where
  space : Space U k P' r
  size : r = max sz newsz
  new : newsz < KERNBASE
  grown : Grown P P' (roundUp sz) (roundUp newsz)
  holds : Holds F M m₀ d T' P' (zeroed C (roundUp sz) (roundUp newsz)) Y s
include hM hok

theorem allocuvm_space (h : Space U k P sz) (newsz : ℕ) :
    Triple (Holds F M m0 d T P C Y) (allocuvm k d sz newsz)
      (fun r s => ∃ T', Extends T T' ∧
        MoreTables T T' (roundUp sz / 1024) (roundUp newsz / 1024) ∧
        if r = 0 then Holds F M m0 d T' P C Y s ∧ (KERNBASE ≤ newsz ∨ newsz = 0 ∨
          Short F M (1026 + card (userPages P) + (roundUp newsz - roundUp sz) + card Y))
        else ∃ P', Allocated U k F M m0 d P C Y sz newsz T' P' r s)
      Never := by
  have hP (hnew : newsz < KERNBASE) (x : ℕ) (hlo : roundUp sz ≤ x) (hhi : x < roundUp newsz) :
      P x = 0 := by
    refine h.above x (lt_KERNPAGE ((lt_roundUp.1 hhi).trans hnew)) ?_
    by_contra hlt
    exact absurd (lt_roundUp.2 (show x * PGSIZE < sz by omega)) (by omega)
  have hnot (hnew : newsz < KERNBASE) (x : ℕ) (hlo : roundUp sz ≤ x) (hhi : x < roundUp newsz) :
      ¬Present (P x) := by
    rw [hP hnew x hlo hhi]
    exact Nat.zero_ne_one
  refine (allocuvm_spec hM hok hnot).post fun r s ⟨T', hext, hT, hend⟩ => ⟨T', hext, hT, ?_⟩
  cases hend with
  | failed P' hback hout hs why =>
    rw [if_pos rfl]
    refine ⟨?_, why.imp_right .inr⟩
    have heq : P' = P := by
      rcases Nat.lt_or_ge newsz KERNBASE with hnew | hge
      · exact hback.eq (fun x hx => hout x (.inr hx)) (hP hnew)
      · exact funext fun x => hout x (.inl hge)
    exact heq ▸ hs
  | smaller hnew hlt hs =>
    have hempty : roundUp newsz ≤ roundUp sz := roundUp_le hlt.le
    have hzero : zeroed C (roundUp sz) (roundUp newsz) = C := funext fun x => if_neg (by omega)
    rw [if_neg (by omega)]
    refine ⟨P, h, by omega, hnew, fun x => ?_, by rwa [hzero]⟩
    rw [if_neg (by omega)]
  | grown hnew hle P' hg hs =>
    split
    · rename_i h0
      subst h0
      have heq : P' = P := by
        funext x
        have hx := hg x
        rwa [if_neg (fun hc => absurd hc.2 (Nat.not_lt_zero x))] at hx
      have hzero : zeroed C (roundUp sz) (roundUp 0) = C :=
        funext fun x => if_neg fun hc => absurd hc.2 (Nat.not_lt_zero x)
      rw [heq, hzero] at hs
      exact ⟨hs, .inr (.inl rfl)⟩
    · exact ⟨P', h.grow hg hnew hle, by omega, hnew, hg, hs⟩

end Xv6.Vm
