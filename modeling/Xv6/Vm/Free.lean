import Xv6.Vm.Map

namespace Xv6.Vm

open Lib Function
open Multiset (add_cons map_coe mem_cons_self singleton_add sum_coe)

def unmap (P : ℕ → ℕ) (lo hi x : ℕ) : ℕ :=
  if lo ≤ x ∧ x < hi ∧ Present (P x) then 0 else P x

section
variable {P : ℕ → ℕ} {v hi : ℕ}

theorem unmap_skip {v' : ℕ} (hv : v ≤ v') (h : ∀ x, v ≤ x → x < v' → ¬Present (P x)) :
    unmap P v' hi = unmap P v hi := by
  funext x
  unfold unmap
  by_cases hx : v ≤ x ∧ x < v'
  · have := h x hx.1 hx.2
    rw [if_neg (by omega), if_neg (fun hc => this hc.2.2)]
  by_cases hp : Present (P x)
  · have : (v' ≤ x ∧ x < hi ∧ Present (P x)) ↔ (v ≤ x ∧ x < hi ∧ Present (P x)) := by
      simp only [hp, and_true]
      omega
    simp only [this]
  · rw [if_neg (fun hc => hp hc.2.2), if_neg (fun hc => hp hc.2.2)]

theorem unmap_clear (hv : v < hi) (hp : Present (P v)) :
    unmap (update P v 0) (v + 1) hi = unmap P v hi := by
  funext x
  unfold unmap
  by_cases hx : x = v
  · subst hx
    rw [if_neg (by omega), update_self, if_pos ⟨le_rfl, hv, hp⟩]
  rw [update_of_ne hx]
  by_cases hpx : Present (P x)
  · have : (v + 1 ≤ x ∧ x < hi ∧ Present (P x)) ↔ (v ≤ x ∧ x < hi ∧ Present (P x)) := by
      simp only [hpx, and_true]
      omega
    simp only [this]
  · rw [if_neg (fun hc => hpx hc.2.2), if_neg (fun hc => hpx hc.2.2)]

theorem unmap_of_le (h : hi ≤ v) : unmap P v hi = P := by
  funext x
  rw [unmap, if_neg (by omega)]

theorem userPages_unmap : userPages (unmap P 0 KERNPAGE) = 0 := by
  refine Multiset.eq_zero_of_forall_notMem fun f hf => ?_
  obtain ⟨v, hv, hp, -⟩ := mem_userPages.1 hf
  unfold unmap at hp
  split at hp
  · exact absurd hp Nat.zero_ne_one
  · rename_i h
    exact h ⟨Nat.zero_le v, hv, hp⟩

end

theorem tabPages_eq_sum (T : ℕ → Option ℕ) :
    tabPages T = ((List.range 1024).map fun i => optPage (T i)).sum := by
  unfold tabPages
  rw [Finset.sum, Finset.range_val, ← Multiset.coe_range, map_coe, sum_coe]

theorem lt_roundUp {v sz : ℕ} : v < roundUp sz ↔ v * PGSIZE < sz := by
  unfold roundUp
  simp only [PGSIZE]
  omega

theorem walkpgdir_look {k : Layout} {d v : ℕ} (R : Phys → Prop) (E : Panic → Phys → Prop) :
    Triple R (walkpgdir k d v false) (fun o s => tab s.mem d (v / 1024) = o ∧ R s) E := by
  unfold walkpgdir
  refine .bind (R := fun o (s : Phys) => tab s.mem d (v / 1024) = o ∧ R s)
    (.read fun s hs => ⟨rfl, hs⟩) fun o => ?_
  cases o with
  | some t => exact .pure fun _ hs => hs
  | none =>
    rw [if_neg (by decide)]
    exact .pure fun _ hs => hs

section
variable {k : Layout} {F : Prop} {M Y : Multiset ℕ} {m0 : Mem} {d v : ℕ} {T : ℕ → Option ℕ}
  {P : ℕ → ℕ}

theorem Has.load {t : ℕ} (ht : T (v / 1024) = some t) (E : Panic → Phys → Prop) :
    Triple (Has F M m0 d T P Y) (.read fun s => entry (s.mem t) (v % 1024) : Op ℕ)
      (fun w s => P v = w ∧ Has F M m0 d T P Y s) E := by
  refine .read fun s hs => ⟨?_, hs⟩
  have htm : Vm.tab s.mem d (v / 1024) = some t := by rw [hs.tab, ht]
  rw [← hs.pte, pte_of_tab htm]

theorem Has.not_present {s : Phys} (h : Has F M m0 d T P Y s) (hT : T (v / 1024) = none) :
    P v = 0 := by
  have htm : Vm.tab s.mem d (v / 1024) = none := by rw [h.tab, hT]
  rw [← h.pte, Vm.pte, htm]

end

structure Holds (F : Prop) (M : Multiset ℕ) (m₀ : Mem) (d : ℕ) (T : ℕ → Option ℕ) (P : ℕ → ℕ)
    (C : ℕ → Bytes PGSIZE) (Y : Multiset ℕ) (s : Phys) : Prop extends Has F M m₀ d T P Y s where
  data : ∀ v < KERNPAGE, Present (P v) → s.mem (frame (P v)) = C v

section
variable {k : Layout} {F : Prop} {M Y Y' : Multiset ℕ} {m0 : Mem} {d f v : ℕ}
  {T T' : ℕ → Option ℕ} {P : ℕ → ℕ} {C C' : ℕ → Bytes PGSIZE} {s s' : Phys}

theorem Has.holds (h : Has F M m0 d T P Y s) :
    Holds F M m0 d T P (fun v => s.mem (frame (P v))) Y s := ⟨h, fun _ _ _ => rfl⟩

theorem Has.lift {α : Type} {x : Op α} {Q : α → Phys → Prop} {E : Panic → Phys → Prop}
    (h : ∀ C, Triple (Holds F M m0 d T P C Y) x Q E) :
    Triple (Has F M m0 d T P Y) x Q E := ⟨fun s hs => (h _).ends s hs.holds⟩

theorem mem_rest_user (hv : v < KERNPAGE) (hp : Present (P v)) : frame (P v) ∈ userPages P + Y :=
  Multiset.mem_add.2 (.inl (mem_userPages.2 ⟨v, hv, hp, rfl⟩))

theorem Holds.agree (h : Holds F M m0 d T P C Y s) (h' : Has F M m0 d T' P Y' s')
    (hm : Agree (userPages P + Y) s.mem s') : Holds F M m0 d T' P C Y' s' :=
  ⟨h', fun v hv hp => (hm _ (mem_rest_user hv hp)).trans (h.data v hv hp)⟩

theorem Holds.congr (h : Holds F M m0 d T P C Y s)
    (hC : ∀ v < KERNPAGE, Present (P v) → C' v = C v) : Holds F M m0 d T P C' Y s :=
  ⟨h.toHas, fun v hv hp => (h.data v hv hp).trans (hC v hv hp).symm⟩

theorem Has.user_nodup (h : Has F M m0 d T P Y s) (hM : M.Nodup) : (userPages P).Nodup :=
  (Multiset.nodup_add.1 (Multiset.nodup_cons.1 (h.nodup hM)).2).2.1

theorem Holds.look (E : Panic → Phys → Prop) :
    Triple (Holds F M m0 d T P C Y) (walkpgdir k d v false)
      (fun o s => T (v / 1024) = o ∧ Holds F M m0 d T P C Y s) E :=
  (walkpgdir_look (Holds F M m0 d T P C Y) E).post fun _ _ hs => ⟨by rw [← hs.2.tab, hs.1], hs.2⟩

theorem Holds.load {t : ℕ} (ht : T (v / 1024) = some t) (E : Panic → Phys → Prop) :
    Triple (Holds F M m0 d T P C Y) (.read fun s => entry (s.mem t) (v % 1024) : Op ℕ)
      (fun w s => P v = w ∧ Holds F M m0 d T P C Y s) E := by
  refine .read fun s hs => ⟨?_, hs⟩
  have htm : Vm.tab s.mem d (v / 1024) = some t := by rw [hs.tab, ht]
  rw [← hs.pte, pte_of_tab htm]

end

section
variable {k : Layout} {F : Prop} {M Y : Multiset ℕ} {m0 : Mem} {d f : ℕ} {T : ℕ → Option ℕ}
  {P : ℕ → ℕ} {C : ℕ → Bytes PGSIZE} (hM : M.Nodup) (hok : ∀ f ∈ M, k.Ok f)
include hM

theorem Has.write (hf : f ∈ Y) (g : Phys → Bytes PGSIZE) (E : Panic → Phys → Prop) :
    Triple (Has F M m0 d T P Y) (.modify fun s => s.setPage f (g s) : Op Unit)
      (fun _ => Has F M m0 d T P Y) E :=
  .modify fun s hs => hs.setPage hM (g s) (.inr hf)
include hok

theorem Holds.kalloc :
    Triple (Holds F M m0 d T P C Y) (kalloc k)
      (fun r s =>
        match r with
        | none => (F ∨ dirPages d T P + Y = M) ∧ Holds F M m0 d T P C Y s
        | some f => f ∈ M ∧ Holds F M m0 d T P C (f ::ₘ Y) s)
      Never := by
  refine .of_state fun s hs => ?_
  have hstart : ∀ s', s' = s → Work F M m0 (dirPages d T P + Y) s' ∧ s'.mem = s.mem := by
    rintro _ rfl
    exact ⟨hs.work, rfl⟩
  refine ((kalloc_spec hM hok s.mem).pre hstart).post fun r s1 ⟨hm, h⟩ => ?_
  have htab : Vm.tab s1.mem d = T := by rw [hm, hs.tab]
  have hpte : Vm.pte s1.mem d = P := by rw [hm, hs.pte]
  have hagree : Agree (userPages P + Y) s.mem s1 := fun f _ => by rw [hm]
  cases r with
  | none => exact ⟨h.2, hs.agree ⟨h.1, htab, hpte⟩ hagree⟩
  | some f => exact ⟨h.2.2, hs.agree ⟨h.1.of_eq (by rw [add_cons]), htab, hpte⟩ hagree⟩

theorem Has.kalloc :
    Triple (Has F M m0 d T P Y) (kalloc k)
      (fun r s =>
        match r with
        | none => (F ∨ dirPages d T P + Y = M) ∧ Has F M m0 d T P Y s
        | some f => f ∈ M ∧ Has F M m0 d T P (f ::ₘ Y) s)
      Never := by
  refine Has.lift fun C => (Holds.kalloc hM hok).post fun r s hs => ?_
  cases r with
  | none => exact ⟨hs.1, hs.2.toHas⟩
  | some f => exact ⟨hs.1, hs.2.toHas⟩

theorem Holds.kfree (hfM : f ∈ M) :
    Triple (Holds F M m0 d T P C (f ::ₘ Y)) (kfree k f) (fun _ => Holds F M m0 d T P C Y)
      Never := by
  refine .of_state fun s hs => ?_
  have hnd := (Multiset.nodup_add.1 (hs.work.nodup hM)).2.2
  have hdir : ∀ g ∈ dirPages d T P, g ≠ f := by
    rintro g hg rfl
    exact Multiset.disjoint_left.1 hnd hg (mem_cons_self ..)
  have hstart : ∀ s', s' = s → Work F M m0 (f ::ₘ (dirPages d T P + Y)) s' ∧ s'.mem = s.mem := by
    rintro _ rfl
    exact ⟨hs.work.of_eq (by rw [add_cons]), rfl⟩
  refine ((kfree_spec hM hok hfM s.mem).pre hstart).post fun r s1 ⟨h, hm⟩ => ?_
  have hd : s1.mem d = s.mem d := hm d (hdir d mem_dirPages_self)
  refine ⟨⟨h, (tab_congr hd).trans hs.tab, (pte_congr hd fun i t ht => hm t ?_).trans hs.pte⟩,
    fun v hv hp => ?_⟩
  · refine hdir t (mem_dirPages_tab (Vm.tab_lt ht) ?_)
    rw [← hs.tab, ht]
  · rw [hm _ (hdir _ (mem_dirPages_user hv hp))]
    exact hs.data v hv hp

theorem Has.kfree (hfM : f ∈ M) :
    Triple (Has F M m0 d T P (f ::ₘ Y)) (kfree k f) (fun _ => Has F M m0 d T P Y)
      Never :=
  Has.lift fun _ => (Holds.kfree hM hok hfM).post fun _ _ h => h.toHas

end

variable {k : Layout} {F : Prop} {M Y : Multiset ℕ} {m0 : Mem} {d v : ℕ} {T : ℕ → Option ℕ}
  {P : ℕ → ℕ} {C : ℕ → Bytes PGSIZE} (hM : M.Nodup) (hok : ∀ f ∈ M, k.Ok f)
include hM hok

theorem freePage_spec {t : ℕ} (hv : v < KERNPAGE) (ht : T (v / 1024) = some t)
    (hp : Present (P v)) :
    Triple (Holds F M m0 d T P C Y) (freePage k t v (P v))
      (fun _ => Holds F M m0 d T (update P v 0) C Y) Never := by
  refine .of_state fun s hs => ?_
  have huser : frame (P v) ∈ userPages P := mem_userPages.2 ⟨v, hv, hp, rfl⟩
  have hsplit : dirPages d T P + Y = frame (P v) ::ₘ (dirPages d T (update P v 0) + Y) := by
    have h := userPages_update (P := P) hv 0
    rw [entryPage, if_pos hp, entryPage, if_neg (by decide), add_zero] at h
    rw [dirPages, dirPages, ← h, ← singleton_add, ← singleton_add, ← singleton_add]
    ac_rfl
  obtain ⟨hd, hdu, hnd, htu⟩ := dirPages_nodup (hs.nodup hM)
  have hmem := hs.mem_dir (mem_dirPages_user hv hp)
  have hstart : ∀ s', s' = s → Work F M m0
      (frame (P v) ::ₘ (dirPages d T (update P v 0) + Y)) s' ∧ s'.mem = s.mem := by
    rintro _ rfl
    exact ⟨hs.work.of_eq hsplit, rfl⟩
  refine .bind ((kfree_spec hM hok hmem s.mem).pre hstart) fun _ =>
    .modify fun s1 hs1 => ?_
  obtain ⟨hwork, hsame⟩ := hs1
  have hd1 : s1.mem d = s.mem d := hsame d fun h => hdu (h ▸ huser)
  have ht1 : ∀ i u, tab s.mem d i = some u → s1.mem u = s.mem u := by
    intro i u hu
    refine hsame u fun h => htu u (mem_tabPages.2 ⟨i, tab_lt hu, ?_⟩) (h ▸ huser)
    rw [← hs.tab, hu]
  have htab : tab s1.mem d = T := (tab_congr hd1).trans hs.tab
  have hpte : pte s1.mem d = P := (pte_congr hd1 ht1).trans hs.pte
  have htm : tab s1.mem d (v / 1024) = some t := by rw [htab, ht]
  rw [← htab] at hd hnd
  obtain ⟨h1, h2⟩ := dir_setPte (w := 0) htm hnd hd (by omega)
  have htX : t ∈ dirPages d T (update P v 0) + Y :=
    Multiset.mem_add.2 (.inl (mem_dirPages_tab (hs.tab_lt ht) ht))
  refine ⟨⟨hwork.setPage hM htX _, h1.trans htab, by rw [← hpte]; exact h2⟩, fun x hx hpx => ?_⟩
  have hxv : x ≠ v := by
    rintro rfl
    rw [update_self] at hpx
    exact absurd hpx Nat.zero_ne_one
  rw [update_of_ne hxv] at hpx ⊢
  have hxt : frame (P x) ≠ t := fun h =>
    hs.tab_not_mem hM ht (h ▸ mem_rest_user hx hpx)
  have hxf : frame (P x) ≠ frame (P v) := fun h =>
    hxv (user_inj (hs.user_nodup hM) hx hv hpx hp h)
  rw [s1.setPage_of_ne _ hxt, hsame _ hxf]
  exact hs.data x hx hpx

theorem deallocLoop_spec {oldsz turns : ℕ} (hold : oldsz ≤ KERNBASE)
    (hturns : roundUp oldsz ≤ v + turns) :
    Triple (Holds F M m0 d T P C Y) (deallocLoop k d oldsz turns v)
      (fun _ => Holds F M m0 d T (unmap P v (roundUp oldsz)) C Y) Never := by
  induction turns generalizing v P with
  | zero =>
    rw [unmap_of_le (by omega)]
    exact .pure fun _ hs => hs
  | succ turns ih =>
    have hkern : roundUp oldsz ≤ KERNPAGE := by
      unfold roundUp
      simp only [KERNPAGE, KERNBASE, PGSIZE] at *
      omega
    unfold deallocLoop
    refine .ite (fun hlt => ?_) fun hge => ?_
    · have hv : v < roundUp oldsz := lt_roundUp.2 hlt
      refine .bind (Holds.look _) fun o => .of_and fun hT => ?_
      cases o with
      | none =>
        refine .of_state fun s hs => ?_
        have hskip : ∀ x, v ≤ x → x < (v / 1024 + 1) * 1024 → ¬Present (P x) := by
          intro x h1 h2 hp
          rw [hs.not_present (show T (x / 1024) = none by
            rw [show x / 1024 = v / 1024 by omega, hT])] at hp
          exact absurd hp Nat.zero_ne_one
        rw [← unmap_skip (show v ≤ (v / 1024 + 1) * 1024 by omega) hskip]
        refine (ih (by omega)).pre ?_
        rintro _ rfl
        exact hs
      | some t =>
        refine .bind (Holds.load hT _) fun w => .of_and fun hw => ?_
        subst hw
        refine .ite (fun hp => ?_) fun hp => ?_
        · refine .ite (fun h0 => ⟨fun s hs => ?_⟩) fun _ => ?_
          · have := (hok _ (hs.mem_dir (mem_dirPages_user (by omega) hp))).1
            have := k.data_gt
            have := k.data_lt
            omega
          · refine .bind (freePage_spec hM hok (by omega) hT hp) fun _ => ?_
            rw [← unmap_clear hv hp]
            exact ih (by omega)
        · rw [← unmap_skip (show v ≤ v + 1 by omega) fun x h1 h2 => by
            rwa [show x = v by omega]]
          exact ih (by omega)
    · have hv : ¬v < roundUp oldsz := fun h => hge (lt_roundUp.1 h)
      rw [unmap_of_le (by omega)]
      exact .pure fun _ hs => hs

theorem deallocuvm_holds {oldsz newsz : ℕ} (hold : oldsz ≤ KERNBASE) (hlt : newsz < oldsz) :
    Triple (Holds F M m0 d T P C Y) (deallocuvm k d oldsz newsz)
      (fun r s => r = newsz ∧ Holds F M m0 d T (unmap P (roundUp newsz) (roundUp oldsz)) C Y s)
      Never := by
  have hturns : roundUp oldsz ≤ roundUp newsz + (oldsz / PGSIZE + 1) := by
    unfold roundUp
    simp only [PGSIZE]
    omega
  unfold deallocuvm
  rw [if_neg (by omega)]
  exact .bind (deallocLoop_spec hM hok hold hturns) fun _ =>
    .pure fun _ hs => ⟨rfl, hs⟩

theorem deallocuvm_spec {oldsz newsz : ℕ} (hold : oldsz ≤ KERNBASE) (hlt : newsz < oldsz) :
    Triple (Has F M m0 d T P Y) (deallocuvm k d oldsz newsz)
      (fun r s => r = newsz ∧ Has F M m0 d T (unmap P (roundUp newsz) (roundUp oldsz)) Y s)
      Never :=
  Has.lift fun _ => (deallocuvm_holds hM hok hold hlt).post fun _ _ h => ⟨h.1, h.2.toHas⟩

theorem freeTables_spec (l : List ℕ) :
    Triple
      (fun s => Work F M m0 (d ::ₘ ((l.map fun i => optPage (T i)).sum + Y)) s ∧
        tab s.mem d = T)
      (freeTables k d l) (fun _ s => Work F M m0 (d ::ₘ Y) s) Never := by
  induction l with
  | nil => exact .pure fun s hs => hs.1.of_eq (by rw [List.map_nil, List.sum_nil, zero_add])
  | cons i rest ih =>
    unfold freeTables
    refine .of_state fun s ⟨hwork, htab⟩ => ?_
    refine .bind (R := fun o (s' : Phys) => T i = o ∧ s' = s)
      (.read fun s' hs' => ⟨by rw [hs', htab], hs'⟩) fun o => .of_and fun hT => ?_
    cases o with
    | none =>
      refine ih.pre ?_
      rintro _ rfl
      refine ⟨hwork.of_eq ?_, htab⟩
      rw [List.map_cons, List.sum_cons, hT, optPage, Option.elim_none, zero_add]
    | some t =>
      have hsplit : d ::ₘ (((i :: rest).map fun i => optPage (T i)).sum + Y) =
          t ::ₘ (d ::ₘ ((rest.map fun i => optPage (T i)).sum + Y)) := by
        rw [List.map_cons, List.sum_cons, hT, optPage, Option.elim_some, add_assoc,
          singleton_add, Multiset.cons_swap]
      have hwork' := hwork.of_eq hsplit
      have htd : d ≠ t := by
        rintro rfl
        exact (Multiset.nodup_cons.1 (hwork'.nodup hM)).1 (mem_cons_self ..)
      have hstart : ∀ s', s' = s → Work F M m0
          (t ::ₘ (d ::ₘ ((rest.map fun i => optPage (T i)).sum + Y))) s' ∧ s'.mem = s.mem := by
        rintro _ rfl
        exact ⟨hwork', rfl⟩
      have htM := hwork'.mem (mem_cons_self t _)
      refine .bind ((kfree_spec hM hok htM s.mem).pre hstart) fun _ =>
        ih.pre fun s1 hs1 => ⟨hs1.1, ?_⟩
      rw [tab_congr (hs1.2 d htd), htab]

theorem freevm_spec : Triple (Has F M m0 d T P Y) (freevm k d) (fun _ => Work F M m0 Y) Never := by
  have hsum := tabPages_eq_sum T
  unfold freevm
  generalize List.range 1024 = l at *
  refine .bind (deallocuvm_spec hM hok le_rfl (by decide)) fun _ => .of_and fun _ => ?_
  refine .of_state fun s hs => ?_
  have hwork : Work F M m0 (d ::ₘ ((l.map fun i => optPage (T i)).sum + Y)) s := by
    refine hs.work.of_eq ?_
    rw [dirPages, show roundUp 0 = 0 from rfl, show roundUp KERNBASE = KERNPAGE from rfl,
      userPages_unmap, add_zero, hsum, Multiset.cons_add]
  have hdM := hwork.mem (mem_cons_self d _)
  have hstart : ∀ s', s' = s → Work F M m0 (d ::ₘ ((l.map fun i => optPage (T i)).sum + Y)) s' ∧
      tab s'.mem d = T := by
    rintro _ rfl
    exact ⟨hwork, hs.tab⟩
  refine .bind ((freeTables_spec hM hok l).pre hstart) fun _ =>
    .of_state fun s1 hs1 => ?_
  refine (kfree_spec hM hok hdM s1.mem).conseq ?_ (fun _ _ h => h.1) fun _ _ h => h
  rintro _ rfl
  exact ⟨hs1, rfl⟩

end Xv6.Vm
