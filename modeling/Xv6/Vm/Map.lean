import Mathlib.Algebra.Order.BigOperators.Group.Finset
import Xv6.Vm.Flat

namespace Xv6.Vm

open Lib Function
open Multiset (card card_add cons_add mem_cons_of_mem mem_cons_self singleton_add)

structure Has (F : Prop) (M : Multiset ℕ) (m₀ : Mem) (d : ℕ) (T : ℕ → Option ℕ) (P : ℕ → ℕ)
    (Y : Multiset ℕ) (s : Phys) : Prop where
  work : Work F M m₀ (dirPages d T P + Y) s
  tab : tab s.mem d = T
  pte : pte s.mem d = P

def Agree (X : Multiset ℕ) (m : Mem) (s : Phys) : Prop := ∀ f ∈ X, s.mem f = m f

def Short (F : Prop) (M : Multiset ℕ) (n : ℕ) : Prop := F ∨ Multiset.card M ≤ n

theorem Short.mono {F : Prop} {M : Multiset ℕ} {n n' : ℕ} (h : Short F M n) (hn : n ≤ n') :
    Short F M n' := h.imp_right fun h => h.trans hn

section
variable {k : Layout} {F : Prop} {M X Y Y' : Multiset ℕ} {m0 : Mem} {s : Phys} {d t v w f i : ℕ}
  {T : ℕ → Option ℕ} {P : ℕ → ℕ}

section
variable (h : Work F M m0 X s)
include h

theorem Work.le : X ≤ M := by
  obtain ⟨l, -, hsum⟩ := h.free
  rw [← hsum]
  exact Multiset.le_add_left ..

theorem Work.mem (hf : f ∈ X) : f ∈ M := Multiset.mem_of_le h.le hf

theorem Work.nodup (hM : M.Nodup) : X.Nodup := Multiset.nodup_of_le h.le hM

end

section
variable (h : Has F M m0 d T P Y s)
include h

theorem Has.nodup (hM : M.Nodup) : (dirPages d T P).Nodup :=
  (Multiset.nodup_add.1 (h.work.nodup hM)).1

theorem Has.mem_dir (hf : f ∈ dirPages d T P) : f ∈ M :=
  h.work.mem (Multiset.mem_add.2 (.inl hf))

theorem Has.tab_lt (ht : T i = some t) : i < 1024 := by
  rw [← h.tab] at ht
  exact Vm.tab_lt ht

end

theorem mem_dirPages_self : d ∈ dirPages d T P := mem_cons_self ..

theorem mem_dirPages_tab (hi : i < 1024) (ht : T i = some t) : t ∈ dirPages d T P :=
  mem_cons_of_mem (Multiset.mem_add.2 (.inl (mem_tabPages.2 ⟨i, hi, ht⟩)))

theorem mem_dirPages_user (hv : v < KERNPAGE) (hw : Present (P v)) : frame (P v) ∈ dirPages d T P :=
  mem_cons_of_mem (Multiset.mem_add.2 (.inr (mem_userPages.2 ⟨v, hv, hw, rfl⟩)))

theorem card_optPage (o : Option ℕ) : card (optPage o) ≤ 1 := by
  cases o with
  | none => exact Nat.zero_le _
  | some t => exact le_rfl

theorem card_tabPages : card (tabPages T) ≤ 1024 := by
  unfold tabPages
  rw [Multiset.card_sum]
  have h := Finset.sum_le_card_nsmul (.range 1024) (fun i => card (optPage (T i))) 1
    fun i _ => card_optPage _
  simpa using h

theorem card_dirPages : card (dirPages d T P) ≤ 1025 + card (userPages P) := by
  rw [dirPages, Multiset.card_cons, card_add]
  have := card_tabPages (T := T)
  omega

theorem short_of_eq (h : F ∨ dirPages d T P + Y = M) :
    Short F M (1025 + card (userPages P) + card Y) := by
  refine h.imp_right fun h => ?_
  rw [← h, card_add]
  have := card_dirPages (d := d) (T := T) (P := P)
  omega

theorem Agree.setPage {m : Mem} (h : Agree X m s) (hf : f ∉ X) {b : Bytes PGSIZE} :
    Agree X m (s.setPage f b) := by
  intro g hg
  have hne : g ≠ f := fun heq => hf (heq ▸ hg)
  rw [s.setPage_of_ne b hne]
  exact h g hg

theorem rest_eq : dirPages d T P + Y = d ::ₘ (tabPages T + (userPages P + Y)) := by
  rw [dirPages, cons_add, add_assoc]

theorem mem_of_rest (hf : f ∈ userPages P + Y) : f ∈ dirPages d T P + Y := by
  rw [rest_eq]
  exact mem_cons_of_mem (Multiset.mem_add.2 (.inr hf))

variable (h : Has F M m0 d T P Y s) (hM : M.Nodup)
include h hM

theorem Has.dir_not_mem : d ∉ userPages P + Y := by
  have hnd := h.work.nodup hM
  rw [rest_eq] at hnd
  exact fun hd => (Multiset.nodup_cons.1 hnd).1 (Multiset.mem_add.2 (.inr hd))

theorem Has.tab_not_mem (ht : T i = some t) : t ∉ userPages P + Y := by
  have hnd := h.work.nodup hM
  rw [rest_eq] at hnd
  have hdisj := (Multiset.nodup_add.1 (Multiset.nodup_cons.1 hnd).2).2.2
  exact Multiset.disjoint_left.1 hdisj (mem_tabPages.2 ⟨i, h.tab_lt ht, ht⟩)

theorem Has.setPage (b : Bytes PGSIZE)
    (hf : f ∈ userPages P ∨ f ∈ Y) : Has F M m0 d T P Y (s.setPage f b) := by
  obtain ⟨hd, hdu, -, htu⟩ := dirPages_nodup (h.nodup hM)
  have hdisj := (Multiset.nodup_add.1 (h.work.nodup hM)).2.2
  have hne : f ≠ d := by
    rintro rfl
    rcases hf with hf | hf
    · exact hdu hf
    · exact Multiset.disjoint_left.1 hdisj mem_dirPages_self hf
  have hnt : f ∉ tabPages (Vm.tab s.mem d) := by
    rw [h.tab]
    intro ht
    rcases hf with hf | hf
    · exact htu f ht hf
    · obtain ⟨i, hi, ht⟩ := mem_tabPages.1 ht
      exact Multiset.disjoint_left.1 hdisj (mem_dirPages_tab hi ht) hf
  have hX : f ∈ dirPages d T P + Y := by
    rcases hf with hf | hf
    · exact Multiset.mem_add.2 (.inl (mem_cons_of_mem (Multiset.mem_add.2 (.inr hf))))
    · exact Multiset.mem_add.2 (.inr hf)
  obtain ⟨h1, h2⟩ := dir_update_of_not_mem b hne hnt
  exact ⟨h.work.setPage hM hX b, h1.trans h.tab, h2.trans h.pte⟩

theorem Has.setPte (ht : T (v / 1024) = some t)
    (hw : w < 2 ^ 32) (hY : userPages (update P v w) + Y' = userPages P + Y) :
    Has F M m0 d T (update P v w) Y'
      (s.setPage t (setEntry (s.mem t) (v % 1024) w)) := by
  obtain ⟨hd, -, hnd, -⟩ := dirPages_nodup (h.nodup hM)
  rw [← h.tab] at hd hnd
  have htm : Vm.tab s.mem d (v / 1024) = some t := by rw [h.tab, ht]
  obtain ⟨h1, h2⟩ := dir_setPte htm hnd hd hw
  have htX : t ∈ dirPages d T P + Y :=
    Multiset.mem_add.2 (.inl (mem_dirPages_tab (h.tab_lt ht) ht))
  refine ⟨(h.work.setPage hM htX _).of_eq ?_, h1.trans h.tab, ?_⟩
  · rw [dirPages, dirPages, cons_add, cons_add, add_assoc, add_assoc, hY]
  · rw [← h.pte]
    exact h2

end

def fill (P : ℕ → ℕ) (v n f perm : ℕ) (x : ℕ) : ℕ :=
  if v ≤ x ∧ x ≤ v + n then mkPte (f + (x - v)) perm else P x

theorem fill_zero (P : ℕ → ℕ) (v f perm : ℕ) : update P v (mkPte f perm) = fill P v 0 f perm := by
  funext x
  unfold fill
  by_cases hx : x = v
  · subst hx
    rw [update_self, if_pos (by omega), Nat.sub_self, Nat.add_zero]
  · rw [update_of_ne hx, if_neg (by omega)]

theorem fill_succ (P : ℕ → ℕ) (v n f perm : ℕ) :
    fill (update P v (mkPte f perm)) (v + 1) n (f + 1) perm =
      fill P v (n + 1) f perm := by
  funext x
  unfold fill
  by_cases hx : x = v
  · subst hx
    rw [if_neg (by omega), if_pos (by omega), update_self, Nat.sub_self, Nat.add_zero]
  rw [update_of_ne hx]
  by_cases hin : v + 1 ≤ x ∧ x ≤ v + 1 + n
  · rw [if_pos hin, if_pos (by omega)]
    congr 1
    omega
  · rw [if_neg hin, if_neg (by omega)]

def MoreTables (T T' : ℕ → Option ℕ) (lo hi : ℕ) : Prop :=
  ∀ i, T' i = T i ∨ lo ≤ i ∧ i ≤ hi

theorem MoreTables.update (T : ℕ → Option ℕ) (i : ℕ) (o : Option ℕ) :
    MoreTables T (update T i o) i i := by
  intro j
  by_cases hj : j = i
  · exact .inr (by omega)
  · exact .inl (update_of_ne hj _ _)

theorem MoreTables.trans {T T' T'' : ℕ → Option ℕ} {lo mid hi lo' : ℕ} (h : MoreTables T T' lo mid)
    (h' : MoreTables T' T'' lo' hi) (hlo : lo ≤ lo') (hhi : mid ≤ hi) : MoreTables T T'' lo hi := by
  intro i
  rcases h' i with h' | h'
  · rcases h i with h | h
    · exact .inl (h'.trans h)
    · exact .inr (by omega)
  · exact .inr (by omega)

variable {k : Layout} {F : Prop} {M X Y Y' : Multiset ℕ} {m0 : Mem} {s : Phys} {d t v w f i : ℕ}
  {T : ℕ → Option ℕ} {P : ℕ → ℕ} (hM : M.Nodup) (hok : ∀ f ∈ M, k.Ok f)
include hM hok

theorem walkpgdir_frame (hv : v < 2 ^ 20) (m : Mem) :
    Triple (fun s => Has F M m0 d T P Y s ∧ s.mem = m) (walkpgdir k d v true)
      (fun r s => Agree (userPages P + Y) m s ∧
        match r with
        | none => Has F M m0 d T P Y s ∧ (F ∨ dirPages d T P + Y = M)
        | some t => (T (v / 1024) = none ∨ T (v / 1024) = some t) ∧
            Has F M m0 d (update T (v / 1024) (some t)) P Y s)
      Never := by
  have hi : v / 1024 < 1024 := by omega
  unfold walkpgdir
  refine .bind (R := fun o s => (Has F M m0 d T P Y s ∧ s.mem = m) ∧ T (v / 1024) = o)
    (.read fun s hs => ⟨hs, by rw [← hs.1.tab]⟩) fun o => ?_
  cases o with
  | some t =>
    refine .pure fun s hs => ⟨fun f _ => by rw [hs.1.2], .inr hs.2, ?_⟩
    rw [← hs.2, update_eq_self]
    exact hs.1.1
  | none =>
    refine .of_state fun s ⟨⟨hs, hm⟩, hnone⟩ => ?_
    rw [if_pos rfl]
    have hstart : ∀ s', s' = s → Work F M m0 (dirPages d T P + Y) s' ∧ s'.mem = s.mem := by
      rintro _ rfl
      exact ⟨hs.work, rfl⟩
    refine .bind ((kalloc_spec hM hok s.mem).pre hstart) fun r => ?_
    cases r with
    | none => exact .pure fun s1 hs1 =>
      ⟨fun f _ => by rw [hs1.1, hm], ⟨hs1.2.1, (congrArg (tab · d) hs1.1).trans hs.tab,
        (congrArg (pte · d) hs1.1).trans hs.pte⟩, hs1.2.2⟩
    | some t =>
      constructor
      rintro s1 ⟨hmem, hwork, htX, htM⟩
      have hagree : Agree (userPages P + Y) m s1 := fun f _ => by rw [hmem, hm]
      have hX : t ∈ t ::ₘ (dirPages d T P + Y) := mem_cons_self ..
      have hdX : d ∈ t ::ₘ (dirPages d T P + Y) :=
        mem_cons_of_mem (Multiset.mem_add.2 (.inl mem_dirPages_self))
      have htd : t ≠ d := by
        rintro rfl
        exact htX (Multiset.mem_add.2 (.inl mem_dirPages_self))
      have htt : t ∉ tabPages (Vm.tab s1.mem d) := by
        rw [hmem, hs.tab]
        intro ht
        obtain ⟨j, hj, ht⟩ := mem_tabPages.1 ht
        exact htX (Multiset.mem_add.2 (.inl (mem_dirPages_tab hj ht)))
      have hdt : d ∉ tabPages (Vm.tab s1.mem d) := by
        rw [hmem, hs.tab]
        exact (dirPages_nodup (hs.nodup hM)).1
      have htlt : t < 2 ^ 20 := by
        have := (hok t htM).2
        simp only [PHYSTOP] at this
        omega
      have hn : Vm.tab s1.mem d (v / 1024) = none := by rw [hmem, hs.tab, hnone]
      obtain ⟨h1, h2⟩ := dir_newTable hi hn htd htt hdt htlt
      refine ⟨?_, .inl hnone, ((hwork.setPage hM hX _).setPage hM hdX _).of_eq ?_, ?_, ?_⟩
      · refine (hagree.setPage fun hin => htX ?_).setPage (hs.dir_not_mem hM)
        exact mem_of_rest hin
      · have h := tabPages_update (T := T) hi (some t)
        rw [hnone] at h
        change tabPages _ + 0 = tabPages T + {t} at h
        rw [add_zero] at h
        rw [dirPages, dirPages, h, ← singleton_add, ← singleton_add, ← singleton_add]
        ac_rfl
      · exact h1.trans (by rw [hmem, hs.tab])
      · exact h2.trans (by rw [hmem, hs.pte])

theorem walkpgdir_spec (hv : v < 2 ^ 20) :
    Triple (Has F M m0 d T P Y) (walkpgdir k d v true)
      (fun r s =>
        match r with
        | none => Has F M m0 d T P Y s ∧ (F ∨ dirPages d T P + Y = M)
        | some t => (T (v / 1024) = none ∨ T (v / 1024) = some t) ∧
            Has F M m0 d (update T (v / 1024) (some t)) P Y s)
      Never :=
  of_mem fun m => (walkpgdir_frame hM hok hv m).post fun _ _ h => h.2

variable {perm : ℕ}

theorem mapPage_frame (hv : v < 2 ^ 20) (hP : ¬Present (P v)) (hf : f < 2 ^ 20)
    (hperm : perm < PGSIZE)
    (hY : userPages (update P v (mkPte f perm)) + Y' = userPages P + Y) (m : Mem) :
    Triple (fun s => Has F M m0 d T P Y s ∧ s.mem = m) (mapPage k d v f perm)
      (fun r s => Agree (userPages P + Y) m s ∧
        if r then ∃ t, (T (v / 1024) = none ∨ T (v / 1024) = some t) ∧
          Has F M m0 d (update T (v / 1024) (some t)) (update P v (mkPte f perm)) Y' s
        else Has F M m0 d T P Y s ∧ (F ∨ dirPages d T P + Y = M))
      Never := by
  unfold mapPage
  refine .bind (walkpgdir_frame hM hok hv m) fun r => ?_
  cases r with
  | none => exact .pure fun s hs => hs
  | some t =>
    have ht : update T (v / 1024) (some t) (v / 1024) = some t :=
      update_self ..
    refine .bind (R := fun w s => (Agree (userPages P + Y) m s ∧
      (T (v / 1024) = none ∨ T (v / 1024) = some t) ∧
      Has F M m0 d (update T (v / 1024) (some t)) P Y s) ∧ w = P v)
      (.read fun s hs => ⟨hs, ?_⟩) fun w =>
      Prog.Triple.ite (fun hw => ⟨fun s hs => ?_⟩) fun _ => ?_
    · have htm : Vm.tab s.mem d (v / 1024) = some t := by rw [hs.2.2.tab, ht]
      rw [← hs.2.2.pte, pte_of_tab htm]
    · rw [hs.2] at hw
      exact absurd hw hP
    refine .bind (R := fun _ s => (Agree (userPages P + Y) m s ∧ Has F M m0 d
      (update T (v / 1024) (some t)) (update P v (mkPte f perm)) Y' s) ∧
      (T (v / 1024) = none ∨ T (v / 1024) = some t)) (.modify fun s hs => ?_) fun _ =>
      .pure fun s hs => ⟨hs.1.1, t, hs.2, hs.1.2⟩
    have hs' := hs.1.2.2
    exact ⟨⟨hs.1.1.setPage (hs'.tab_not_mem hM ht),
      hs'.setPte hM ht (mkPte_lt hf hperm) hY⟩, hs.1.2.1⟩

theorem mapPage_spec (hv : v < 2 ^ 20) (hP : ¬Present (P v)) (hf : f < 2 ^ 20)
    (hperm : perm < PGSIZE)
    (hY : userPages (update P v (mkPte f perm)) + Y' = userPages P + Y) :
    Triple (Has F M m0 d T P Y) (mapPage k d v f perm)
      (fun r s =>
        if r then ∃ t, (T (v / 1024) = none ∨ T (v / 1024) = some t) ∧
          Has F M m0 d (update T (v / 1024) (some t)) (update P v (mkPte f perm)) Y' s
        else Has F M m0 d T P Y s ∧ (F ∨ dirPages d T P + Y = M))
      Never :=
  of_mem fun m => (mapPage_frame hM hok hv hP hf hperm hY m).post fun _ _ h => h.2

theorem mapPage_kernel (hv : KERNPAGE ≤ v) (hv' : v < 2 ^ 20) (hP : ¬Present (P v))
    (hf : f < 2 ^ 20) (hperm : perm < PGSIZE) :
    Triple (Has F M m0 d T P Y) (mapPage k d v f perm)
      (fun r s => ∃ T', MoreTables T T' (v / 1024) (v / 1024) ∧
        if r then Has F M m0 d T' (fill P v 0 f perm) Y s
        else Has F M m0 d T' P Y s ∧
          Short F M (1025 + card (userPages P) + card Y))
      Never := by
  have hY : userPages (update P v (mkPte f perm)) + Y = userPages P + Y := by
    rw [userPages_update_of_le hv]
  refine (mapPage_spec hM hok hv' hP hf hperm hY).post (fun r s hs => ?_)
  cases r with
  | true =>
    obtain ⟨t, -, hs⟩ := hs
    rw [fill_zero] at hs
    exact ⟨_, .update T _ _, hs⟩
  | false => exact ⟨T, fun _ => .inl rfl, hs.1, short_of_eq hs.2⟩

theorem mapLoop_spec {perm n : ℕ} (hv : KERNPAGE ≤ v) (hn : v + n < 2 ^ 20) (hf : f + n < 2 ^ 20)
    (hperm : perm < PGSIZE) (hP : ∀ x, v ≤ x → x ≤ v + n → ¬Present (P x)) :
    Triple (Has F M m0 d T P Y) (mapLoop k d perm n v f)
      (fun r s => ∃ T' P', MoreTables T T' (v / 1024) ((v + n) / 1024) ∧
        (∀ x < KERNPAGE, P' x = P x) ∧ Has F M m0 d T' P' Y s ∧
        if r then P' = fill P v n f perm
        else Short F M (1025 + card (userPages P) + card Y))
      Never := by
  induction n generalizing v f T P with
  | zero =>
    refine (mapPage_kernel hM hok hv hn (hP v le_rfl (by omega)) hf hperm).post (fun r s ⟨T', hT,
      hs⟩ => ?_)
    cases r with
    | true => exact ⟨T', _, hT, fun x hx => if_neg (by omega), hs, rfl⟩
    | false => exact ⟨T', P, hT, fun _ _ => rfl, hs.1, hs.2⟩
  | succ n ih =>
    have hT1 {T' : ℕ → Option ℕ} (hT : MoreTables T T' (v / 1024) (v / 1024)) :
        MoreTables T T' (v / 1024) ((v + (n + 1)) / 1024) := fun i =>
      (hT i).imp_right fun h => ⟨h.1, h.2.trans (Nat.div_le_div_right (by omega))⟩
    refine .bind (mapPage_kernel hM hok hv (by omega) (hP v le_rfl (by omega))
      (by omega) hperm) fun r => .of_exists fun T' => .of_and fun hT => ?_
    cases r with
    | false =>
      exact .pure fun s hs => ⟨T', P, hT1 hT, fun _ _ => rfl, hs.1, hs.2⟩
    | true =>
      have hP' : ∀ x, v + 1 ≤ x → x ≤ v + 1 + n → ¬Present (fill P v 0 f perm x) := by
        intro x h1 h2
        rw [fill, if_neg (by omega)]
        exact hP x (by omega) (by omega)
      have hlow : ∀ x < KERNPAGE, fill P v 0 f perm x = P x :=
        fun x hx => if_neg (by omega)
      rw [if_pos rfl, Nat.mod_eq_of_lt (show v + 1 < 2 ^ 20 by omega),
        Nat.mod_eq_of_lt (show f + 1 < 2 ^ 20 by omega)]
      refine (ih (by omega) (by omega) (by omega) hP').post (fun r s ⟨T'', P', hT', hP'', hs, hr⟩ =>
        ?_)
      refine ⟨T'', P', ?_, fun x hx => (hP'' x hx).trans (hlow x hx), hs, ?_⟩
      · rw [show v + 1 + n = v + (n + 1) by omega] at hT'
        exact hT.trans hT' (Nat.div_le_div_right (by omega)) (Nat.div_le_div_right (by omega))
      · rw [← fill_succ, fill_zero]
        rw [userPages_congr hlow] at hr
        exact hr

end Xv6.Vm
