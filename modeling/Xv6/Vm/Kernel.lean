import Xv6.Vm.Free

/-!
Specification of `setupkvm`: the kernel's part of every page directory.
-/

namespace Xv6.Vm

open Lib
open Multiset (card)

def Kmap.pages (e : Kmap) : ℕ := (e.stop + 2 ^ 20 - e.start) % 2 ^ 20

def Kmap.apply (P : ℕ → ℕ) (e : Kmap) : ℕ → ℕ := fill P e.virt (e.pages - 1) e.start e.perm

structure Kmap.Fits (P : ℕ → ℕ) (e : Kmap) : Prop where
  kern : KERNPAGE ≤ e.virt
  pos : 0 < e.pages
  virt : e.virt + e.pages ≤ 2 ^ 20
  phys : e.start + e.pages ≤ 2 ^ 20
  perm : e.perm < PGSIZE
  fresh : ∀ x, e.virt ≤ x → x < e.virt + e.pages → ¬Present (P x)

def FitsAll : (ℕ → ℕ) → List Kmap → Prop
  | _, [] => True
  | P, e :: rest => e.Fits P ∧ FitsAll (e.apply P) rest

def Within (es : List Kmap) (i : ℕ) : Prop :=
  ∃ e ∈ es, e.virt / 1024 ≤ i ∧ i ≤ (e.virt + e.pages - 1) / 1024

def Bare (T : ℕ → Option ℕ) : Prop :=
  ∀ v, KERNPAGE + PHYSTOP ≤ v → v < DEVSPACE → T (v / 1024) = none

def kernelMap (k : Layout) : ℕ → ℕ := (kmap k).foldl Kmap.apply fun _ => 0

variable {k : Layout} {P : ℕ → ℕ} {x : ℕ}

theorem apply_user {e : Kmap} (h : KERNPAGE ≤ e.virt) (hx : x < KERNPAGE) :
    e.apply P x = P x := if_neg (by omega)

theorem mappages_pages {d v n f perm : ℕ} (hn : 0 < n) (hv : v + n ≤ 2 ^ 20) :
    mappages k d (v * PGSIZE) (n * PGSIZE) f perm = mapLoop k d perm (n - 1) v f := by
  unfold mappages
  simp only [PGSIZE]
  congr 1 <;> omega

theorem mappages_page {d v f perm : ℕ} (hv : v < 2 ^ 20) :
    mappages k d (v * PGSIZE) PGSIZE f perm = mapPage k d v f perm := by
  have h : mappages k d (v * PGSIZE) (1 * PGSIZE) f perm = mapLoop k d perm (1 - 1) v f :=
    mappages_pages (by omega) (by omega)
  rwa [one_mul] at h

theorem FitsAll.cons {e : Kmap} {rest : List Kmap} {lo : ℕ}
    (hP : ∀ x, lo ≤ x → ¬Present (P x))
    (he : lo ≤ e.virt ∧ KERNPAGE ≤ e.virt ∧ 0 < e.pages ∧ e.virt + e.pages ≤ 2 ^ 20 ∧
      e.start + e.pages ≤ 2 ^ 20 ∧ e.perm < PGSIZE)
    (hrest : (∀ x, e.virt + e.pages ≤ x → ¬Present (e.apply P x)) →
      FitsAll (e.apply P) rest) : FitsAll P (e :: rest) := by
  obtain ⟨hlo, hkern, hpos, hvirt, hphys, hperm⟩ := he
  refine ⟨⟨hkern, hpos, hvirt, hphys, hperm, fun x hx _ => hP x (by omega)⟩, hrest fun x hx => ?_⟩
  rw [Kmap.apply, fill, if_neg (by omega)]
  exact hP x (by omega)

theorem kmap_fits (k : Layout) : FitsAll (fun _ => 0) (kmap k) := by
  have h1 := k.data_gt
  have h2 := k.data_lt
  have h3 := k.kend_le
  simp only [kmap]
  simp only [PHYSTOP] at h3
  have h0 : ∀ x, 0 ≤ x → ¬Present 0 := fun _ _ => Nat.zero_ne_one
  refine .cons h0 ?_ fun hP => .cons hP ?_ fun hP => .cons hP ?_ fun hP =>
    FitsAll.cons hP ?_ fun _ => trivial
  all_goals
    simp only [Kmap.pages, KERNPAGE, KERNBASE, PGSIZE, EXTMEM, PHYSTOP, DEVSPACE, PTE_W]
    omega

theorem fill_not_user {v n f perm : ℕ} (hperm : perm = 0 ∨ perm = PTE_W)
    (h : ¬User (P x)) : ¬User (fill P v n f perm x) := by
  unfold fill
  split
  · rw [User, mkPte]
    simp only [PGSIZE, PTE_W] at *
    omega
  · exact h

theorem kernelMap_not_user (x : ℕ) : ¬User (kernelMap k x) := by
  refine fill_not_user (.inr rfl) (fill_not_user (.inr rfl) (fill_not_user (.inl rfl)
    (fill_not_user (.inr rfl) ?_)))
  decide

theorem kernelMap_user (hx : x < KERNPAGE) : kernelMap k x = 0 := by
  simp only [kernelMap, kmap, List.foldl_cons, List.foldl_nil]
  simp only [KERNPAGE, KERNBASE, PGSIZE] at hx
  rw [apply_user, apply_user, apply_user, apply_user]
  all_goals
    simp only [KERNPAGE, KERNBASE, PGSIZE, EXTMEM, DEVSPACE]
    omega

theorem userPages_kernelMap : userPages (kernelMap k) = 0 := by
  rw [← userPages_zero]
  exact userPages_congr fun v hv => kernelMap_user hv

theorem present_apply_of_mem {e : Kmap} (hlo : e.virt ≤ x) (hhi : x < e.virt + e.pages) :
    Present (e.apply P x) := by
  rw [Kmap.apply, fill, if_pos (by omega)]
  exact present_mkPte _ _

theorem present_apply {e : Kmap} (h : Present (P x)) : Present (e.apply P x) := by
  unfold Kmap.apply fill
  split
  · exact present_mkPte _ _
  · exact h

theorem kernelMap_dev (hlo : DEVSPACE ≤ x) (hhi : x < 2 ^ 20) : Present (kernelMap k x) := by
  refine present_apply_of_mem hlo ?_
  simp only [Kmap.pages, DEVSPACE] at *
  omega

theorem kernelMap_mem (hlo : KERNPAGE ≤ x) (hhi : x < KERNPAGE + PHYSTOP) :
    Present (kernelMap k x) := by
  have h1 := k.data_gt
  have h2 := k.data_lt
  have h3 := k.kend_le
  simp only [kernelMap, kmap, List.foldl_cons, List.foldl_nil]
  refine present_apply ?_
  rcases Nat.lt_or_ge x (KERNPAGE + k.data) with hdata | hdata
  · refine present_apply ?_
    rcases Nat.lt_or_ge x (KERNPAGE + EXTMEM) with hext | hext
    · exact present_apply (present_apply_of_mem hlo hext)
    · refine present_apply_of_mem hext ?_
      simp only [Kmap.pages, EXTMEM, PHYSTOP] at *
      omega
  · refine present_apply_of_mem hdata ?_
    simp only [Kmap.pages, PHYSTOP] at *
    omega

theorem bare_of_within {T : ℕ → Option ℕ} (h : ∀ i, T i = none ∨ Within (kmap k) i) : Bare T := by
  intro v hlo hhi
  refine (h _).resolve_right ?_
  rintro ⟨e, he, h1, h2⟩
  have hdata := k.data_gt
  have hend := k.data_lt.le.trans k.kend_le
  simp only [kmap, List.mem_cons, List.not_mem_nil, or_false] at he
  rcases he with rfl | rfl | rfl | rfl <;>
    simp only [Kmap.pages, KERNPAGE, KERNBASE, PGSIZE, EXTMEM, DEVSPACE, PHYSTOP] at * <;> omega

theorem Bare.more {T T' : ℕ → Option ℕ} {lo hi : ℕ} (h : Bare T) (hT : MoreTables T T' lo hi)
    (hhi : hi ≤ KERNPAGE / 1024) : Bare T' := by
  intro v h1 h2
  rcases hT (v / 1024) with hv | hv
  · rw [hv]
    exact h v h1 h2
  · simp only [KERNPAGE, KERNBASE, PGSIZE, PHYSTOP] at *
    omega

variable {F : Prop} {M Y : Multiset ℕ} {m0 : Mem} {d : ℕ} {T : ℕ → Option ℕ} {P : ℕ → ℕ}
  (hM : M.Nodup) (hok : ∀ f ∈ M, k.Ok f)
include hM hok

theorem mapAll_spec {es : List Kmap} (hes : FitsAll P es) :
    Triple (Has F M m0 d T P Y) (mapAll k d es)
      (fun r s => ∃ T' P', (∀ i, T' i = T i ∨ Within es i) ∧ (∀ x < KERNPAGE, P' x = P x) ∧
        Has F M m0 d T' P' Y s ∧
        if r then P' = es.foldl Kmap.apply P
        else Short F M (1025 + card (userPages P) + card Y))
      Never := by
  induction es generalizing P T with
  | nil => exact .pure fun s hs => ⟨T, P, fun _ => .inl rfl, fun _ _ => rfl, hs, rfl⟩
  | cons e rest ih =>
    obtain ⟨he, hrest⟩ := hes
    have hpos := he.pos
    have hvirt := he.virt
    have hphys := he.phys
    have hin {T' : ℕ → Option ℕ}
        (hT : MoreTables T T' (e.virt / 1024) ((e.virt + (e.pages - 1)) / 1024)) (i : ℕ) :
        T' i = T i ∨ Within (e :: rest) i := by
      refine (hT i).imp_right fun h => ⟨e, List.mem_cons_self .., ?_⟩
      rwa [Nat.add_sub_assoc hpos]
    unfold mapAll
    rw [show (e.stop + 2 ^ 20 - e.start) % 2 ^ 20 = e.pages from rfl, mappages_pages hpos hvirt]
    refine .bind (mapLoop_spec hM hok he.kern (by omega) (by omega) he.perm
      fun x h1 h2 => he.fresh x h1 (by omega)) fun r => .of_exists fun T1 => .of_exists fun P1 =>
      .of_and fun hT1 => .of_and fun hP1 => ?_
    cases r with
    | false => exact .pure fun s hs => ⟨T1, P1, hin hT1, hP1, hs.1, hs.2⟩
    | true =>
      refine .of_state fun s ⟨hs, hP'⟩ => ?_
      obtain rfl : P1 = e.apply P := hP'
      rw [if_pos rfl]
      refine (ih hrest).conseq (fun s' hs' => hs' ▸ hs)
        (fun r s' ⟨T', P', hT', hlow, hs', hr⟩ => ?_) fun _ _ h => h
      refine ⟨T', P', fun i => ?_, fun x hx => (hlow x hx).trans (hP1 x hx), hs', ?_⟩
      · rcases hT' i with h | ⟨e', he', h⟩
        · rw [h]
          exact hin hT1 i
        · exact .inr ⟨e', List.mem_cons_of_mem _ he', h⟩
      · rw [userPages_congr hP1] at hr
        exact hr

theorem setupkvm_spec :
    Triple (Work F M m0 Y) (setupkvm k)
      (fun r s =>
        match r with
        | none => Work F M m0 Y s ∧ Short F M (1025 + card Y)
        | some d => ∃ T, (∀ i, T i = none ∨ Within (kmap k) i) ∧
            Has F M m0 d T (kernelMap k) Y s)
      Never := by
  unfold setupkvm
  refine .of_state fun s hs => ?_
  have hstart : ∀ s', s' = s → Work F M m0 Y s' ∧ s'.mem = s.mem := by
    rintro _ rfl
    exact ⟨hs, rfl⟩
  refine .bind ((kalloc_spec hM hok s.mem).pre hstart) fun r => ?_
  cases r with
  | none =>
    refine .pure fun s1 hs1 => ⟨hs1.2.1, hs1.2.2.imp_right fun h => ?_⟩
    rw [← h]
    omega
  | some d =>
    refine .bind (R := fun _ => Has F M m0 d (fun _ => none) (fun _ => 0) Y)
      (.modify fun s1 hs1 => ?_) fun _ =>
      Prog.Triple.bind (mapAll_spec hM hok (kmap_fits k)) fun r => .of_exists fun T' =>
      .of_exists fun P' => .of_and fun hT => .of_and fun hP => ?_
    · obtain ⟨_, hwork, hdY, hdM⟩ := hs1
      obtain ⟨htab, hpte⟩ := dir_zeros (Phys.setPage_self s1 d zeros)
      refine ⟨(hwork.setPage hM (Multiset.mem_cons_self d Y) zeros).of_eq ?_, htab, hpte⟩
      rw [dirPages, tabPages_none, userPages_zero, add_zero, Multiset.cons_add, zero_add]
    cases r with
    | true =>
      refine .pure fun s hr => ⟨T', hT, ?_⟩
      obtain ⟨hs, hP'⟩ := hr
      rw [show P' = kernelMap k from hP'] at hs
      exact hs
    | false =>
      refine .of_state fun s1 hr => ?_
      obtain ⟨hs1, hshort⟩ := hr
      have hstart : ∀ s', s' = s1 → Has F M m0 d T' P' Y s' := by
        rintro _ rfl
        exact hs1
      refine .bind ((freevm_spec hM hok).pre hstart) fun _ =>
        .pure fun s2 hs2 => ⟨hs2, ?_⟩
      rw [userPages_zero, Multiset.card_zero] at hshort
      exact hshort

omit hM hok in
theorem Has.holds_kernel {d : ℕ} {T : ℕ → Option ℕ} {s : Phys}
    (h : Has F M m0 d T (kernelMap k) Y s)
    (C : ℕ → Bytes PGSIZE) : Holds F M m0 d T (kernelMap k) C Y s := by
  refine ⟨h, fun v hv hp => ?_⟩
  rw [kernelMap_user hv] at hp
  exact absurd hp Nat.zero_ne_one

end Xv6.Vm
