import Mathlib.Order.Interval.Finset.Nat
import Xv6.Vm.Image

namespace Xv6.Vm

open Lib Function
open List (range' range'_succ)
open Multiset (add_cons card card_cons coe_add coe_card coe_nil coe_nodup cons_add cons_coe
  singleton_add)

inductive Update where
  | kalloc
  | kfree (f : ℕ)
  | mappages (va size f perm : ℕ)
  | deallocuvm (oldsz newsz : ℕ)
  | clearpteu (v : ℕ)

def Update.run (k : Layout) (d : ℕ) : Update → Op (Option ℕ)
  | .kalloc => Vm.kalloc k
  | .kfree f => do
      Vm.kfree k f
      pure (some 0)
  | .mappages va size f perm => do
      if ← Vm.mappages k d va size f perm then pure (some 0) else pure none
  | .deallocuvm oldsz newsz => do
      let sz ← Vm.deallocuvm k d oldsz newsz
      pure (some sz)
  | .clearpteu v => do
      Vm.clearpteu k d v
      pure (some 0)

def step (k : Layout) (d : ℕ) (s : Phys) (l : Update × Option ℕ) : Option Phys :=
  match (l.1.run k d).result s with
  | (.ok r, s') => if r = l.2 then some s' else none
  | (.error _, _) => none

def lastPage (va size : ℕ) : ℕ := (va + size + (2 ^ 32 - 1)) % 2 ^ 32 / PGSIZE

structure Held (M : Finset ℕ) (d : ℕ) (s : Phys) (f : ℕ) : Prop where
  stock : f ∈ M
  busy : ∀ l, s.Free l → f ∉ l
  other : f ∉ dirPages d (tab s.mem d) (pte s.mem d)

def Update.Fits (M : Finset ℕ) (d : ℕ) (s : Phys) : Update → Prop
  | .kalloc => True
  | .kfree f => Held M d s f
  | .mappages va size f perm =>
    va / PGSIZE ≤ lastPage va size ∧ lastPage va size < KERNPAGE ∧ perm < PGSIZE ∧
    (∀ v, va / PGSIZE ≤ v → v ≤ lastPage va size → ¬Present (pte s.mem d v)) ∧
    ∀ i, i ≤ lastPage va size - va / PGSIZE → Held M d s (f + i)
  | .deallocuvm oldsz _ => oldsz ≤ KERNBASE
  | .clearpteu _ => True

def put (P : ℕ → ℕ) (v n f perm : ℕ) (x : ℕ) : ℕ :=
  if v ≤ x ∧ x < v + n then mkPte (f + (x - v)) perm else P x

structure Flat where
  map : ℕ → ℕ
  free : Multiset ℕ

inductive FlatStep : Update → Option ℕ → Flat → Flat → Prop
  | kalloc {P : ℕ → ℕ} {L : Multiset ℕ} {f : ℕ} :
      FlatStep .kalloc (some f) ⟨P, f ::ₘ L⟩ ⟨P, L⟩
  | empty {a : Flat} : FlatStep .kalloc none a a
  | kfree {P : ℕ → ℕ} {L : Multiset ℕ} {f : ℕ} :
      FlatStep (.kfree f) (some 0) ⟨P, L⟩ ⟨P, f ::ₘ L⟩
  | mappages {P : ℕ → ℕ} {L L' : Multiset ℕ} {va size f perm : ℕ} (hL : L' ≤ L) :
      FlatStep (.mappages va size f perm) (some 0) ⟨P, L⟩
        ⟨put P (va / PGSIZE) (lastPage va size - va / PGSIZE + 1) f perm, L'⟩
  | short {P : ℕ → ℕ} {L L' : Multiset ℕ} {va size f perm n : ℕ} (hL : L' ≤ L)
      (hn : n ≤ lastPage va size - va / PGSIZE) :
      FlatStep (.mappages va size f perm) none ⟨P, L⟩ ⟨put P (va / PGSIZE) n f perm, L'⟩
  | deallocuvm {P : ℕ → ℕ} {L : Multiset ℕ} {oldsz newsz : ℕ} :
      FlatStep (.deallocuvm oldsz newsz) (some (min oldsz newsz)) ⟨P, L⟩
        ⟨unmap P (roundUp newsz) (roundUp oldsz),
          L + ∑ v ∈ Finset.Ico (roundUp newsz) (roundUp oldsz), entryPage (P v)⟩
  | clearpteu {P : ℕ → ℕ} {L : Multiset ℕ} {v : ℕ} :
      FlatStep (.clearpteu v) (some 0) ⟨P, L⟩ ⟨update P v (noUser (P v)), L⟩

inductive FlatRun (a₀ : Flat) : List (Update × Option ℕ) → Flat → Prop
  | nil : FlatRun a₀ [] a₀
  | step {tr : List (Update × Option ℕ)} {u : Update} {r : Option ℕ} {a a' : Flat}
      (h : FlatRun a₀ tr a) (hu : FlatStep u r a a') : FlatRun a₀ (tr ++ [(u, r)]) a'

structure Shows (d : ℕ) (s : Phys) (a : Flat) : Prop where
  map : pte s.mem d = a.map
  free : ∃ l : List ℕ, s.Free l ∧ (l : Multiset ℕ) = a.free

section
variable {P : ℕ → ℕ} {v n f perm : ℕ}

theorem put_zero : put P v 0 f perm = P := by
  funext x
  exact if_neg (by omega)

theorem put_succ :
    put (update P v (mkPte f perm)) (v + 1) n (f + 1) perm = put P v (n + 1) f perm := by
  funext x
  unfold put
  by_cases hx : x = v
  · subst hx
    rw [if_neg (by omega), if_pos (by omega), update_self, Nat.sub_self, Nat.add_zero]
  · rw [update_of_ne hx]
    by_cases hin : v + 1 ≤ x ∧ x < v + 1 + n
    · rw [if_pos hin, if_pos (by omega), show f + 1 + (x - (v + 1)) = f + (x - v) by omega]
    · rw [if_neg hin, if_neg (by omega)]

theorem userPages_put (hv : v + n ≤ KERNPAGE) (hperm : perm < PGSIZE)
    (hP : ∀ x, v ≤ x → x < v + n → ¬Present (P x)) :
    userPages (put P v n f perm) = (range' f n : Multiset ℕ) + userPages P := by
  induction n generalizing P v f with
  | zero => rw [put_zero, List.range'_zero, coe_nil, zero_add]
  | succ n ih =>
    have hP' : ∀ x, v + 1 ≤ x → x < v + 1 + n → ¬Present (update P v (mkPte f perm) x) := by
      intro x h1 h2
      rw [update_of_ne (by omega)]
      exact hP x (by omega) (by omega)
    rw [← put_succ, ih (by omega) hP', userPages_map (by omega) (hP v le_rfl (by omega)) hperm,
      range'_succ, ← cons_coe, add_cons, cons_add]

theorem sum_unmap {lo hi : ℕ} (hhi : hi ≤ n) :
    ∑ v ∈ Finset.range n, entryPage (unmap P lo hi v) + ∑ v ∈ Finset.Ico lo hi, entryPage (P v) =
      ∑ v ∈ Finset.range n, entryPage (P v) := by
  have hsub : Finset.Ico lo hi = {v ∈ Finset.range n | lo ≤ v ∧ v < hi} := by
    ext v
    simp only [Finset.mem_Ico, Finset.mem_filter, Finset.mem_range]
    omega
  rw [hsub, Finset.sum_filter, ← Finset.sum_add_distrib]
  refine Finset.sum_congr rfl fun v _ => ?_
  unfold unmap
  by_cases hin : lo ≤ v ∧ v < hi
  · rw [if_pos hin]
    by_cases hp : Present (P v)
    · rw [if_pos ⟨hin.1, hin.2, hp⟩, show entryPage 0 = 0 from rfl, zero_add]
    · rw [if_neg (fun h => hp h.2.2), entryPage, if_neg hp, add_zero]
  · rw [if_neg hin, if_neg (fun h => hin ⟨h.1, h.2.1⟩), add_zero]

theorem userPages_unmap_add {hi : ℕ} (hhi : hi ≤ KERNPAGE) (lo : ℕ) :
    userPages (unmap P lo hi) + ∑ v ∈ Finset.Ico lo hi, entryPage (P v) = userPages P := by
  unfold userPages
  exact sum_unmap hhi

end

section
variable {k : Layout} {F : Prop} {M Y : Multiset ℕ} {m0 : Mem} {d f v : ℕ} {T : ℕ → Option ℕ}
  {P : ℕ → ℕ} (hM : M.Nodup) (hok : ∀ f ∈ M, k.Ok f)
include hM hok

theorem mapLoop_user {perm n : ℕ} (hn : v + n < KERNPAGE) (hperm : perm < PGSIZE)
    (hP : ∀ x, v ≤ x → x ≤ v + n → ¬Present (P x)) (hf : ∀ i ≤ n, f + i ∈ M) :
    Triple (Has F M m0 d T P ((range' f (n + 1) : Multiset ℕ) + Y))
      (mapLoop k d perm n v f)
      (fun r s => ∃ T' j, Extends T T' ∧
        Has F M m0 d T' (put P v j f perm) ((range' (f + j) (n + 1 - j) : Multiset ℕ) + Y) s ∧
        if r then j = n + 1
        else j ≤ n ∧ Short F M (1026 + card (userPages P) + n + card Y))
      Never := by
  induction n generalizing v f T P with
  | zero =>
    refine (mapPage_user hM hok hn (hP v le_rfl le_rfl) (hf 0 le_rfl) hperm).post (fun r s ⟨T', hT,
      _, hs⟩ => ?_)
    cases r with
    | false =>
      refine ⟨T', 0, hT, ?_, le_rfl, hs.2.mono (by omega)⟩
      rw [put_zero]
      exact hs.1
    | true =>
      refine ⟨T', 1, hT, ?_, rfl⟩
      rw [← put_succ, put_zero, Nat.add_sub_cancel, List.range'_zero, coe_nil, zero_add]
      exact hs
  | succ n ih =>
    have hsplit : (range' f (n + 1 + 1) : Multiset ℕ) + Y =
        f ::ₘ ((range' (f + 1) (n + 1) : Multiset ℕ) + Y) := by
      rw [range'_succ, ← cons_coe, cons_add]
    have hvlt : v + 1 < 2 ^ 20 := by
      simp only [KERNPAGE, KERNBASE, PGSIZE] at hn
      omega
    have hflt : f + 1 < 2 ^ 20 := by
      have := (hok _ (hf 1 (by omega))).2
      simp only [PHYSTOP] at this
      omega
    rw [hsplit]
    refine .bind (mapPage_user hM hok (by omega) (hP v le_rfl (by omega))
      (hf 0 (Nat.zero_le _)) hperm) fun r => .of_exists fun T' => .of_and fun hT =>
      .of_and fun _ => ?_
    cases r with
    | false =>
      refine .pure fun s hs => ⟨T', 0, hT, ?_, Nat.zero_le _, hs.2.mono ?_⟩
      · rw [put_zero, Nat.add_zero, Nat.sub_zero, hsplit]
        exact hs.1
      · rw [Multiset.card_add, coe_card, List.length_range']
        omega
    | true =>
      have hP' : ∀ x, v + 1 ≤ x → x ≤ v + 1 + n → ¬Present (update P v (mkPte f perm) x) := by
        intro x h1 h2
        rw [update_of_ne (by omega)]
        exact hP x (by omega) (by omega)
      rw [if_pos rfl, Nat.mod_eq_of_lt hvlt, Nat.mod_eq_of_lt hflt]
      refine (ih (by omega) hP' fun i hi => ?_).post (fun r s ⟨T'', j, hT', hs, hr⟩ => ?_)
      · rw [Nat.add_assoc]
        exact hf (1 + i) (by omega)
      refine ⟨T'', j + 1, hT.trans hT', ?_, ?_⟩
      · rw [← put_succ, show f + (j + 1) = f + 1 + j by omega,
          show n + 1 + 1 - (j + 1) = n + 1 - j by omega]
        exact hs
      rw [userPages_map (by omega) (hP v le_rfl (by omega)) hperm, card_cons] at hr
      cases r with
      | true => exact congrArg (· + 1) hr
      | false => exact ⟨Nat.succ_le_succ hr.1, hr.2.mono (by omega)⟩

theorem mappages_range {va size perm : ℕ} (hle : va / PGSIZE ≤ lastPage va size)
    (hlast : lastPage va size < KERNPAGE) (hperm : perm < PGSIZE)
    (hP : ∀ x, va / PGSIZE ≤ x → x ≤ lastPage va size → ¬Present (P x))
    (hf : ∀ i ≤ lastPage va size - va / PGSIZE, f + i ∈ M) :
    Triple (Has F M m0 d T P
        ((range' f (lastPage va size - va / PGSIZE + 1) : Multiset ℕ) + Y))
      (mappages k d va size f perm)
      (fun r s => ∃ T' j, Extends T T' ∧
        Has F M m0 d T' (put P (va / PGSIZE) j f perm)
          ((range' (f + j) (lastPage va size - va / PGSIZE + 1 - j) : Multiset ℕ) + Y) s ∧
        if r then j = lastPage va size - va / PGSIZE + 1
        else j ≤ lastPage va size - va / PGSIZE ∧
          Short F M (1026 + card (userPages P) + (lastPage va size - va / PGSIZE) +
            card Y))
      Never := by
  have hturns : (lastPage va size + 2 ^ 20 - va / PGSIZE) % 2 ^ 20 =
      lastPage va size - va / PGSIZE := by
    simp only [KERNPAGE, KERNBASE, PGSIZE] at *
    omega
  have hloop : mappages k d va size f perm =
      mapLoop k d perm (lastPage va size - va / PGSIZE) (va / PGSIZE) f :=
    congrArg (mapLoop k d perm · _ f) hturns
  rw [hloop]
  exact mapLoop_user hM hok (by omega) hperm (fun x h1 h2 => hP x h1 (by omega)) hf

end

section
variable {k : Layout} {M : Finset ℕ} {m0 : Mem} {d f : ℕ} {T : ℕ → Option ℕ} {P : ℕ → ℕ}
  {Y : Multiset ℕ} {s : Phys} {a : Flat}

structure InOrder (k : Layout) (M : Finset ℕ) (m₀ : Mem) (d : ℕ) (s : Phys) : Prop where
  has : ∃ T P Y, Has True M.val m₀ d T P Y s
  kern : ∀ v, KERNPAGE ≤ v → pte s.mem d v = kernelMap k v

theorem kva_injective : Function.Injective kva := by
  intro f g h
  unfold kva at h
  simp only [PGSIZE] at h
  omega

section
variable (h : Has True M.val m0 d T P Y s)
include h

theorem Has.free_eq (ha : Shows d s a) : a.free + (dirPages d T P + Y) = M.val := by
  obtain ⟨l, hl, hsum⟩ := h.work.free
  obtain ⟨l', hl', hfree⟩ := ha.free
  rw [← hfree, hl'.unique hl kva_ne_zero kva_injective]
  exact hsum

theorem Has.shows {L : Multiset ℕ} (hL : L + (dirPages d T P + Y) = M.val) : Shows d s ⟨P, L⟩ := by
  obtain ⟨l, hl, hsum⟩ := h.work.free
  refine ⟨h.pte, l, hl, ?_⟩
  rw [← hL] at hsum
  exact add_right_cancel hsum

theorem Has.held (hf : Held M d s f) : f ∈ Y := by
  obtain ⟨l, hl, hsum⟩ := h.work.free
  have hmem : f ∈ (l : Multiset ℕ) + (dirPages d T P + Y) := hsum ▸ hf.stock
  have hother := hf.other
  rw [h.tab, h.pte] at hother
  rcases Multiset.mem_add.1 hmem with hfree | hmem
  · exact absurd hfree (hf.busy l hl)
  · exact (Multiset.mem_add.1 hmem).resolve_left hother

theorem Has.take {n : ℕ} (hf : ∀ i ≤ n, Held M d s (f + i)) :
    ∃ Y', Y = (range' f (n + 1) : Multiset ℕ) + Y' := by
  have hnd : (range' f (n + 1) : Multiset ℕ).Nodup :=
    Multiset.coe_nodup.2 List.nodup_range'
  refine Multiset.le_iff_exists_add.1 ((Multiset.le_iff_subset hnd).2 fun g hg => ?_)
  obtain ⟨i, hi, rfl⟩ := List.mem_range'.1 (Multiset.mem_coe.1 hg)
  rw [Nat.one_mul]
  exact h.held (hf i (by omega))

end

def Follows (k : Layout) (M : Finset ℕ) (m₀ : Mem) (d : ℕ) (a : Flat) (u : Update)
    (r : Option ℕ) (s : Phys) : Prop :=
  InOrder k M m₀ d s ∧ ∃ a', FlatStep u r a a' ∧ Shows d s a'

theorem Has.follows {u : Update} {r : Option ℕ} {L : Multiset ℕ} (h : Has True M.val m0 d T P Y s)
    (hkern : ∀ v, KERNPAGE ≤ v → P v = kernelMap k v) (hL : L + (dirPages d T P + Y) = M.val)
    (hu : FlatStep u r a ⟨P, L⟩) : Follows k M m0 d a u r s :=
  ⟨⟨⟨T, P, Y, h⟩, fun v hv => (congrFun h.pte v).trans (hkern v hv)⟩, _, hu, h.shows hL⟩

def NoTable (d : ℕ) (s : Phys) (u : Update) (e : Panic) : Prop :=
  e = .clearpteu ∧ ∃ v, u = .clearpteu v ∧ tab s.mem d (v / 1024) = none

section
variable {L : Multiset ℕ} (hok : ∀ f ∈ M, k.Ok f)
  (hkern : ∀ v, KERNPAGE ≤ v → P v = kernelMap k v) (hL : L + (dirPages d T P + Y) = M.val)
include hok hkern hL

theorem kalloc_follows :
    Triple (Has True M.val m0 d T P Y) (Update.run k d .kalloc)
      (Follows k M m0 d ⟨P, L⟩ .kalloc) Never := by
  refine (Has.kalloc M.nodup hok).post fun r s hs => ?_
  cases r with
  | none => exact hs.2.follows hkern hL .empty
  | some f =>
    obtain ⟨l, -, hsum⟩ := hs.2.work.free
    have hLl : L = f ::ₘ (l : Multiset ℕ) := by
      rw [← hL, add_cons, add_cons, ← cons_add] at hsum
      exact (add_right_cancel hsum).symm
    rw [hLl]
    exact hs.2.follows hkern hsum .kalloc

theorem kfree_follows (hf : f ∈ Y) :
    Triple (Has True M.val m0 d T P Y) (Update.run k d (.kfree f))
      (Follows k M m0 d ⟨P, L⟩ (.kfree f)) Never := by
  obtain ⟨Y', rfl⟩ := Multiset.exists_cons_of_mem hf
  have hfM : f ∈ M.val := by
    rw [← hL]
    exact Multiset.mem_add.2 (.inr (Multiset.mem_add.2 (.inr hf)))
  refine .bind (Has.kfree M.nodup hok hfM) fun _ => .pure fun s hs => ?_
  refine hs.follows hkern ?_ .kfree
  rw [← hL, add_cons, add_cons, cons_add]

omit hok hkern in
theorem free_of_put {T' : ℕ → Option ℕ} {v n j perm : ℕ} {Y' : Multiset ℕ} (hT : Extends T T')
    (hv : v + n ≤ KERNPAGE) (hj : j ≤ n) (hperm : perm < PGSIZE)
    (hP : ∀ x, v ≤ x → x < v + n → ¬Present (P x))
    (hY : Y = (range' f n : Multiset ℕ) + Y')
    (hs : Has True M.val m0 d T' (put P v j f perm)
      ((range' (f + j) (n - j) : Multiset ℕ) + Y') s) :
    ∃ L' ≤ L, L' + (dirPages d T' (put P v j f perm) +
      ((range' (f + j) (n - j) : Multiset ℕ) + Y')) = M.val := by
  obtain ⟨l, -, hsum⟩ := hs.work.free
  obtain ⟨C, hC⟩ := Multiset.le_iff_exists_add.1 hT.tabPages_le
  refine ⟨l, Multiset.le_iff_exists_add.2 ⟨C, ?_⟩, hsum⟩
  have hrange : Y = (range' f j : Multiset ℕ) + ((range' (f + j) (n - j) : Multiset ℕ) + Y') := by
    rw [hY, ← add_assoc, coe_add, List.range'_append_1, Nat.add_sub_cancel' hj]
  rw [← hL, hrange, dirPages, dirPages, hC, userPages_put (by omega) hperm
    (fun x h1 h2 => hP x h1 (by omega)), ← singleton_add, ← singleton_add] at hsum
  refine add_right_cancel (b := {d} + (tabPages T + userPages P) + ((range' f j : Multiset ℕ) +
    ((range' (f + j) (n - j) : Multiset ℕ) + Y'))) ?_
  rw [← hsum]
  ac_rfl

theorem mappages_follows {va size perm : ℕ} (hle : va / PGSIZE ≤ lastPage va size)
    (hlast : lastPage va size < KERNPAGE) (hperm : perm < PGSIZE)
    (hP : ∀ x, va / PGSIZE ≤ x → x ≤ lastPage va size → ¬Present (P x)) {Y' : Multiset ℕ}
    (hY : Y = (range' f (lastPage va size - va / PGSIZE + 1) : Multiset ℕ) + Y') :
    Triple (Has True M.val m0 d T P Y) (Update.run k d (.mappages va size f perm))
      (Follows k M m0 d ⟨P, L⟩ (.mappages va size f perm)) Never := by
  have hf : ∀ i ≤ lastPage va size - va / PGSIZE, f + i ∈ M.val := by
    intro i hi
    rw [← hL, hY]
    refine Multiset.mem_add.2 (.inr (Multiset.mem_add.2 (.inr (Multiset.mem_add.2 (.inl ?_)))))
    exact List.mem_range'.2 ⟨i, by omega, by rw [Nat.one_mul]⟩
  have hput {j v : ℕ} (hj : j ≤ lastPage va size - va / PGSIZE + 1) (hv : KERNPAGE ≤ v) :
      put P (va / PGSIZE) j f perm v = kernelMap k v := by
    rw [put, if_neg (by omega)]
    exact hkern v hv
  have hpages {x : ℕ} (h1 : va / PGSIZE ≤ x)
      (h2 : x < va / PGSIZE + (lastPage va size - va / PGSIZE + 1)) : ¬Present (P x) :=
    hP x h1 (by omega)
  have hstart : ∀ s, Has True M.val m0 d T P Y s → Has True M.val m0 d T P
      ((range' f (lastPage va size - va / PGSIZE + 1) : Multiset ℕ) + Y') s :=
    fun s hs => hY ▸ hs
  refine .bind ((mappages_range M.nodup hok hle hlast hperm hP hf).pre hstart)
    fun r => .of_exists fun T' => .of_exists fun j => .of_and fun hT => ?_
  cases r with
  | true =>
    refine .pure fun s ⟨hs, hj⟩ => ?_
    obtain rfl : j = _ := hj
    obtain ⟨L', hle', hL'⟩ := free_of_put hL hT (by omega) le_rfl hperm (fun x => hpages) hY hs
    exact hs.follows (fun v => hput le_rfl) hL' (.mappages hle')
  | false =>
    refine .pure fun s ⟨hs, hj, _⟩ => ?_
    obtain ⟨L', hle', hL'⟩ := free_of_put hL hT (by omega) (Nat.le_succ_of_le hj) hperm
      (fun x => hpages) hY hs
    exact hs.follows (fun v => hput (Nat.le_succ_of_le hj)) hL' (.short hle' hj)

theorem deallocuvm_follows {oldsz newsz : ℕ} (hold : oldsz ≤ KERNBASE) :
    Triple (Has True M.val m0 d T P Y) (Update.run k d (.deallocuvm oldsz newsz))
      (Follows k M m0 d ⟨P, L⟩ (.deallocuvm oldsz newsz)) Never := by
  have hhi : roundUp oldsz ≤ KERNPAGE := by
    unfold roundUp
    simp only [KERNPAGE, KERNBASE, PGSIZE] at *
    omega
  have hstep {s : Phys} (hs : Has True M.val m0 d T (unmap P (roundUp newsz) (roundUp oldsz)) Y s) :
      Follows k M m0 d ⟨P, L⟩ (.deallocuvm oldsz newsz) (some (min oldsz newsz)) s := by
    refine hs.follows (fun v hv => ?_) ?_ .deallocuvm
    · rw [unmap, if_neg (by omega)]
      exact hkern v hv
    · have hsum := userPages_unmap_add (P := P) hhi (roundUp newsz)
      rw [← hL, dirPages, dirPages, ← hsum, ← singleton_add, ← singleton_add]
      ac_rfl
  by_cases hlt : newsz < oldsz
  · refine .bind (deallocuvm_spec M.nodup hok hold hlt) fun r => .of_and fun hr =>
      .pure fun s hs => ?_
    have hmin : r = min oldsz newsz := hr.trans (min_eq_right hlt.le).symm
    rw [hmin]
    exact hstep hs
  have hle : roundUp oldsz ≤ roundUp newsz := by
    unfold roundUp
    exact Nat.div_le_div_right (by omega)
  rw [unmap_of_le hle, min_eq_left (by omega)] at hstep
  have hcall : deallocuvm k d oldsz newsz = pure oldsz := if_pos (by omega)
  show Triple _ (deallocuvm k d oldsz newsz >>= fun sz => pure (some sz)) _ _
  rw [hcall]
  exact .pure fun s hs => hstep hs

omit hok in
theorem clearpteu_follows {v : ℕ} :
    Triple (Has True M.val m0 d T P Y) (Update.run k d (.clearpteu v))
      (Follows k M m0 d ⟨P, L⟩ (.clearpteu v))
      fun e _ => e = .clearpteu ∧ T (v / 1024) = none := by
  refine .bind (clearpteu_entry M.nodup) fun _ => .pure fun s hs => ?_
  refine hs.follows (fun x hx => ?_) ?_ .clearpteu
  · by_cases hxv : x = v
    · subst hxv
      rw [update_self, hkern x hx, noUser, if_neg (kernelMap_not_user x)]
    · rw [update_of_ne hxv]
      exact hkern x hx
  · rw [dirPages, userPages_noUser]
    exact hL

end

theorem run_follows (hok : ∀ f ∈ M, k.Ok f) (h : InOrder k M m0 d s) (ha : Shows d s a)
    {u : Update} (hu : u.Fits M d s) :
    Triple (· = s) (u.run k d) (Follows k M m0 d a u) fun e _ => NoTable d s u e := by
  obtain ⟨T, P, Y, hs⟩ := h.has
  have hkern : ∀ v, KERNPAGE ≤ v → P v = kernelMap k v :=
    fun v hv => (congrFun hs.pte v).symm.trans (h.kern v hv)
  obtain ⟨P', L⟩ := a
  obtain rfl : P = P' := hs.pte.symm.trans ha.map
  have hL : L + (dirPages d T P + Y) = M.val := hs.free_eq ha
  have hstart : ∀ s', s' = s → Has True M.val m0 d T P Y s' := by
    rintro _ rfl
    exact hs
  cases u with
  | kalloc => exact ((kalloc_follows hok hkern hL).panics _).pre hstart
  | kfree f => exact ((kfree_follows hok hkern hL (hs.held hu)).panics _).pre hstart
  | mappages va size f perm =>
    obtain ⟨hle, hlast, hperm, hP, hf⟩ := hu
    obtain ⟨Y', hY⟩ := hs.take hf
    rw [hs.pte] at hP
    exact ((mappages_follows hok hkern hL hle hlast hperm hP hY).panics _).pre hstart
  | deallocuvm oldsz newsz => exact ((deallocuvm_follows hok hkern hL hu).panics _).pre hstart
  | clearpteu v =>
    exact (clearpteu_follows hkern hL).conseq hstart (fun _ _ h => h)
      fun e _ he => ⟨he.1, v, rfl, (congrFun hs.tab _).trans he.2⟩

theorem directory_refines_flat (hok : ∀ f ∈ M, k.Ok f) {s₀ t : Phys} {l : List ℕ}
    (hfree : s₀.Free l) (hl : (l : Multiset ℕ) ≤ M.val)
    (hset : (setupkvm k).result s₀ = (.ok (some d), s)) {tr : List (Update × Option ℕ)}
    (ht : exec (step k d) s tr = some t)
    (hfits : EveryStep (step k d) s (fun s l => l.1.Fits M d s) tr) :
    ∃ a₀ a, Shows d s a₀ ∧ a₀.map = kernelMap k ∧ FlatRun a₀ tr a ∧ Shows d t a ∧
      (∀ v, KERNPAGE ≤ v → a.map v = kernelMap k v) ∧
      ∀ u, u.Fits M d t →
        Prog.Ends (fun r t' => ∃ a', FlatStep u r a a' ∧ Shows d t' a')
          (fun e _ => NoTable d t u e) ((u.run k d).result t) := by
  have hwork : Work True M.val s₀.mem (M.val - l) s₀ :=
    ⟨⟨l, hfree, add_tsub_cancel_of_le hl⟩, fun _ _ => rfl, fun h => absurd trivial h⟩
  obtain ⟨T, -, hs⟩ : ∃ T, (∀ i, T i = none ∨ Within (kmap k) i) ∧
      Has True M.val s₀.mem d T (kernelMap k) (M.val - l) s := by
    have h := (setupkvm_spec M.nodup hok).ends s₀ hwork
    rw [hset] at h
    exact h
  obtain ⟨l', hl', hsum⟩ := hs.work.free
  have h₀ : Shows d s ⟨kernelMap k, l'⟩ := hs.shows hsum
  have hrun := exec_guarded_history
    (fun tr t => InOrder k M s₀.mem d t ∧ ∃ a, FlatRun ⟨kernelMap k, l'⟩ tr a ∧ Shows d t a)
    ⟨⟨⟨_, _, _, hs⟩, fun v _ => congrFun hs.pte v⟩, _, .nil, h₀⟩ ?_ ht hfits
  · obtain ⟨hord, a, hflat, ha⟩ := hrun
    refine ⟨⟨kernelMap k, l'⟩, a, h₀, rfl, hflat, ha, fun v hv => ?_, fun u hu => ?_⟩
    · rw [← ha.map]
      exact hord.kern v hv
    have h := (run_follows hok hord ha hu).ends t rfl
    rcases hr : (u.run k d).result t with ⟨r, t'⟩
    rw [hr] at h
    cases r with
    | ok r => exact h.2
    | error e => exact h
  · rintro tr t ⟨u, r⟩ t' ⟨hord, a, hflat, ha⟩ hu hstep
    have h := (run_follows hok hord ha hu).ends t rfl
    unfold step at hstep
    rcases hr : (u.run k d).result t with ⟨r', t''⟩
    rw [hr] at h
    rw [hr] at hstep
    cases r' with
    | error e => cases hstep
    | ok r' =>
      dsimp only at hstep
      split at hstep
      · rename_i heq
        cases hstep
        cases heq
        obtain ⟨hord', a', hflat', ha'⟩ := h
        exact ⟨hord', a', hflat.step hflat', ha'⟩
      · cases hstep

end

def smallKernel : Layout := ⟨0x101, 0x103, by decide, by decide, by decide⟩

def stock : Finset ℕ := Finset.Ico 0x103 PHYSTOP

theorem stock_ok : ∀ f ∈ stock, smallKernel.Ok f := fun _ hf => Finset.mem_Ico.1 hf

theorem stock_eq : stock.val = 0x103 ::ₘ (range' 0x104 (PHYSTOP - 0x104) : Multiset ℕ) := by
  have h : stock.val = (range' 0x103 (PHYSTOP - 0x103) : Multiset ℕ) := rfl
  have hn : PHYSTOP - 0x103 = PHYSTOP - 0x104 + 1 := by decide
  rw [h, hn, range'_succ, ← cons_coe]

theorem stock_card : card stock.val = 0xDEFD := by
  rw [stock_eq, card_cons, coe_card, List.length_range']
  rfl

theorem boot_work : ∃ s0 : Phys, Work False stock.val (fun _ => zeros) {0x103} s0 := by
  have hstart : Work False stock.val (fun _ => zeros)
      ((range' 0x104 (PHYSTOP - 0x104) : Multiset ℕ) + {0x103}) ⟨fun _ => zeros, 0, []⟩ := by
    refine ⟨⟨[], rfl, ?_⟩, fun _ _ => rfl, fun _ => rfl⟩
    rw [stock_eq, coe_nil, zero_add, add_comm, singleton_add]
  have hrange : ∀ g, 0x104 ≤ g → g < 0x104 + (PHYSTOP - 0x104) → g ∈ stock.val := by
    intro g h1 h2
    have hg : 0x103 ≤ g ∧ g < PHYSTOP := by
      simp only [PHYSTOP] at *
      omega
    exact Finset.mem_Ico.2 hg
  obtain ⟨-, s0, -, hs0⟩ := (freerange_spec stock.nodup stock_ok hrange).returns hstart
  exact ⟨s0, hs0⟩

theorem boot_free : ∃ (s : Phys) (l : List ℕ), s.Free l ∧ l.Nodup ∧ (∀ f ∈ l, smallKernel.Ok f) ∧
    s.fails = [] ∧ l.length = 0xDEFC := by
  obtain ⟨s, hs⟩ := boot_work
  obtain ⟨l, hl, hsum⟩ := hs.free
  have hle : (l : Multiset ℕ) ≤ stock.val := Multiset.le_iff_exists_add.2 ⟨_, hsum.symm⟩
  refine ⟨s, l, hl, coe_nodup.1 (Multiset.nodup_of_le hle stock.nodup),
    fun f hf => stock_ok f (Multiset.mem_of_le hle hf), hs.calm not_false, ?_⟩
  have hcard := congrArg card hsum
  rw [stock_card, Multiset.card_add, coe_card, Multiset.card_singleton] at hcard
  omega

theorem boot_setupkvm : ∃ (s0 : Phys) (l : List ℕ) (s : Phys) (d : ℕ) (T : ℕ → Option ℕ),
    s0.Free l ∧ (l : Multiset ℕ) ≤ stock.val ∧
    (setupkvm smallKernel).result s0 = (.ok (some d), s) ∧
    Has False stock.val (fun _ => zeros) d T (kernelMap smallKernel) {0x103} s := by
  obtain ⟨s0, hs0⟩ := boot_work
  obtain ⟨l, hl, hsum⟩ := hs0.free
  obtain ⟨r, s, hr, hs⟩ := (setupkvm_spec stock.nodup stock_ok).returns hs0
  cases r with
  | none =>
    have hcard := hs.2.resolve_left not_false
    rw [stock_card, Multiset.card_singleton] at hcard
    exact absurd hcard (by decide)
  | some d =>
    obtain ⟨T, -, hs⟩ := hs
    exact ⟨s0, l, s, d, T, hl, Multiset.le_iff_exists_add.2 ⟨_, hsum.symm⟩, hr, hs⟩

variable {k : Layout}

theorem Has.heldPage {F : Prop} {M : Finset ℕ} {m0 : Mem} {d f : ℕ} {T : ℕ → Option ℕ} {P : ℕ → ℕ}
    {Y : Multiset ℕ} {s : Phys} (h : Has F M.val m0 d T P Y s) (hf : f ∈ Y) : Held M d s f := by
  obtain ⟨l, hl, hsum⟩ := h.work.free
  have hnd := Multiset.nodup_add.1 (hsum ▸ M.nodup)
  have hfX : f ∈ dirPages d T P + Y := Multiset.mem_add.2 (.inr hf)
  refine ⟨?_, fun l' hl' hfl => ?_, fun hfd => ?_⟩
  · exact h.work.mem hfX
  · rw [hl'.unique hl kva_ne_zero kva_injective] at hfl
    exact Multiset.disjoint_left.1 hnd.2.2 (Multiset.mem_coe.2 hfl) hfX
  · rw [h.tab, h.pte] at hfd
    exact Multiset.disjoint_left.1 (Multiset.nodup_add.1 hnd.2.1).2.2 hfd hf

theorem directory_refines_flat_boot : ∃ (s₀ s t : Phys) (d : ℕ) (a : Flat),
    (setupkvm smallKernel).result s₀ = (.ok (some d), s) ∧
    exec (step smallKernel d) s [(.mappages 0 PGSIZE 0x103 (PTE_W + PTE_U), some 0)] = some t ∧
    Shows d t a ∧ ∀ v, KERNPAGE ≤ v → a.map v = kernelMap smallKernel v := by
  obtain ⟨s₀, l, s, d, T, hl, hle, hset, hs⟩ := boot_setupkvm
  have hP : ∀ x, 0 / PGSIZE ≤ x → x ≤ lastPage 0 PGSIZE → ¬Present (kernelMap smallKernel x) := by
    intro x _ hx
    rw [kernelMap_user (hx.trans_lt (by decide))]
    decide
  have hin : ∀ i ≤ lastPage 0 PGSIZE - 0 / PGSIZE, 0x103 + i ∈ ({0x103} : Multiset ℕ) := by
    intro i hi
    obtain rfl : i = 0 := Nat.le_zero.1 hi
    exact Multiset.mem_singleton_self _
  have hcall : Prog.Triple (Has False stock.val (fun _ => zeros) d T (kernelMap smallKernel)
      ((List.range' 0x103 (lastPage 0 PGSIZE - 0 / PGSIZE + 1) : Multiset ℕ) + 0))
      (mappages smallKernel d 0 PGSIZE 0x103 (PTE_W + PTE_U)) _ _ :=
    mappages_range stock.nodup stock_ok (by decide) (by decide) (by decide) hP
      fun i hi => (hs.heldPage (hin i hi)).stock
  obtain ⟨r, t, hr, T', j, -, -, hj⟩ := hcall.returns hs
  cases r with
  | false =>
    have hcard := hj.2.resolve_left not_false
    rw [stock_card, userPages_kernelMap, Multiset.card_zero] at hcard
    exact absurd hcard (by decide)
  | true =>
    have hstep : step smallKernel d s (.mappages 0 PGSIZE 0x103 (PTE_W + PTE_U), some 0) =
        some t := by
      unfold step Update.run
      rw [Prog.result_bind, hr]
      rfl
    have hrun := exec_cons hstep []
    have hfits : Update.Fits stock d s (.mappages 0 PGSIZE 0x103 (PTE_W + PTE_U)) :=
      ⟨by decide, by decide, by decide, by rw [hs.pte]; exact hP,
        fun i hi => hs.heldPage (hin i hi)⟩
    obtain ⟨a₀, a, -, -, -, ha, hkern, -⟩ := directory_refines_flat stock_ok hl hle hset hrun
      (.cons everyStep_nil hstep hfits)
    exact ⟨s₀, s, t, d, a, hset, hrun, ha, hkern⟩

theorem mapPage_any {F : Prop} {M Y : Multiset ℕ} {m0 : Mem} {d f v perm : ℕ}
    {T : ℕ → Option ℕ} {P : ℕ → ℕ} (hM : M.Nodup) (hok : ∀ f ∈ M, k.Ok f) (hv : v < 2 ^ 20)
    (hP : ¬Present (P v)) (hf : f < 2 ^ 20) (hperm : perm < PGSIZE) :
    Triple (Has F M m0 d T P Y) (mapPage k d v f perm)
      (fun r s =>
        if r then ∃ t, tab s.mem d (v / 1024) = some t ∧ entry (s.mem t) (v % 1024) = mkPte f perm
        else F ∨ dirPages d T P + Y = M)
      Never := by
  unfold mapPage
  refine .bind (walkpgdir_spec hM hok hv) fun r => ?_
  cases r with
  | none => exact .pure fun s hs => hs.2
  | some t =>
    refine .of_and fun _ => ?_
    have ht : update T (v / 1024) (some t) (v / 1024) = some t :=
      update_self ..
    refine .bind (Has.load ht _) fun w => .of_and fun hw => ?_
    subst hw
    rw [if_neg hP]
    refine .bind (R := fun _ (s : Phys) => ∃ t, tab s.mem d (v / 1024) = some t ∧
      entry (s.mem t) (v % 1024) = mkPte f perm) (.modify fun s hs => ?_) fun _ =>
      .pure fun s hs => hs
    obtain ⟨hd, -, -, -⟩ := dirPages_nodup (hs.nodup hM)
    have htd : d ≠ t := by
      rintro rfl
      exact hd (mem_tabPages.2 ⟨v / 1024, by omega, ht⟩)
    refine ⟨t, ?_, ?_⟩
    · exact (congrFun (tab_congr (s.setPage_of_ne _ htd)) _).trans (by rw [hs.tab, ht])
    · rw [Phys.setPage_self]
      exact entry_setEntry _ (by omega) (mkPte_lt hf hperm)

theorem deallocuvm_zero {d t perm : ℕ} {s : Phys} (ht : tab s.mem d (0 / 1024) = some t)
    (hw : entry (s.mem t) (0 % 1024) = mkPte 0 perm) (hperm : perm < PGSIZE) :
    ((deallocuvm k d PGSIZE 0).result s).1 = .error .kfree := by
  have hp : Present (entry (s.mem t) (0 % 1024)) := hw ▸ present_mkPte 0 perm
  have hf : frame (entry (s.mem t) (0 % 1024)) = 0 := hw ▸ frame_mkPte hperm
  have hloop : (deallocLoop k d PGSIZE 2 0).result s = (.error .kfree, s) := by
    have hwalk : (walkpgdir k d 0 false).result s = (.ok (some t), s) := by
      unfold walkpgdir
      rw [result_read_bind, ht]
      rfl
    rw [deallocLoop, if_pos (by decide), result_bind, hwalk]
    dsimp only
    rw [result_bind]
    show (if Present (entry (s.mem t) (0 % 1024)) then
      if frame (entry (s.mem t) (0 % 1024)) = 0 then .panic .kfree else _ else _ : Op Unit).result s
        = _
    rw [if_pos hp, if_pos hf]
    rfl
  have hcall : deallocuvm k d PGSIZE 0 = (do
      deallocLoop k d PGSIZE 2 0
      pure 0) := rfl
  rw [hcall, result_bind, hloop]

theorem map_page_zero : ∃ (s₀ s t : Phys) (l : List ℕ) (d : ℕ),
    s₀.Free l ∧ (l : Multiset ℕ) ≤ stock.val ∧
    (setupkvm smallKernel).result s₀ = (.ok (some d), s) ∧
    (∀ v, v ≤ lastPage 0 PGSIZE → ¬Present (pte s.mem d v)) ∧
    (mappages smallKernel d 0 PGSIZE 0 (PTE_W + PTE_U)).result s = (.ok true, t) ∧
    ((deallocuvm smallKernel d PGSIZE 0).result t).1 = .error .kfree := by
  obtain ⟨s₀, l, s, d, T, hl, hle, hset, hs⟩ := boot_setupkvm
  have hP : ∀ x, x ≤ lastPage 0 PGSIZE → ¬Present (kernelMap smallKernel x) := by
    intro x hx
    rw [kernelMap_user (hx.trans_lt (by decide))]
    decide
  have hcall : Prog.Triple (Has False stock.val (fun _ => zeros) d T (kernelMap smallKernel)
      {0x103}) (mapPage smallKernel d 0 0 (PTE_W + PTE_U)) _ _ :=
    mapPage_any stock.nodup stock_ok (by decide) (hP 0 (by decide)) (by decide) (by decide)
  obtain ⟨r, t, hr, ht⟩ := hcall.returns hs
  cases r with
  | false =>
    have hcard := (short_of_eq ht).resolve_left not_false
    rw [stock_card, userPages_kernelMap, Multiset.card_zero, Multiset.card_singleton] at hcard
    exact absurd hcard (by decide)
  | true =>
    obtain ⟨u, hu, hw⟩ := ht
    have hfresh : ∀ x, x ≤ lastPage 0 PGSIZE → ¬Present (pte s.mem d x) := by
      rw [hs.pte]
      exact hP
    refine ⟨s₀, s, t, l, d, hl, hle, hset, hfresh, ?_, deallocuvm_zero hu hw (by decide)⟩
    have hpage : mappages smallKernel d (0 * PGSIZE) PGSIZE 0 (PTE_W + PTE_U) =
        mapPage smallKernel d 0 0 (PTE_W + PTE_U) := mappages_page (by decide)
    rw [Nat.zero_mul] at hpage
    rw [hpage, hr]

end Xv6.Vm
