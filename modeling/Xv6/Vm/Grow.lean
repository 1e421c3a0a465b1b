import Xv6.Vm.Kernel

namespace Xv6.Vm

open Lib Function
open Multiset (card card_cons mem_cons_self)

def Grown (P P' : ℕ → ℕ) (lo hi : ℕ) : Prop :=
  ∀ x, if lo ≤ x ∧ x < hi then ∃ f, P' x = mkPte f (PTE_W + PTE_U) else P' x = P x

theorem Grown.refl (P : ℕ → ℕ) (lo : ℕ) : Grown P P lo lo := by
  intro x
  rw [if_neg (by omega)]

variable {P P' : ℕ → ℕ} {lo v : ℕ}

theorem Grown.step {f : ℕ} (h : Grown P P' lo v) (hv : lo ≤ v) :
    Grown P (update P' v (mkPte f (PTE_W + PTE_U))) lo (v + 1) := by
  intro x
  have hx := h x
  by_cases hxv : x = v
  · subst hxv
    rw [if_pos (by omega)]
    exact ⟨f, update_self ..⟩
  rw [update_of_ne hxv]
  by_cases hin : lo ≤ x ∧ x < v
  · rw [if_pos hin] at hx
    rw [if_pos (by omega)]
    exact hx
  · rw [if_neg hin] at hx
    rw [if_neg (by omega)]
    exact hx

def Undone (P P' : ℕ → ℕ) : Prop := ∀ x, P' x = P x ∨ ¬Present (P x) ∧ P' x = 0

theorem Undone.present_iff (h : Undone P P') (x : ℕ) : Present (P' x) ↔ Present (P x) := by
  rcases h x with hx | hx
  · rw [hx]
  · rw [hx.2]
    exact ⟨fun h0 => absurd h0 Nat.zero_ne_one, fun hp => absurd hp hx.1⟩

theorem Undone.eq_of_present (h : Undone P P') {x : ℕ} (hp : Present (P x)) :
    P' x = P x := (h x).resolve_right fun hx => hx.1 hp

variable {hi : ℕ}

theorem Undone.eq (h : Undone P P') (hout : ∀ x, ¬(lo ≤ x ∧ x < hi) → P' x = P x)
    (hP : ∀ x, lo ≤ x → x < hi → P x = 0) : P' = P := by
  funext x
  by_cases hin : lo ≤ x ∧ x < hi
  · rcases h x with hx | hx
    · exact hx
    · rw [hx.2, hP x hin.1 hin.2]
  · exact hout x hin

theorem Grown.undone (h : Grown P P' lo v) (hv : v ≤ hi)
    (hP : ∀ x, lo ≤ x → x < hi → ¬Present (P x)) : Undone P (Vm.unmap P' lo hi) := by
  intro x
  have hx := h x
  unfold Vm.unmap
  by_cases hin : lo ≤ x ∧ x < v
  · rw [if_pos hin] at hx
    obtain ⟨f, hf⟩ := hx
    rw [if_pos ⟨hin.1, by omega, hf ▸ present_mkPte _ _⟩]
    exact .inr ⟨hP x hin.1 (by omega), rfl⟩
  rw [if_neg hin] at hx
  rw [hx]
  split
  · rename_i hc
    exact absurd hc.2.2 (hP x hc.1 hc.2.1)
  · exact .inl rfl

theorem Grown.unmap_of_not (h : Grown P P' lo v) (hv : v ≤ hi) (x : ℕ) (hin : ¬(lo ≤ x ∧ x < hi)) :
    Vm.unmap P' lo hi x = P x := by
  have hx := h x
  rw [if_neg (by omega)] at hx
  rw [Vm.unmap, if_neg (fun hc => hin ⟨hc.1, hc.2.1⟩), hx]

def zeroed (C : ℕ → Bytes PGSIZE) (lo hi v : ℕ) : Bytes PGSIZE :=
  if lo ≤ v ∧ v < hi then zeros else C v

theorem zeroed_self (C : ℕ → Bytes PGSIZE) (lo : ℕ) : zeroed C lo lo = C := by
  funext x
  exact if_neg (by omega)

theorem zeroed_succ (C : ℕ → Bytes PGSIZE) (h : lo ≤ v) :
    update (zeroed C lo v) v zeros = zeroed C lo (v + 1) := by
  funext x
  unfold zeroed
  by_cases hx : x = v
  · subst hx
    rw [update_self, if_pos (by omega)]
  · rw [update_of_ne hx]
    by_cases hin : lo ≤ x ∧ x < v
    · rw [if_pos hin, if_pos (by omega)]
    · rw [if_neg hin, if_neg (by omega)]

def Extends (T T' : ℕ → Option ℕ) : Prop := ∀ i, T i = none ∨ T' i = T i

variable {T : ℕ → Option ℕ}

theorem Extends.trans {T' T'' : ℕ → Option ℕ} (h : Extends T T') (h' : Extends T' T'') :
    Extends T T'' := by
  intro i
  rcases h i with h | h
  · exact .inl h
  · rcases h' i with h' | h'
    · exact .inl (h ▸ h')
    · exact .inr (h'.trans h)

theorem Extends.update {i t : ℕ} (h : T i = none ∨ T i = some t) :
    Extends T (update T i (some t)) := by
  intro j
  by_cases hj : j = i
  · subst hj
    rw [update_self]
    exact h.imp_right Eq.symm
  · exact .inr (update_of_ne hj _ _)

theorem Extends.tabPages_le {T' : ℕ → Option ℕ} (h : Extends T T') : tabPages T ≤ tabPages T' := by
  unfold tabPages
  generalize Finset.range 1024 = I
  refine Finset.sum_le_sum fun i _ => ?_
  rcases h i with h | h
  · rw [h]
    exact Multiset.zero_le _
  · rw [h]

section
variable {k : Layout} {F : Prop} {M Y : Multiset ℕ} {m0 : Mem} {d f v : ℕ} {T : ℕ → Option ℕ}
  {P : ℕ → ℕ} {C : ℕ → Bytes PGSIZE} {b : Bytes PGSIZE} (hM : M.Nodup) (hok : ∀ f ∈ M, k.Ok f)
include hM

theorem Holds.write (hf : f ∈ Y) (g : Phys → Bytes PGSIZE) (hg : ∀ s, Holds F M m0 d T P C Y s →
    g s = b) (E : Panic → Phys → Prop) :
    Triple (Holds F M m0 d T P C Y) (.modify fun s => s.setPage f (g s) : Op Unit)
      (fun _ s => s.mem f = b ∧ Holds F M m0 d T P C Y s) E := by
  refine .modify fun s hs => ⟨(s.setPage_self f _).trans (hg s hs),
    hs.setPage hM _ (.inr hf), fun x hx hp => ?_⟩
  have hne : frame (P x) ≠ f := by
    intro h
    have hdisj := (Multiset.nodup_add.1 (hs.work.nodup hM)).2.2
    exact Multiset.disjoint_left.1 hdisj (mem_dirPages_user hx hp) (h ▸ hf)
  rw [s.setPage_of_ne _ hne]
  exact hs.data x hx hp
include hok

variable {perm : ℕ}

section
variable (hv : v < KERNPAGE) (hP : ¬Present (P v)) (hfM : f ∈ M) (hperm : perm < PGSIZE)
include hv hP hfM hperm

theorem mapPage_holds :
    Triple (fun s => s.mem f = b ∧ Holds F M m0 d T P C (f ::ₘ Y) s) (mapPage k d v f perm)
      (fun r s => ∃ T', Extends T T' ∧ MoreTables T T' (v / 1024) (v / 1024) ∧
        if r then
          Holds F M m0 d T' (update P v (mkPte f perm)) (update C v b) Y s
        else Holds F M m0 d T' P C (f ::ₘ Y) s ∧
          Short F M (1026 + card (userPages P) + card Y))
      Never := by
  have hv' : v < 2 ^ 20 := by
    simp only [KERNPAGE, KERNBASE, PGSIZE] at hv
    omega
  have hf : f < 2 ^ 20 := by
    have := (hok f hfM).2
    simp only [PHYSTOP] at this
    omega
  have hY : userPages (update P v (mkPte f perm)) + Y = userPages P + f ::ₘ Y := by
    rw [userPages_map hv hP hperm, Multiset.cons_add, Multiset.add_cons]
  refine .of_state fun s0 ⟨hb, hs0⟩ => ?_
  have hstart : ∀ s, s = s0 → Has F M m0 d T P (f ::ₘ Y) s ∧ s.mem = s0.mem := by
    rintro _ rfl
    exact ⟨hs0.toHas, rfl⟩
  refine ((mapPage_frame hM hok hv' hP hf hperm hY s0.mem).pre hstart).post
    fun r s ⟨hagree, hs⟩ => ?_
  cases r with
  | true =>
    obtain ⟨t, ht, hs⟩ := hs
    refine ⟨_, .update ht, .update T _ _, hs, fun x hx hp => ?_⟩
    by_cases hxv : x = v
    · subst hxv
      rw [update_self, update_self, frame_mkPte hperm, ← hb]
      exact hagree f (Multiset.mem_add.2 (.inr (mem_cons_self ..)))
    · rw [update_of_ne hxv] at hp
      rw [update_of_ne hxv, update_of_ne hxv, hagree _ (mem_rest_user hx hp)]
      exact hs0.data x hx hp
  | false =>
    refine ⟨T, fun _ => .inr rfl, fun _ => .inl rfl, hs0.agree hs.1 hagree,
      (short_of_eq hs.2).mono ?_⟩
    rw [card_cons]
    omega

theorem mapPage_user
    :
    Triple (Has F M m0 d T P (f ::ₘ Y)) (mapPage k d v f perm)
      (fun r s => ∃ T', Extends T T' ∧ MoreTables T T' (v / 1024) (v / 1024) ∧
        if r then Has F M m0 d T' (update P v (mkPte f perm)) Y s
        else Has F M m0 d T' P (f ::ₘ Y) s ∧
          Short F M (1026 + card (userPages P) + card Y))
      Never := by
  refine .of_state fun s hs => ?_
  have hstart : ∀ s', s' = s → s'.mem f = s.mem f ∧
      Holds F M m0 d T P (fun v => s.mem (frame (P v))) (f ::ₘ Y) s' := by
    rintro _ rfl
    exact ⟨rfl, hs.holds⟩
  refine ((mapPage_holds hM hok hv hP hfM hperm).pre hstart).post
    fun r s1 ⟨T', h1, h2, h3⟩ => ⟨T', h1, h2, ?_⟩
  cases r with
  | true => exact h3.toHas
  | false => exact ⟨h3.1.toHas, h3.2⟩

theorem mappages_user : Triple (fun s => s.mem f = b ∧ Holds F M m0 d T P C (f ::ₘ Y) s)
      (mappages k d (v * PGSIZE) PGSIZE f perm)
      (fun r s => ∃ T', Extends T T' ∧ MoreTables T T' (v / 1024) (v / 1024) ∧
        if r then
          Holds F M m0 d T' (update P v (mkPte f perm)) (update C v b) Y s
        else Holds F M m0 d T' P C (f ::ₘ Y) s ∧
          Short F M (1026 + card (userPages P) + card Y))
      Never := by
  have hv' : v < 2 ^ 20 := by
    simp only [KERNPAGE, KERNBASE, PGSIZE] at hv
    omega
  rw [mappages_page hv']
  exact mapPage_holds hM hok hv hP hfM hperm

end

theorem allocBack_spec {oldsz newsz : ℕ} {P1 : ℕ → ℕ} (hnew : newsz < KERNBASE)
    (hP : ∀ x, roundUp oldsz ≤ x → x < roundUp newsz → ¬Present (P x)) (hlo : roundUp oldsz ≤ v)
    (hlt : v < roundUp newsz) (hgrown : Grown P P1 (roundUp oldsz) v) :
    Triple (Holds F M m0 d T P1 (zeroed C (roundUp oldsz) v) Y) (deallocuvm k d newsz oldsz)
      (fun _ s => ∃ P', Undone P P' ∧
        (∀ x, ¬(roundUp oldsz ≤ x ∧ x < roundUp newsz) → P' x = P x) ∧
        Holds F M m0 d T P' C Y s) Never := by
  have hsz : oldsz < newsz := by
    have := lt_roundUp.1 hlt
    have : oldsz ≤ roundUp oldsz * PGSIZE := by
      unfold roundUp
      simp only [PGSIZE]
      omega
    have := Nat.mul_le_mul_right PGSIZE hlo
    omega
  have hback := hgrown.undone hlt.le hP
  refine (deallocuvm_holds hM hok hnew.le hsz).post fun r s hs =>
    ⟨_, hback, hgrown.unmap_of_not hlt.le, hs.2.congr fun x _ hp => ?_⟩
  have hx := (hback.present_iff x).1 hp
  exact (if_neg fun hin => hP x hin.1 (hin.2.trans hlt) hx).symm

theorem allocLoop_spec {oldsz newsz turns : ℕ} {P1 : ℕ → ℕ} (hnew : newsz < KERNBASE)
    (hP : ∀ x, roundUp oldsz ≤ x → x < roundUp newsz → ¬Present (P x))
    (hlo : roundUp oldsz ≤ v) (hhi : v ≤ roundUp newsz) (hturns : roundUp newsz ≤ v + turns)
    (hgrown : Grown P P1 (roundUp oldsz) v)
    (hcard : card (userPages P1) = card (userPages P) + (v - roundUp oldsz)) :
    Triple (Holds F M m0 d T P1 (zeroed C (roundUp oldsz) v) Y)
      (allocLoop k d oldsz newsz turns v)
      (fun r s => ∃ T', Extends T T' ∧ MoreTables T T' (v / 1024) (roundUp newsz / 1024) ∧
        (r = newsz ∧ (∃ P', Grown P P' (roundUp oldsz) (roundUp newsz) ∧
            Holds F M m0 d T' P' (zeroed C (roundUp oldsz) (roundUp newsz)) Y s) ∨
          r = 0 ∧ (∃ P', Undone P P' ∧
              (∀ x, ¬(roundUp oldsz ≤ x ∧ x < roundUp newsz) → P' x = P x) ∧
              Holds F M m0 d T' P' C Y s) ∧
            Short F M (1026 + card (userPages P) + (roundUp newsz - roundUp oldsz) +
              card Y)))
      Never := by
  have hkern : roundUp newsz ≤ KERNPAGE := by
    unfold roundUp
    simp only [KERNPAGE, KERNBASE, PGSIZE] at *
    omega
  induction turns generalizing v T P1 with
  | zero =>
    obtain rfl : v = roundUp newsz := by omega
    exact .pure fun s hs => ⟨T, fun _ => .inr rfl, fun _ => .inl rfl, .inl ⟨rfl, P1, hgrown, hs⟩⟩
  | succ turns ih =>
    unfold allocLoop
    refine .ite (fun hlt => ?_) fun hge => ?_
    · have hlt := lt_roundUp.2 hlt
      have hnot : ¬Present (P1 v) := by
        have hx := hgrown v
        rw [if_neg (by omega)] at hx
        rw [hx]
        exact hP v hlo hlt
      refine .bind (Holds.kalloc hM hok) fun r => ?_
      cases r with
      | none =>
        refine .of_and fun hfull => .bind
          (allocBack_spec hM hok hnew hP hlo hlt hgrown) fun _ => .pure fun s hs =>
          ⟨T, fun _ => .inr rfl, fun _ => .inl rfl, .inr ⟨rfl, hs, (short_of_eq hfull).mono ?_⟩⟩
        omega
      | some f =>
        refine .of_and fun hfM => .bind
          (Holds.write hM (mem_cons_self f Y) (fun _ => zeros) (fun _ _ => rfl) _)
          fun _ => .bind (mappages_user hM hok (by omega) hnot hfM (by decide))
          fun r => .of_exists fun T' => .of_and fun hext => .of_and fun hT => ?_
        have hT1 : MoreTables T T' (v / 1024) (roundUp newsz / 1024) := fun i =>
          (hT i).imp_right fun h => ⟨h.1, h.2.trans (Nat.div_le_div_right (by omega))⟩
        cases r with
        | true =>
          have hcard' : card (userPages (update P1 v (mkPte f (PTE_W + PTE_U)))) =
              card (userPages P) + (v + 1 - roundUp oldsz) := by
            rw [userPages_map (by omega) hnot (by decide), card_cons, hcard]
            omega
          rw [if_pos rfl, zeroed_succ C hlo]
          refine (ih (by omega) (by omega) (by omega) (hgrown.step hlo) hcard').post
            fun r s ⟨T'', hext', hT'', h⟩ =>
              ⟨T'', hext.trans hext', hT.trans hT'' ?_ ?_, h⟩
          · exact Nat.div_le_div_right (by omega)
          · exact Nat.div_le_div_right (by omega)
        | false =>
          refine .of_state fun s ⟨hs, hshort⟩ => ?_
          have hstart : ∀ s', s' = s →
              Holds F M m0 d T' P1 (zeroed C (roundUp oldsz) v) (f ::ₘ Y) s' := by
            rintro _ rfl
            exact hs
          refine .bind ((allocBack_spec hM hok hnew hP hlo hlt hgrown).pre hstart)
            fun _ => .of_exists fun P' => .of_and fun hback => .of_and fun hout =>
            Prog.Triple.bind (Holds.kfree hM hok hfM) fun _ => .pure fun s1 hs1 =>
            ⟨T', hext, hT1, .inr ⟨rfl, ⟨P', hback, hout, hs1⟩, hshort.mono ?_⟩⟩
          omega
    · have hge : ¬v < roundUp newsz := fun h => hge (lt_roundUp.1 h)
      obtain rfl : v = roundUp newsz := by omega
      exact .pure fun s hs =>
        ⟨T, fun _ => .inr rfl, fun _ => .inl rfl, .inl ⟨rfl, P1, hgrown, hs⟩⟩

end

inductive AllocEnd (F : Prop) (M : Multiset ℕ) (m₀ : Mem) (d : ℕ) (P : ℕ → ℕ)
    (C : ℕ → Bytes PGSIZE) (Y : Multiset ℕ) (oldsz newsz : ℕ) (T' : ℕ → Option ℕ) (s : Phys) :
    ℕ → Prop where
  | failed (P' : ℕ → ℕ) (hback : Undone P P')
      (hout : ∀ x, KERNBASE ≤ newsz ∨ ¬(roundUp oldsz ≤ x ∧ x < roundUp newsz) → P' x = P x)
      (h : Holds F M m₀ d T' P' C Y s)
      (why : KERNBASE ≤ newsz ∨ Short F M (1026 + Multiset.card (userPages P) +
        (roundUp newsz - roundUp oldsz) + Multiset.card Y)) :
      AllocEnd F M m₀ d P C Y oldsz newsz T' s 0
  | smaller (hnew : newsz < KERNBASE) (hlt : newsz < oldsz) (h : Holds F M m₀ d T' P C Y s) :
      AllocEnd F M m₀ d P C Y oldsz newsz T' s oldsz
  | grown (hnew : newsz < KERNBASE) (hle : oldsz ≤ newsz) (P' : ℕ → ℕ)
      (hP : Grown P P' (roundUp oldsz) (roundUp newsz))
      (h : Holds F M m₀ d T' P' (zeroed C (roundUp oldsz) (roundUp newsz)) Y s) :
      AllocEnd F M m₀ d P C Y oldsz newsz T' s newsz

variable {k : Layout} {F : Prop} {M Y : Multiset ℕ} {m0 : Mem} {d : ℕ} {T : ℕ → Option ℕ}
  {P : ℕ → ℕ} {C : ℕ → Bytes PGSIZE} (hM : M.Nodup) (hok : ∀ f ∈ M, k.Ok f)
include hM hok

theorem allocuvm_spec {oldsz newsz : ℕ}
    (hP : newsz < KERNBASE → ∀ x, roundUp oldsz ≤ x → x < roundUp newsz → ¬Present (P x)) :
    Triple (Holds F M m0 d T P C Y) (allocuvm k d oldsz newsz)
      (fun r s => ∃ T', Extends T T' ∧
        MoreTables T T' (roundUp oldsz / 1024) (roundUp newsz / 1024) ∧
        AllocEnd F M m0 d P C Y oldsz newsz T' s r)
      Never := by
  have hrefl : Extends T T ∧ MoreTables T T (roundUp oldsz / 1024) (roundUp newsz / 1024) :=
    ⟨fun _ => .inr rfl, fun _ => .inl rfl⟩
  unfold allocuvm
  refine .ite (fun hge => ?_) fun hnew => .ite (fun hlt => ?_) fun hle => ?_
  · exact .pure fun s hs => ⟨T, hrefl.1, hrefl.2,
      .failed P (fun _ => .inl rfl) (fun _ _ => rfl) hs (.inl hge)⟩
  · exact .pure fun s hs => ⟨T, hrefl.1, hrefl.2, .smaller (by omega) hlt hs⟩
  have hup : roundUp oldsz ≤ roundUp newsz := Nat.div_le_div_right (by omega)
  have hturns : roundUp newsz ≤ roundUp oldsz + (newsz / PGSIZE + 1) := by
    unfold roundUp
    simp only [PGSIZE]
    omega
  have hstart : ∀ s, Holds F M m0 d T P C Y s →
      Holds F M m0 d T P (zeroed C (roundUp oldsz) (roundUp oldsz)) Y s := by
    intro s hs
    rwa [zeroed_self]
  refine ((allocLoop_spec hM hok (by omega) (hP (by omega)) le_rfl hup hturns (.refl P _)
    (by omega)).pre hstart).post fun r s ⟨T', hext, hT, h⟩ => ⟨T', hext, hT, ?_⟩
  rcases h with ⟨rfl, P', hg, hs⟩ | ⟨rfl, ⟨P', hback, hout, hs⟩, hshort⟩
  · exact .grown (by omega) (by omega) P' hg hs
  · exact .failed P' hback (fun x hx => hout x (hx.resolve_left hnew)) hs (.inr hshort)

end Xv6.Vm
