import Xv6.Vm.Resize

namespace Xv6.Vm

open Lib
open Multiset (card)

def pagesOf (s : Phys) (d : ℕ) : Multiset ℕ := dirPages d (tab s.mem d) (pte s.mem d)

structure Poke where
  dir : ℕ
  addr : ℕ
  val : UInt8

def poke (s : Phys) (w : Poke) : Phys :=
  let e := pte s.mem w.dir (w.addr / PGSIZE)
  if w.addr / PGSIZE < KERNPAGE ∧ Present e then
    s.setPage (frame e) (patch (s.mem (frame e)) (w.addr % PGSIZE) 1 fun _ => w.val)
  else s

def pokes (s : Phys) (ws : List Poke) : Phys := ws.foldl poke s

def SameView (d : ℕ) (s t : Phys) : Prop :=
  ∀ v < KERNPAGE, pte s.mem d v = pte t.mem d v ∧
    (Present (pte s.mem d v) → content s.mem d v = content t.mem d v)

structure Private (D : Set ℕ) (s : Phys) : Prop where
  nodup : ∀ d ∈ D, (pagesOf s d).Nodup
  disjoint : ∀ d ∈ D, ∀ e ∈ D, d ≠ e → Disjoint (pagesOf s d) (pagesOf s e)

section
variable {D : Set ℕ} {d f v : ℕ} {s t : Phys} {w : Poke}

theorem dir_mem_pagesOf : d ∈ pagesOf s d := mem_dirPages_self

theorem tab_mem_pagesOf {i p : ℕ} (h : tab s.mem d i = some p) : p ∈ pagesOf s d :=
  mem_dirPages_tab (tab_lt h) h

section
variable (h : Agree (pagesOf t d) t.mem s)
include h

theorem dir_of_agree : tab s.mem d = tab t.mem d ∧ pte s.mem d = pte t.mem d :=
  ⟨tab_congr (h d dir_mem_pagesOf),
    pte_congr (h d dir_mem_pagesOf) fun _ p hp => h p (tab_mem_pagesOf hp)⟩

theorem pagesOf_of_agree : pagesOf s d = pagesOf t d := by
  rw [pagesOf, (dir_of_agree h).1, (dir_of_agree h).2, pagesOf]

theorem sameView_of_agree : SameView d s t := by
  intro v hv
  have hpte := congrFun (dir_of_agree h).2 v
  refine ⟨hpte, fun hp => ?_⟩
  rw [hpte] at hp
  unfold content
  rw [hpte, h _ (mem_dirPages_user hv hp)]

end

theorem poke_cases (s : Phys) (w : Poke) :
    poke s w = s ∨ ∃ b, ∃ f ∈ userPages (pte s.mem w.dir), poke s w = s.setPage f b := by
  unfold poke
  dsimp only
  split
  next h => exact .inr ⟨_, _, mem_userPages.2 ⟨_, h.1, h.2, rfl⟩, rfl⟩
  next => exact .inl rfl

theorem user_mem_pagesOf (h : f ∈ userPages (pte s.mem d)) : f ∈ pagesOf s d :=
  Multiset.mem_cons_of_mem (Multiset.mem_add.2 (.inr h))

theorem pagesOf_poke_self (hnd : (pagesOf s w.dir).Nodup) :
    pte (poke s w).mem w.dir = pte s.mem w.dir ∧ pagesOf (poke s w) w.dir = pagesOf s w.dir := by
  rcases poke_cases s w with h | ⟨b, f, hf, h⟩
  · rw [h]
    exact ⟨rfl, rfl⟩
  obtain ⟨-, hd, -, ht⟩ := dirPages_nodup hnd
  have hne : f ≠ w.dir := by
    intro heq
    rw [heq] at hf
    exact hd hf
  have hdir := dir_update_of_not_mem (m := s.mem) b hne fun hmem => ht f hmem hf
  rw [h]
  refine ⟨hdir.2, ?_⟩
  show dirPages _ (tab (Function.update s.mem f b) _) (pte (Function.update s.mem f b) _) = _
  rw [hdir.1, hdir.2]
  rfl

theorem agree_poke_of_disjoint (h : Disjoint (pagesOf s d) (pagesOf s w.dir)) :
    Agree (pagesOf s d) s.mem (poke s w) := by
  intro g hg
  rcases poke_cases s w with h' | ⟨b, f, hf, h'⟩
  · rw [h']
  · have hne : g ≠ f := by
      rintro rfl
      exact Multiset.disjoint_left.1 h hg (user_mem_pagesOf hf)
    rw [h', s.setPage_of_ne b hne]

theorem Private.pair {e : ℕ} (hd : (pagesOf s d).Nodup) (he : (pagesOf s e).Nodup)
    (h : Disjoint (pagesOf s d) (pagesOf s e)) : Private {d, e} s where
  nodup := by
    rintro _ (rfl | rfl)
    · exact hd
    · exact he
  disjoint := by
    rintro _ (rfl | rfl) _ (rfl | rfl) hne
    · exact absurd rfl hne
    · exact h
    · exact h.symm
    · exact absurd rfl hne

theorem Private.pagesOf_poke (h : Private D s) (hw : w.dir ∈ D) (hd : d ∈ D) :
    pagesOf (poke s w) d = pagesOf s d := by
  by_cases heq : d = w.dir
  · subst heq
    exact (pagesOf_poke_self (h.nodup _ hd)).2
  · exact pagesOf_of_agree (agree_poke_of_disjoint (h.disjoint d hd w.dir hw heq))

theorem Private.poke (h : Private D s) (hw : w.dir ∈ D) : Private D (poke s w) where
  nodup d hd := by
    rw [h.pagesOf_poke hw hd]
    exact h.nodup d hd
  disjoint d hd e he hne := by
    rw [h.pagesOf_poke hw hd, h.pagesOf_poke hw he]
    exact h.disjoint d hd e he hne

theorem agree_poke_self (hnd : (pagesOf t w.dir).Nodup) (h : Agree (pagesOf t w.dir) t.mem s) :
    Agree (pagesOf (poke t w) w.dir) (poke t w).mem (poke s w) := by
  intro g hg
  rw [(pagesOf_poke_self hnd).2] at hg
  have hpte := congrFun (dir_of_agree h).2 (w.addr / PGSIZE)
  unfold poke
  rw [hpte]
  dsimp only
  split
  next hp =>
    rw [h _ (mem_dirPages_user hp.1 hp.2)]
    by_cases heq : g = frame (pte t.mem w.dir (w.addr / PGSIZE))
    · rw [heq, Phys.setPage_self, Phys.setPage_self]
    · rw [s.setPage_of_ne _ heq, t.setPage_of_ne _ heq, h g hg]
  next => exact h g hg

theorem agree_pokes {ws : List Poke} (hs : Private D s) (hd : d ∈ D) (hws : ∀ w ∈ ws, w.dir ∈ D)
    (h : Agree (pagesOf t d) t.mem s) :
    Agree (pagesOf (pokes t (ws.filter (·.dir = d))) d) (pokes t (ws.filter (·.dir = d))).mem
      (pokes s ws) := by
  induction ws generalizing s t with
  | nil => exact h
  | cons w ws ih =>
    have hw := hws w List.mem_cons_self
    have hrest := fun w' hw' => hws w' (List.mem_cons_of_mem w hw')
    by_cases heq : w.dir = d
    · subst heq
      have hkeep : (w :: ws).filter (·.dir = w.dir) = w :: ws.filter (·.dir = w.dir) :=
        List.filter_cons_of_pos (decide_eq_true rfl)
      rw [hkeep]
      have hnd := hs.nodup w.dir hd
      rw [pagesOf_of_agree h] at hnd
      exact ih (hs.poke hw) hrest (agree_poke_self hnd h)
    · have hdrop : (w :: ws).filter (·.dir = d) = ws.filter (·.dir = d) :=
        List.filter_cons_of_neg (mt of_decide_eq_true heq)
      rw [hdrop]
      have hkeep := agree_poke_of_disjoint (hs.disjoint d hd w.dir hw (.symm heq))
      refine ih (hs.poke hw) hrest fun g hg => ?_
      have hg' : g ∈ pagesOf s d := by
        rw [pagesOf_of_agree h]
        exact hg
      rw [hkeep g hg', h g hg]

theorem Private.sameView {ws : List Poke} (h : Private D s) (hd : d ∈ D)
    (hws : ∀ w ∈ ws, w.dir ∈ D) : SameView d (pokes s ws) (pokes s (ws.filter (·.dir = d))) :=
  sameView_of_agree (agree_pokes h hd hws fun _ _ => rfl)

end

structure Clone (k : Layout) (d₀ sz d : ℕ) (s s' : Phys) : Prop where
  content : ∀ v < roundUp sz, content s'.mem d v = content s.mem d₀ v
  flags : ∀ v < roundUp sz, flags (pte s'.mem d v) = flags (pte s.mem d₀ v)
  above : ∀ v < KERNPAGE, roundUp sz ≤ v → ¬Present (pte s'.mem d v)
  kern : ∀ v, KERNPAGE ≤ v → pte s'.mem d v = kernelMap k v

section
variable {k : Layout} {M : Finset ℕ} {d₀ sz : ℕ} {Y : Multiset ℕ} {s : Phys}

theorem flags_mkPte {w : ℕ} (f : ℕ) (h : Present w) : flags (mkPte f (flags w)) = flags w := by
  unfold Present at h
  unfold mkPte flags
  simp only [PGSIZE] at *
  omega

theorem Owns.size_le (hok : ∀ f ∈ M, k.Ok f) (h : Owns M d₀ Y s)
    (hall : ∀ v < roundUp sz, Present (pte s.mem d₀ v)) : sz ≤ KERNBASE := by
  by_contra hlt
  have hup : KERNPAGE ≤ roundUp sz := by
    unfold roundUp
    simp only [KERNPAGE, KERNBASE, PGSIZE] at *
    omega
  have hsub : M ⊆ Finset.range PHYSTOP := fun f hf => Finset.mem_range.2 (hok f hf).2
  have hcard := Finset.card_le_card hsub
  have hle : userPages (pte s.mem d₀) ≤ M.val := by
    refine le_trans ?_ h.has.work.le
    rw [dirPages, ← Multiset.singleton_add, add_assoc, add_assoc]
    exact (Multiset.le_add_right _ _).trans
      ((Multiset.le_add_left _ _).trans (Multiset.le_add_left _ _))
  have hpages := Multiset.card_le_card hle
  rw [card_userPages le_rfl fun v hv => iff_of_true (hall v (hv.trans_le hup)) hv] at hpages
  rw [Finset.card_range] at hcard
  have hval : card M.val = M.card := rfl
  simp only [KERNPAGE, KERNBASE, PGSIZE, PHYSTOP] at *
  omega

theorem Owns.work (h : Owns M d₀ Y s) : ∃ l : List ℕ, s.Free l ∧ (l : Multiset ℕ) ≤ M.val ∧
    (∀ f ∈ pagesOf s d₀, f ∉ l) ∧ Work True (l : Multiset ℕ) s.mem 0 s := by
  obtain ⟨l, hl, hsum⟩ := h
  have hdisj := (Multiset.nodup_add.1 (hsum ▸ M.nodup)).2.2
  refine ⟨l, hl, Multiset.le_iff_exists_add.2 ⟨_, hsum.symm⟩, fun f hf hfl => ?_, hl.work⟩
  exact Multiset.disjoint_left.1 hdisj (Multiset.mem_coe.2 hfl) (Multiset.mem_add.2 (.inl hf))

theorem Owns.copyuvm {F : Prop} {l : List ℕ} (hok : ∀ f ∈ M, k.Ok f) (h : Owns M d₀ Y s)
    (hall : ∀ v < roundUp sz, Present (pte s.mem d₀ v)) (hl : s.Free l)
    (hw : Work F (l : Multiset ℕ) s.mem 0 s) :
    ∃ r s', (copyuvm k d₀ sz).result s = (.ok r, s') ∧
      match r with
      | none => Work F (l : Multiset ℕ) s.mem 0 s' ∧
          Short F (l : Multiset ℕ) (1026 + roundUp sz)
      | some d => ∃ T P, Copied (pte s.mem d₀) (kernelMap k) P (roundUp sz) ∧
          Holds F (l : Multiset ℕ) s.mem d T P (content s.mem d₀) 0 s' := by
  have hsz := h.size_le hok hall
  obtain ⟨l', hl', hle, hnot, -⟩ := h.work
  obtain rfl := hl'.unique hl kva_ne_zero kva_injective
  have hnd : (l' : Multiset ℕ).Nodup := Multiset.nodup_of_le hle M.nodup
  have hokl : ∀ f ∈ (l' : Multiset ℕ), k.Ok f := fun f hf => hok f (Multiset.mem_of_le hle hf)
  have hapart : Apart (l' : Multiset ℕ) s.mem d₀ :=
    ⟨hnot d₀ dir_mem_pagesOf, fun i t ht => hnot t (tab_mem_pagesOf ht)⟩
  exact (copyuvm_spec hnd hokl hsz hapart fun x hx hp =>
    hnot _ (mem_dirPages_user (hx.trans_le (roundUp_le_KERNPAGE hsz)) hp)).returns_of
    (fun _ _ ⟨_, x, hx, hp⟩ => hp (hall x hx)) hw

theorem Owns.copyuvm_succeeds {l : List ℕ} (hok : ∀ f ∈ M, k.Ok f) (h : Owns M d₀ Y s)
    (hall : ∀ v < roundUp sz, Present (pte s.mem d₀ v)) (hl : s.Free l) (hcalm : s.fails = [])
    (hroom : 1026 + roundUp sz < l.length) :
    ∃ d s', (Vm.copyuvm k d₀ sz).result s = (.ok (some d), s') := by
  obtain ⟨r, s', hr, hs'⟩ := h.copyuvm hok hall hl (hl.calm hcalm)
  cases r with
  | none =>
    have hshort := hs'.2.resolve_left not_false
    rw [Multiset.coe_card] at hshort
    omega
  | some d => exact ⟨d, s', hr⟩

theorem Copied.clone {T : ℕ → Option ℕ} {P : ℕ → ℕ} {F : Prop} {L X : Multiset ℕ} {m0 : Mem}
    {d : ℕ} {s' : Phys} (hsz : sz ≤ KERNBASE) (hall : ∀ v < roundUp sz, Present (pte s.mem d₀ v))
    (hc : Copied (pte s.mem d₀) (kernelMap k) P (roundUp sz))
    (h : Holds F L m0 d T P (content s.mem d₀) X s') : Clone k d₀ sz d s s' where
  content v hv := by
    have hx := hc v
    rw [if_pos hv] at hx
    obtain ⟨f, hf⟩ := hx
    have hdata := h.data v (hv.trans_le (roundUp_le_KERNPAGE hsz)) (hf ▸ present_mkPte _ _)
    rwa [← h.pte] at hdata
  flags v hv := by
    have hx := hc v
    rw [if_pos hv] at hx
    obtain ⟨f, hf⟩ := hx
    rw [h.pte, hf, flags_mkPte f (hall v hv)]
  above v hv hge := by
    have hx := hc v
    rw [if_neg (by omega), kernelMap_user hv] at hx
    rw [h.pte, hx]
    exact Nat.zero_ne_one
  kern v hv := by
    have hup := roundUp_le_KERNPAGE hsz
    have hx := hc v
    rwa [if_neg (by omega), ← h.pte] at hx

theorem copyuvm_private (hok : ∀ f ∈ M, k.Ok f) (h : Owns M d₀ Y s)
    (hall : ∀ v < roundUp sz, Present (pte s.mem d₀ v)) :
    ∃ r s', (copyuvm k d₀ sz).result s = (.ok r, s') ∧ SameView d₀ s' s ∧
      (r = none → ∀ l, s.Free l → ∃ l', s'.Free l' ∧ l'.Perm l) ∧
      ∀ d, r = some d → Clone k d₀ sz d s s' ∧
        (∀ l, s.Free l → ∃ l' : List ℕ, s'.Free l' ∧ (l' : Multiset ℕ) + pagesOf s' d = l) ∧
        (∀ d', (∀ l, s.Free l → ∀ f ∈ pagesOf s d', f ∉ l) →
          pagesOf s' d' = pagesOf s d' ∧ Disjoint (pagesOf s' d) (pagesOf s' d')) ∧
        ∀ ws : List Poke, (∀ w ∈ ws, w.dir = d₀ ∨ w.dir = d) →
          SameView d (pokes s' ws) (pokes s' (ws.filter (·.dir = d))) ∧
          SameView d₀ (pokes s' ws) (pokes s' (ws.filter (·.dir = d₀))) := by
  have hsz := h.size_le hok hall
  have hnd₀ : (pagesOf s d₀).Nodup := h.has.nodup M.nodup
  obtain ⟨l, hl, hle, hnot, hw⟩ := h.work
  have hnd : (l : Multiset ℕ).Nodup := Multiset.nodup_of_le hle M.nodup
  have hfree : ∀ l', s.Free l' → l' = l := fun l' hl' => hl'.unique hl kva_ne_zero kva_injective
  obtain ⟨r, s', hr, hs'⟩ := h.copyuvm hok hall hl hw
  refine ⟨r, s', hr, ?_⟩
  cases r with
  | none =>
    refine ⟨sameView_of_agree fun f hf => hs'.1.rest f (hnot f hf), fun _ l₁ hl₁ => ?_,
      fun d hd => absurd hd nofun⟩
    obtain ⟨l', hl', hsum⟩ := hs'.1.free
    rw [add_zero] at hsum
    rw [hfree l₁ hl₁]
    exact ⟨l', hl', Multiset.coe_eq_coe.1 hsum⟩
  | some d =>
    obtain ⟨T, P, hc, hs'⟩ := hs'
    have hkeep : ∀ d', (∀ f ∈ pagesOf s d', f ∉ l) → Agree (pagesOf s d') s.mem s' :=
      fun d' hd' f hf => hs'.work.rest f (hd' f hf)
    have hpages : pagesOf s' d = dirPages d T P := by rw [pagesOf, hs'.tab, hs'.pte]
    have htaken : ∀ f ∈ pagesOf s' d, f ∈ l := fun f hf => hs'.mem_dir (hpages ▸ hf)
    have hdisj : ∀ d', (∀ f ∈ pagesOf s d', f ∉ l) →
        pagesOf s' d' = pagesOf s d' ∧ Disjoint (pagesOf s' d) (pagesOf s' d') := by
      intro d' hd'
      have heq := pagesOf_of_agree (hkeep d' hd')
      refine ⟨heq, Multiset.disjoint_left.2 ?_⟩
      intro f hf hf'
      exact hd' f (heq ▸ hf') (htaken f hf)
    have hpriv : Private {d₀, d} s' := by
      refine .pair ?_ ?_ (hdisj d₀ hnot).2.symm
      · rw [(hdisj d₀ hnot).1]
        exact hnd₀
      · rw [hpages]
        exact hs'.nodup hnd
    refine ⟨sameView_of_agree (hkeep d₀ hnot), fun hd => absurd hd nofun, ?_⟩
    rintro _ ⟨rfl⟩
    refine ⟨hc.clone hsz hall hs', fun l₁ hl₁ => ?_, fun d' hd' => hdisj d' (hd' l hl),
      fun ws hws => ⟨?_, ?_⟩⟩
    · obtain ⟨l', hl', hsum⟩ := hs'.work.free
      rw [add_zero] at hsum
      rw [hfree l₁ hl₁, hpages]
      exact ⟨l', hl', hsum⟩
    · exact hpriv.sameView (.inr rfl) hws
    · exact hpriv.sameView (.inl rfl) hws

end

theorem free_after_boot {d : ℕ} {s : Phys} (h : Proper stock d PGSIZE {0x103} s) :
    ∃ l : List ℕ, s.Free l ∧ 0xDAF9 ≤ l.length := by
  obtain ⟨l, hl, hsum⟩ := h.owns
  refine ⟨l, hl, ?_⟩
  have hcard := congrArg card hsum
  have hdir := card_dirPages (d := d) (T := tab s.mem d) (P := pte s.mem d)
  rw [card_userPages (roundUp_le_KERNPAGE h.le) h.low] at hdir
  have hone : roundUp PGSIZE = 1 := rfl
  rw [Multiset.card_add, Multiset.card_add, stock_card, Multiset.coe_card,
    Multiset.card_singleton] at hcard
  omega

theorem copyuvm_private_boot : ∃ (d₀ d : ℕ) (s s' : Phys), Proper stock d₀ PGSIZE {0x103} s ∧
    (copyuvm smallKernel d₀ PGSIZE).result s = (.ok (some d), s') ∧
    Clone smallKernel d₀ PGSIZE d s s' ∧ Disjoint (pagesOf s' d) (pagesOf s' d₀) ∧
    SameView d (pokes s' [⟨d₀, 0, 1⟩, ⟨d, 0, 2⟩])
      (pokes s' ([⟨d₀, 0, 1⟩, ⟨d, 0, 2⟩].filter (·.dir = d))) := by
  obtain ⟨d₀, s, hs, hcalm⟩ := boot_proper
  have hall : ∀ v < roundUp PGSIZE, Present (pte s.mem d₀ v) := fun v hv =>
    (hs.low v (hv.trans (by decide))).2 hv
  obtain ⟨r, s', hr, -, -, hcopy⟩ := copyuvm_private stock_ok hs.owns hall
  obtain ⟨l, hl, hroom⟩ := free_after_boot hs
  obtain ⟨d, t, ht⟩ := hs.owns.copyuvm_succeeds stock_ok hall hl hcalm
    (lt_of_lt_of_le (by decide) hroom)
  cases hr.symm.trans ht
  obtain ⟨hclone, -, hother, hstores⟩ := hcopy d rfl
  have hnot : ∀ l', s.Free l' → ∀ f ∈ pagesOf s d₀, f ∉ l' := by
    obtain ⟨l₁, hl₁, -, hnot, -⟩ := hs.owns.work
    intro l' hl'
    rw [hl'.unique hl₁ kva_ne_zero kva_injective]
    exact hnot
  refine ⟨d₀, d, s, s', hs, hr, hclone, (hother d₀ hnot).2, (hstores _ fun w hw => ?_).1⟩
  rcases List.mem_cons.1 hw with rfl | hw
  · exact .inl rfl
  · exact .inr (congrArg Poke.dir (List.mem_singleton.1 hw))

end Xv6.Vm
