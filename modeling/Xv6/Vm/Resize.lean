import Xv6.Vm.Refine

namespace Xv6.Vm

open Lib
open Multiset (card)

def Owns (M : Finset ℕ) (d : ℕ) (Y : Multiset ℕ) (s : Phys) : Prop :=
  ∃ l : List ℕ, s.Free l ∧
    (l : Multiset ℕ) + (dirPages d (tab s.mem d) (pte s.mem d) + Y) = M.val

def SamePage (d : ℕ) (s s' : Phys) (v : ℕ) : Prop :=
  pte s'.mem d v = pte s.mem d v ∧ content s'.mem d v = content s.mem d v

def SameUser (d : ℕ) (s s' : Phys) : Prop :=
  ∀ v < KERNPAGE, (Present (pte s'.mem d v) ↔ Present (pte s.mem d v)) ∧
    (Present (pte s.mem d v) → SamePage d s s' v)

def EmptyTable (d : ℕ) (s : Phys) (t : ℕ) : Prop :=
  (∃ i, tab s.mem d i = some t) ∧ s.mem t = zeros

structure NewPage (d : ℕ) (Y : Multiset ℕ) (s s' : Phys) (v : ℕ) : Prop where
  user : User (pte s'.mem d v)
  zero : content s'.mem d v = zeros
  free : ∀ l, s.Free l → frame (pte s'.mem d v) ∈ l
  alone : ∀ w < KERNPAGE, Present (pte s'.mem d w) →
    frame (pte s'.mem d w) = frame (pte s'.mem d v) → w = v
  other : ∀ d', dirPages d' (tab s'.mem d') (pte s'.mem d') ≤ Y →
    frame (pte s'.mem d v) ∉ dirPages d' (tab s'.mem d') (pte s'.mem d')

section
variable {k : Layout} {M : Finset ℕ} {d : ℕ} {Y : Multiset ℕ} {s s' : Phys} {T : ℕ → Option ℕ}
  {P : ℕ → ℕ} {m0 : Mem} {F : Prop}

theorem Owns.holds (h : Owns M d Y s) (hcalm : ¬F → s.fails = []) :
    Holds F M.val s.mem d (tab s.mem d) (pte s.mem d) (content s.mem d) Y s := by
  obtain ⟨l, hl, hsum⟩ := h
  exact ⟨⟨⟨⟨l, hl, hsum⟩, fun _ _ => rfl, hcalm⟩, rfl, rfl⟩, fun _ _ _ => rfl⟩

theorem Owns.has (h : Owns M d Y s) :
    Holds True M.val s.mem d (tab s.mem d) (pte s.mem d) (content s.mem d) Y s :=
  h.holds fun hF => absurd trivial hF

theorem Has.owns (h : Has F M.val m0 d T P Y s) : Owns M d Y s := by
  obtain ⟨l, hl, hsum⟩ := h.work.free
  rw [← h.tab, ← h.pte] at hsum
  exact ⟨l, hl, hsum⟩

theorem Owns.free_eq (h : Owns M d Y s) {l : List ℕ} (hl : s.Free l) :
    (l : Multiset ℕ) + (dirPages d (tab s.mem d) (pte s.mem d) + Y) = M.val := by
  obtain ⟨l', hl', hsum⟩ := h
  rw [hl.unique hl' kva_ne_zero kva_injective]
  exact hsum

theorem eq_zeros_of_entry {b : Bytes PGSIZE} (h : ∀ j < 1024, entry b j = 0) : b = zeros := by
  refine bytes_ext fun i hi => ?_
  have hdigit := getLE_digit b (4 * (i / 4)) (Nat.mod_lt i (show 0 < 4 by omega))
  have hzero : getLE b (4 * (i / 4)) 4 = 0 := h (i / 4) (by simp only [PGSIZE] at hi; omega)
  rw [hzero, Nat.zero_div, Nat.div_add_mod] at hdigit
  rw [byte_zeros, ← hdigit]
  rfl

theorem emptyTable_of_new (h : Has F M.val m0 d T P Y s) {i t : ℕ} (ht : T i = some t)
    (hP : ∀ v, v / 1024 = i → P v = 0) : EmptyTable d s t := by
  have htm : tab s.mem d i = some t := by rw [h.tab, ht]
  refine ⟨⟨i, htm⟩, eq_zeros_of_entry fun j hj => ?_⟩
  have hv : (i * 1024 + j) / 1024 = i ∧ (i * 1024 + j) % 1024 = j := by omega
  have hpte := pte_of_tab (m := s.mem) (d := d) (v := i * 1024 + j) (t := t) (by rw [hv.1, htm])
  rw [hv.2, h.pte, hP _ hv.1] at hpte
  exact hpte.symm

variable {T' : ℕ → Option ℕ} {P' : ℕ → ℕ} {L L' : Multiset ℕ}

theorem free_add_tabPages (hpages : userPages P' = userPages P)
    (hL : L + (dirPages d T P + Y) = M.val) (hL' : L' + (dirPages d T' P' + Y) = M.val) :
    L + tabPages T = L' + tabPages T' := by
  rw [← hL', dirPages, dirPages, hpages, ← Multiset.singleton_add, ← Multiset.singleton_add] at hL
  refine add_right_cancel (b := {d} + (userPages P + Y)) ?_
  calc L + tabPages T + ({d} + (userPages P + Y))
      = L + ({d} + (tabPages T + userPages P) + Y) := by ac_rfl
    _ = L' + ({d} + (tabPages T' + userPages P) + Y) := hL
    _ = L' + tabPages T' + ({d} + (userPages P + Y)) := by ac_rfl

theorem free_or_table (hext : Extends T T') (hsum : L + tabPages T = L' + tabPages T')
    (hnd : Disjoint L (tabPages T)) {f : ℕ} (hf : f ∈ L) :
    f ∈ L' ∨ ∃ i, T i = none ∧ T' i = some f := by
  have hmem : f ∈ L' + tabPages T' := hsum ▸ Multiset.mem_add.2 (.inl hf)
  refine (Multiset.mem_add.1 hmem).imp_right fun htab => ?_
  obtain ⟨i, hi, ht⟩ := mem_tabPages.1 htab
  refine ⟨i, (hext i).resolve_right fun h => ?_, ht⟩
  exact Multiset.disjoint_left.1 hnd hf (mem_tabPages.2 ⟨i, hi, h ▸ ht⟩)

theorem free_le (hext : Extends T T') (hsum : L + tabPages T = L' + tabPages T') : L' ≤ L := by
  refine le_of_add_le_add_right (a := tabPages T) ?_
  calc L' + tabPages T ≤ L' + tabPages T' := by
        gcongr
        exact hext.tabPages_le
    _ = L + tabPages T := hsum.symm

theorem Undone.userPages_eq {P : ℕ → ℕ} (h : Undone P P') : userPages P' = userPages P := by
  unfold userPages
  refine Finset.sum_congr rfl fun v _ => ?_
  unfold entryPage
  by_cases hp : Present (P v)
  · rw [h.eq_of_present hp]
  · rw [if_neg hp, if_neg (mt (h.present_iff v).1 hp)]

theorem Undone.sameUser (hback : Undone (pte s.mem d) P')
    (h' : Holds F M.val m0 d T' P' (content s.mem d) Y s') : SameUser d s s' := by
  intro v hv
  rw [h'.pte]
  refine ⟨hback.present_iff v, fun hp =>
    ⟨(congrFun h'.pte v).trans (hback.eq_of_present hp), ?_⟩⟩
  have hp' := (hback.present_iff v).2 hp
  unfold content
  rw [h'.pte, h'.data v hv hp']
  rfl

theorem Undone.taken (h : Owns M d Y s) (hext : Extends (tab s.mem d) T')
    (hback : Undone (pte s.mem d) P') (h' : Has F M.val m0 d T' P' Y s') {l l' : List ℕ}
    (hl : s.Free l) (hl' : s'.Free l') :
    (∀ f ∈ l', f ∈ l) ∧ ∀ f ∈ l, f ∈ l' ∨ EmptyTable d s' f := by
  have hfree := h.free_eq hl
  have hfree' := h'.owns.free_eq hl'
  rw [h'.tab, h'.pte] at hfree'
  have hsum := free_add_tabPages hback.userPages_eq hfree hfree'
  have hnd : Disjoint (l : Multiset ℕ) (tabPages (tab s.mem d)) := by
    rw [Multiset.disjoint_left]
    intro f hf ht
    have hdisj := (Multiset.nodup_add.1 (hfree ▸ M.nodup)).2.2
    obtain ⟨i, hi, ht⟩ := mem_tabPages.1 ht
    exact Multiset.disjoint_left.1 hdisj hf (Multiset.mem_add.2 (.inl (mem_dirPages_tab hi ht)))
  refine ⟨fun f hf => Multiset.mem_of_le (free_le hext hsum) hf, fun f hf => ?_⟩
  refine (free_or_table hext hsum hnd hf).imp_right fun ⟨i, hnone, ht⟩ => ?_
  refine emptyTable_of_new h' ht fun v hv => ?_
  have hzero : pte s.mem d v = 0 := h.has.not_present (hv ▸ hnone)
  rcases hback v with hv' | hv'
  · rw [hv', hzero]
  · exact hv'.2

end

section
variable {k : Layout} {M : Finset ℕ} {d : ℕ} {Y : Multiset ℕ} {s s' : Phys} {T : ℕ → Option ℕ}
  {P : ℕ → ℕ} {m0 : Mem} {F : Prop} {oldsz newsz : ℕ} {P' : ℕ → ℕ} {v : ℕ}

theorem Grown.newPage {T' : ℕ → Option ℕ} {C : ℕ → Bytes PGSIZE} (hs : Owns M d Y s)
    (hnot : ∀ v < KERNPAGE, ¬Present (pte s.mem d v) ∨ v < roundUp oldsz)
    (hext : Extends (tab s.mem d) T') (hup : roundUp newsz ≤ KERNPAGE)
    (hg : Grown (pte s.mem d) P' (roundUp oldsz) (roundUp newsz))
    (h' : Holds F M.val m0 d T' P' (zeroed C (roundUp oldsz) (roundUp newsz)) Y s')
    (hlo : roundUp oldsz ≤ v) (hhi : v < roundUp newsz) : NewPage d Y s s' v := by
  have hv : v < KERNPAGE := hhi.trans_le hup
  have hx := hg v
  rw [if_pos ⟨hlo, hhi⟩] at hx
  obtain ⟨f, hf⟩ := hx
  have hp : Present (P' v) := hf ▸ present_mkPte _ _
  have hmem : frame (P' v) ∈ userPages P' := mem_userPages.2 ⟨v, hv, hp, rfl⟩
  have hnd := h'.work.nodup M.nodup
  refine ⟨?_, ?_, fun l hl => ?_, fun w hw hpw heq => ?_, fun d' hd' hin => ?_⟩
  · rw [h'.pte, hf]
    exact user_mkPte f
  · unfold content
    rw [h'.pte, h'.data v hv hp]
    exact if_pos ⟨hlo, hhi⟩
  · -- The page was in the stock before, and in no other place than the free list.
    rw [h'.pte]
    have hM : frame (P' v) ∈ M.val := h'.mem_dir (mem_dirPages_user hv hp)
    rw [← hs.free_eq hl] at hM
    refine (Multiset.mem_add.1 hM).resolve_right fun hbusy => ?_
    have hdisj := (Multiset.nodup_add.1 hnd).2.2
    rcases Multiset.mem_add.1 hbusy with hdir | hY
    · have hold := h'.user_nodup M.nodup
      rcases Multiset.mem_cons.1 hdir with hd | hrest
      · exact h'.dir_not_mem M.nodup (hd ▸ Multiset.mem_add.2 (.inl hmem))
      rcases Multiset.mem_add.1 hrest with ht | hu
      · obtain ⟨i, hi, ht⟩ := mem_tabPages.1 ht
        have ht' : T' i = some (frame (P' v)) :=
          ((hext i).resolve_left (ht ▸ Option.some_ne_none _)).trans ht
        exact h'.tab_not_mem M.nodup ht' (Multiset.mem_add.2 (.inl hmem))
      obtain ⟨w, hw, hpw, hfw⟩ := mem_userPages.1 hu
      have hwlt := (hnot w hw).resolve_left (not_not.2 hpw)
      have hw' := hg w
      rw [if_neg (by omega)] at hw'
      have heq := user_inj hold hw hv (hw' ▸ hpw) hp (by rw [hw', hfw])
      omega
    · exact Multiset.disjoint_left.1 hdisj (mem_dirPages_user hv hp) hY
  · rw [h'.pte] at hpw heq
    exact user_inj (h'.user_nodup M.nodup) hw hv hpw hp heq
  · rw [h'.pte] at hin
    have hdisj := (Multiset.nodup_add.1 hnd).2.2
    exact Multiset.disjoint_left.1 hdisj (mem_dirPages_user hv hp) (Multiset.mem_of_le hd' hin)

theorem Grown.present_iff (hg : Grown P P' (roundUp oldsz) (roundUp newsz)) (hle : oldsz ≤ newsz)
    (hv : Present (P v) ↔ v < roundUp oldsz) : Present (P' v) ↔ v < roundUp newsz := by
  have hx := hg v
  split at hx
  next hin =>
    obtain ⟨f, hf⟩ := hx
    exact ⟨fun _ => hin.2, fun _ => hf ▸ present_mkPte _ _⟩
  next hin =>
    rw [hx, hv]
    have hup := roundUp_le hle
    omega

theorem Grown.samePage {T' : ℕ → Option ℕ}
    (hg : Grown (pte s.mem d) P' (roundUp oldsz) (roundUp newsz))
    (h' : Holds F M.val m0 d T' P' (zeroed (content s.mem d) (roundUp oldsz) (roundUp newsz)) Y s')
    (hv : v < KERNPAGE) (hp : Present (pte s.mem d v)) (hlt : v < roundUp oldsz) :
    SamePage d s s' v := by
  have hx := hg v
  rw [if_neg (by omega)] at hx
  have hdata := h'.data v hv (hx ▸ hp)
  rw [zeroed, if_neg (by omega), ← h'.pte] at hdata
  exact ⟨(congrFun h'.pte v).trans hx, hdata⟩

theorem allocuvm_all_or_nothing (hok : ∀ f ∈ M, k.Ok f) (h : Owns M d Y s)
    (hlow : ∀ v < KERNPAGE, Present (pte s.mem d v) ↔ v < roundUp oldsz % 2 ^ 20) (newsz : ℕ) :
    ∃ r s', (allocuvm k d oldsz newsz).result s = (.ok r, s') ∧ Owns M d Y s' ∧
      (r = 0 → SameUser d s s' ∧
        ∀ l l', s.Free l → s'.Free l' → (∀ f ∈ l', f ∈ l) ∧
          ∀ f ∈ l, f ∈ l' ∨ EmptyTable d s' f) ∧
      (r = newsz → oldsz ≤ newsz →
        (∀ v < KERNPAGE, Present (pte s'.mem d v) ↔ v < roundUp newsz) ∧
        (∀ v < roundUp oldsz, SamePage d s s' v) ∧
        ∀ v, roundUp oldsz ≤ v → v < roundUp newsz → NewPage d Y s s' v) := by
  have hlow' (hnew : newsz < KERNBASE) (hle : oldsz ≤ newsz) (v : ℕ) (hv : v < KERNPAGE) :
      Present (pte s.mem d v) ↔ v < roundUp oldsz := by
    have hup := roundUp_le_KERNPAGE (hle.trans hnew.le)
    rw [hlow v hv, Nat.mod_eq_of_lt (hup.trans_lt (by decide))]
  have hnot (hnew : newsz < KERNBASE) (x : ℕ) (hlo : roundUp oldsz ≤ x) (hhi : x < roundUp newsz) :
      ¬Present (pte s.mem d x) := by
    have hle : oldsz ≤ newsz := by
      by_contra hlt
      have hup := roundUp_le (not_le.1 hlt).le
      omega
    rw [hlow' hnew hle x (hhi.trans_le (roundUp_le_KERNPAGE hnew.le))]
    omega
  obtain ⟨r, s', hr, T', hext, -, hend⟩ := (allocuvm_spec M.nodup hok hnot).returns h.has
  refine ⟨r, s', hr, ?_⟩
  cases hend with
  | failed P' hback hout hs' why =>
    have hsame := hback.sameUser hs'
    refine ⟨hs'.owns, fun _ => ⟨hsame, fun l l' => hback.taken h hext hs'.toHas⟩, fun h0 hle => ?_⟩
    obtain rfl : newsz = 0 := h0.symm
    obtain rfl : oldsz = 0 := Nat.le_zero.1 hle
    refine ⟨fun v hv => (hsame v hv).1.trans (hlow' (by decide) hle v hv), fun v hv => ?_,
      fun v _ hv => ?_⟩
    · exact absurd hv (Nat.not_lt_zero v)
    · exact absurd hv (Nat.not_lt_zero v)
  | smaller hnew hlt hs' => exact ⟨hs'.owns, fun h0 => by omega, fun _ hle => by omega⟩
  | grown hnew hle P' hg hs' =>
    have hup := roundUp_le_KERNPAGE hnew.le
    have hlow := hlow' hnew hle
    refine ⟨hs'.owns, fun h0 => ?_, fun _ _ => ⟨fun v hv => ?_, fun v hlt => ?_, fun v => ?_⟩⟩
    · -- A size of 0 is no growth.
      obtain rfl : newsz = 0 := h0
      obtain rfl : oldsz = 0 := Nat.le_zero.1 hle
      have hback : Undone (pte s.mem d) P' := fun x => by
        have hx := hg x
        rw [if_neg (by omega)] at hx
        exact .inl hx
      rw [zeroed_self] at hs'
      exact ⟨hback.sameUser hs', fun l l' => hback.taken h hext hs'.toHas⟩
    · rw [hs'.pte]
      exact hg.present_iff hle (hlow v hv)
    · have hv : v < KERNPAGE := hlt.trans_le ((roundUp_le hle).trans hup)
      exact hg.samePage hs' hv ((hlow v hv).2 hlt) hlt
    · intro hlo hhi
      refine hg.newPage h (fun w hw => ?_) hext hup hs' hlo hhi
      exact (em (Present (pte s.mem d w))).symm.imp_right (hlow w hw).1

end

structure Proper (M : Finset ℕ) (d sz : ℕ) (Y : Multiset ℕ) (s : Phys) : Prop where
  owns : Owns M d Y s
  le : sz ≤ KERNBASE
  low : ∀ v < KERNPAGE, Present (pte s.mem d v) ↔ v < roundUp sz

theorem Space.proper {k : Layout} {M : Finset ℕ} {F : Prop} {m0 : Mem} {d sz : ℕ}
    {T : ℕ → Option ℕ} {P : ℕ → ℕ} {Y : Multiset ℕ} {s : Phys} (h : Space True k P sz)
    (hs : Has F M.val m0 d T P Y s) : Proper M d sz Y s := by
  refine ⟨hs.owns, h.le, fun v hv => ?_⟩
  rw [hs.pte]
  exact h.present_iff hv

def addInt (sz : ℕ) (n : ℤ) : ℕ := ((sz + n) % 2 ^ 32).toNat

def growproc (k : Layout) (d sz : ℕ) (n : ℤ) : Op (Option ℕ) :=
  if 0 < n then do
    let sz' ← allocuvm k d sz (addInt sz n)
    if sz' = 0 then pure none else pure (some sz')
  else if n < 0 then do
    let sz' ← deallocuvm k d sz (addInt sz n)
    if sz' = 0 then pure none else pure (some sz')
  else pure (some sz)

section
variable {k : Layout} {M : Finset ℕ} {d sz : ℕ} {Y : Multiset ℕ} {s : Phys} {n : ℤ}

structure Resized (M : Finset ℕ) (d sz : ℕ) (Y : Multiset ℕ) (s : Phys) (sz' : ℕ) (s' : Phys) :
    Prop where
  proper : Proper M d sz' Y s'
  same : ∀ a < min sz sz', SamePage d s s' (a / PGSIZE)
  zero : ∀ v, roundUp sz ≤ v → v < roundUp sz' → content s'.mem d v = zeros

theorem Resized.refl (h : Proper M d sz Y s) : Resized M d sz Y s sz s :=
  ⟨h, fun _ _ => ⟨rfl, rfl⟩, fun v hlo hhi => by omega⟩

variable {newsz : ℕ}

theorem addInt_eq (h : (sz + n : ℤ) = newsz) (hlt : newsz < 2 ^ 32) : addInt sz n = newsz := by
  unfold addInt
  rw [h]
  omega

theorem div_lt_roundUp {a sz : ℕ} (h : a < sz) : a / PGSIZE < roundUp sz := by
  unfold roundUp
  simp only [PGSIZE]
  omega

theorem allocuvm_resized (hok : ∀ f ∈ M, k.Ok f) (h : Proper M d sz Y s) (hle : sz ≤ newsz) :
    ∃ r s', (allocuvm k d sz newsz).result s = (.ok r, s') ∧
      (r ≠ 0 → r = newsz ∧ Resized M d sz Y s newsz s') := by
  have hnot (hnew : newsz < KERNBASE) (x : ℕ) (hlo : roundUp sz ≤ x) (hhi : x < roundUp newsz) :
      ¬Present (pte s.mem d x) := by
    rw [h.low x (hhi.trans_le (roundUp_le_KERNPAGE hnew.le))]
    omega
  obtain ⟨r, s', hr, T', hext, -, hend⟩ := (allocuvm_spec M.nodup hok hnot).returns h.owns.has
  refine ⟨r, s', hr, fun h0 => ?_⟩
  cases hend with
  | failed P' hback hout hs' why => exact absurd rfl h0
  | smaller hnew hlt hs' => omega
  | grown hnew hle P' hg hs' =>
    refine ⟨rfl, ⟨hs'.owns, hnew.le, fun v hv => ?_⟩, fun a ha => ?_, fun v hlo hhi => ?_⟩
    · rw [hs'.pte]
      exact hg.present_iff hle (h.low v hv)
    · have hlt : a / PGSIZE < roundUp sz := div_lt_roundUp (lt_min_iff.1 ha).1
      have hv := hlt.trans_le (roundUp_le_KERNPAGE h.le)
      exact hg.samePage hs' hv ((h.low _ hv).2 hlt) hlt
    have hv := hhi.trans_le (roundUp_le_KERNPAGE hnew.le)
    have hp := (hg.present_iff hle (h.low v hv)).2 hhi
    unfold content
    rw [hs'.pte, hs'.data v hv hp]
    exact if_pos ⟨hlo, hhi⟩

theorem Proper.allocuvm_grows (hok : ∀ f ∈ M, k.Ok f) (h : Proper M d sz Y s)
    (hcalm : s.fails = []) (hle : sz ≤ newsz) (hnew : newsz < KERNBASE)
    (hroom : 1026 + roundUp newsz + card Y < card M.val) :
    ∃ s', (allocuvm k d sz newsz).result s = (.ok newsz, s') := by
  have hup := roundUp_le hle
  have hnot (_ : newsz < KERNBASE) (x : ℕ) (hlo : roundUp sz ≤ x) (hhi : x < roundUp newsz) :
      ¬Present (pte s.mem d x) := by
    rw [h.low x (hhi.trans_le (roundUp_le_KERNPAGE hnew.le))]
    omega
  have hstart := h.owns.holds (F := False) fun _ => hcalm
  obtain ⟨r, s', hr, T', -, -, hend⟩ := (allocuvm_spec M.nodup hok hnot).returns hstart
  cases hend with
  | failed P' hback hout hs' why =>
    have hshort := (why.resolve_left (not_le.2 hnew)).resolve_left not_false
    rw [card_userPages (roundUp_le_KERNPAGE h.le) h.low] at hshort
    omega
  | smaller hnew hlt hs' => omega
  | grown hnew hle P' hg hs' => exact ⟨s', hr⟩

theorem deallocuvm_resized (hok : ∀ f ∈ M, k.Ok f) (h : Proper M d sz Y s) (hlt : newsz < sz) :
    ∃ s', (deallocuvm k d sz newsz).result s = (.ok newsz, s') ∧ Resized M d sz Y s newsz s' := by
  obtain ⟨r, s', hr, rfl, hs'⟩ := (deallocuvm_holds M.nodup hok h.le hlt).returns h.owns.has
  have hpres : ∀ v < KERNPAGE, Present (pte s'.mem d v) ↔ v < roundUp r := by
    intro v hv
    rw [hs'.pte]
    unfold unmap
    split
    next hin => exact ⟨fun hp => absurd hp Nat.zero_ne_one, fun hlt => by omega⟩
    next hin =>
      have hup := roundUp_le hlt.le
      rw [h.low v hv]
      rw [h.low v hv] at hin
      omega
  refine ⟨s', hr, ⟨hs'.owns, hlt.le.trans h.le, hpres⟩, fun a ha => ?_, fun v hlo hhi => ?_⟩
  · have hlt' : a / PGSIZE < roundUp r := div_lt_roundUp (lt_min_iff.1 ha).2
    have hv := hlt'.trans_le (roundUp_le_KERNPAGE (hlt.le.trans h.le))
    have heq : unmap (pte s.mem d) (roundUp r) (roundUp sz) (a / PGSIZE) =
        pte s.mem d (a / PGSIZE) := if_neg (by omega)
    have hdata := hs'.data _ hv (hs'.pte ▸ (hpres _ hv).2 hlt')
    rw [← hs'.pte] at hdata
    exact ⟨(congrFun hs'.pte _).trans heq, hdata⟩
  · have hup := roundUp_le hlt.le
    omega

theorem growproc_resizes (hok : ∀ f ∈ M, k.Ok f) (h : Proper M d sz Y s) (hmin : -2 ^ 31 ≤ n)
    (hmax : n < 2 ^ 31) (hsum : 0 ≤ sz + n) :
    ∃ r s', (growproc k d sz n).result s = (.ok r, s') ∧
      ∀ sz', r = some sz' → (sz' : ℤ) = sz + n ∧ Resized M d sz Y s sz' s' := by
  obtain ⟨newsz, hnew⟩ := Int.eq_ofNat_of_zero_le hsum
  have hle := h.le
  have hadd : addInt sz n = newsz := addInt_eq hnew (by simp only [KERNBASE] at hle; omega)
  unfold growproc
  rw [hadd]
  split
  next hpos =>
    obtain ⟨r, s', hr, hgrown⟩ := allocuvm_resized hok h (show sz ≤ newsz by omega)
    rw [Prog.result_bind, hr]
    by_cases h0 : r = 0
    · exact ⟨none, s', by dsimp only; rw [if_pos h0]; rfl, fun sz' hsz => absurd hsz nofun⟩
    · obtain ⟨rfl, hres⟩ := hgrown h0
      refine ⟨some r, s', by dsimp only; rw [if_neg h0]; rfl, ?_⟩
      rintro _ ⟨rfl⟩
      exact ⟨hnew.symm, hres⟩
  next =>
    split
    next hneg =>
      obtain ⟨s', hr, hres⟩ := deallocuvm_resized hok h (show newsz < sz by omega)
      rw [Prog.result_bind, hr]
      by_cases h0 : newsz = 0
      · exact ⟨none, s', by dsimp only; rw [if_pos h0]; rfl, fun sz' hsz => absurd hsz nofun⟩
      · refine ⟨some newsz, s', by dsimp only; rw [if_neg h0]; rfl, ?_⟩
        rintro _ ⟨rfl⟩
        exact ⟨hnew.symm, hres⟩
    next =>
      refine ⟨some sz, s, rfl, ?_⟩
      rintro _ ⟨rfl⟩
      exact ⟨by omega, .refl h⟩

theorem growproc_too_far (hsz : sz ≤ KERNBASE) (h0 : sz ≠ 0) (hmin : -2 ^ 31 ≤ n)
    (hsum : sz + n < 0) : (growproc k d sz n).result s = (.ok (some sz), s) := by
  have hge : sz ≤ addInt sz n := by
    unfold addInt
    simp only [KERNBASE] at hsz
    omega
  unfold growproc deallocuvm
  rw [if_neg (by omega), if_pos (by omega), if_pos hge, result_bind]
  show (if sz = 0 then pure none else pure (some sz) : Op (Option ℕ)).result s = _
  rw [if_neg h0]
  rfl

theorem growproc_of_zero (hneg : n < 0) :
    (growproc k d 0 n).result s = (.ok none, s) := by
  have hge : 0 ≤ addInt 0 n := Nat.zero_le _
  unfold growproc deallocuvm
  rw [if_neg (by omega), if_pos hneg, if_pos hge, result_bind]
  rfl

theorem growproc_means (hok : ∀ f ∈ M, k.Ok f) (h : Proper M d sz Y s) (hmin : -2 ^ 31 ≤ n)
    (hmax : n < 2 ^ 31) :
    ∃ r s', (growproc k d sz n).result s = (.ok r, s') ∧
      ((∀ sz', r = some sz' → (sz' : ℤ) = sz + n ∧ Resized M d sz Y s sz' s') ↔
        0 ≤ sz + n ∨ sz = 0) := by
  by_cases hsum : 0 ≤ sz + n
  · obtain ⟨r, s', hr, hres⟩ := growproc_resizes hok h hmin hmax hsum
    exact ⟨r, s', hr, iff_of_true hres (.inl hsum)⟩
  rcases Nat.eq_zero_or_pos sz with rfl | hpos
  · exact ⟨none, s, growproc_of_zero (by omega),
      iff_of_true (fun _ hsz => absurd hsz nofun) (.inr rfl)⟩
  · refine ⟨some sz, s, growproc_too_far h.le hpos.ne' hmin (by omega),
      iff_of_false (fun hres => ?_) (by omega)⟩
    have hsame := (hres sz rfl).1
    omega

end

theorem boot_space : ∃ (d : ℕ) (s : Phys) (T : ℕ → Option ℕ) (P : ℕ → ℕ),
    Space True smallKernel P PGSIZE ∧
    Has False stock.val (fun _ => zeros) d T P {0x103} s := by
  obtain ⟨-, -, s, d, T, -, -, -, hs⟩ := boot_setupkvm
  obtain ⟨r, s', -, T', -, -, hend⟩ :=
    (allocuvm_space stock.nodup stock_ok (.zero smallKernel) PGSIZE).returns hs.holds
  split at hend
  · have hshort := (hend.2.resolve_left (by decide)).resolve_left (by decide)
    have hcard := hshort.resolve_left not_false
    rw [stock_card, userPages_kernelMap, Multiset.card_zero, Multiset.card_singleton] at hcard
    exact absurd hcard (by decide)
  · obtain ⟨P, hall⟩ := hend
    obtain rfl : r = PGSIZE := hall.size
    exact ⟨d, s', T', P, hall.space, hall.holds.toHas⟩

theorem boot_proper : ∃ (d : ℕ) (s : Phys), Proper stock d PGSIZE {0x103} s ∧ s.fails = [] := by
  obtain ⟨d, s, T, P, hspace, hs⟩ := boot_space
  exact ⟨d, s, hspace.proper hs, hs.work.calm not_false⟩

theorem boot_grows {d : ℕ} {s : Phys} (h : Proper stock d PGSIZE {0x103} s)
    (hcalm : s.fails = []) :
    ∃ s', (allocuvm smallKernel d PGSIZE (2 * PGSIZE)).result s = (.ok (2 * PGSIZE), s') := by
  refine h.allocuvm_grows stock_ok hcalm (by decide) (by decide) ?_
  rw [stock_card, Multiset.card_singleton]
  decide

theorem allocuvm_all_or_nothing_boot : ∃ (d : ℕ) (s s' : Phys), Owns stock d {0x103} s ∧
    (allocuvm smallKernel d PGSIZE (2 * PGSIZE)).result s = (.ok (2 * PGSIZE), s') ∧
    Owns stock d {0x103} s' ∧ SamePage d s s' 0 ∧ NewPage d {0x103} s s' 1 := by
  obtain ⟨d, s, hs, hcalm⟩ := boot_proper
  have hlow : ∀ v < KERNPAGE, Present (pte s.mem d v) ↔ v < roundUp PGSIZE % 2 ^ 20 := hs.low
  obtain ⟨r, s', hr, hown, -, hgrown⟩ :=
    allocuvm_all_or_nothing stock_ok hs.owns hlow (2 * PGSIZE)
  obtain ⟨t, ht⟩ := boot_grows hs hcalm
  cases hr.symm.trans ht
  obtain ⟨-, hsame, hnew⟩ := hgrown rfl (by decide)
  exact ⟨d, s, s', hs.owns, hr, hown, hsame 0 (by decide), hnew 1 (by decide) (by decide)⟩

theorem growproc_means_boot : ∃ (d : ℕ) (s s' : Phys), Proper stock d PGSIZE {0x103} s ∧
    (growproc smallKernel d PGSIZE 4096).result s = (.ok (some (2 * PGSIZE)), s') ∧
    Resized stock d PGSIZE {0x103} s (2 * PGSIZE) s' := by
  obtain ⟨d, s, hs, hcalm⟩ := boot_proper
  obtain ⟨r, s', hr, hres⟩ := growproc_means stock_ok hs (n := 4096) (by decide) (by decide)
  obtain ⟨t, ht⟩ := boot_grows hs hcalm
  have hgrow : (growproc smallKernel d PGSIZE 4096).result s = (.ok (some (2 * PGSIZE)), t) := by
    have hsum : addInt PGSIZE 4096 = 2 * PGSIZE := by decide
    unfold growproc
    rw [if_pos (by decide), hsum, Prog.result_bind, ht]
    rfl
  cases hr.symm.trans hgrow
  exact ⟨d, s, s', hs, hr, ((hres.2 (.inl (by decide))) _ rfl).2⟩

theorem growproc_keeps_size : ∃ (d : ℕ) (s : Phys), Proper stock d PGSIZE {0x103} s ∧
    (growproc smallKernel d PGSIZE (-8192)).result s = (.ok (some PGSIZE), s) ∧
    (PGSIZE : ℤ) ≠ PGSIZE + -8192 := by
  obtain ⟨d, s, hs, -⟩ := boot_proper
  exact ⟨d, s, hs, growproc_too_far hs.le (by decide) (by decide) (by decide), by decide⟩

end Xv6.Vm
