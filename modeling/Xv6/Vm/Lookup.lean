import Xv6.Vm.Program

namespace Xv6.Vm

open Lib Function
open Multiset (card)

def Built (k : Layout) (M : Multiset ℕ) (m₀ : Mem) (d : ℕ) (Y : Multiset ℕ) (s : Phys) : Prop :=
  ∃ T P, (∀ v, KERNPAGE ≤ v → P v = kernelMap k v) ∧ Has True M m₀ d T P Y s

section
variable {k : Layout} {M Y : Multiset ℕ} {m0 : Mem} {d f v : ℕ} (hM : M.Nodup)
  (hok : ∀ f ∈ M, k.Ok f)
include hM hok

theorem built_kalloc :
    Triple (Built k M m0 d Y) (kalloc k)
      (fun r s =>
        match r with
        | none => Built k M m0 d Y s
        | some f => f ∈ M ∧ Built k M m0 d (f ::ₘ Y) s) Never := by
  refine .of_exists fun T => .of_exists fun P => .of_and fun hP =>
    (Has.kalloc hM hok).post fun r s hs => ?_
  cases r with
  | none => exact ⟨T, P, hP, hs.2⟩
  | some f => exact ⟨hs.1, T, P, hP, hs.2⟩

theorem built_kfree (hf : f ∈ M) :
    Triple (Built k M m0 d (f ::ₘ Y)) (kfree k f) (fun _ => Built k M m0 d Y)
      Never :=
  .of_exists fun T => .of_exists fun P => .of_and fun hP =>
    (Has.kfree hM hok hf).post fun _ _ hs => ⟨T, P, hP, hs⟩

omit hok in
theorem built_clear : Triple (Built k M m0 d (f ::ₘ Y)) (clear f)
    (fun _ => Built k M m0 d (f ::ₘ Y)) Never :=
  .of_exists fun T => .of_exists fun P => .of_and fun hP =>
    (Has.write hM (Multiset.mem_cons_self f Y) (fun _ => zeros) _).post fun _ _ hs =>
      ⟨T, P, hP, hs⟩

theorem built_mappages {perm : ℕ} (hv : v < KERNPAGE) (hf : f ∈ M) (hperm : perm < PGSIZE) :
    Triple (Built k M m0 d (f ::ₘ Y)) (mappages k d (v * PGSIZE) PGSIZE f perm)
      (fun r s => if r then Built k M m0 d Y s else Built k M m0 d (f ::ₘ Y) s)
      fun e _ => e = .remap := by
  have hv' : v < 2 ^ 20 := hv.trans (by decide)
  rw [mappages_page hv']
  refine .of_exists fun T => .of_exists fun P => .of_and fun hP => ?_
  by_cases hp : Present (P v)
  · unfold mapPage
    refine .bind ((walkpgdir_spec hM hok hv').panics _) fun r => ?_
    cases r with
    | none => exact .pure fun s hs => ⟨T, P, hP, hs.1⟩
    | some t =>
      refine .of_and fun _ => .bind (Has.load (update_self ..) _) fun w =>
        .of_and fun hw => ?_
      subst hw
      rw [if_pos hp]
      exact .panic fun _ _ => rfl
  · refine ((mapPage_user hM hok hv hp hf hperm).panics _).post fun r s ⟨T', _, _, hs⟩ => ?_
    cases r with
    | true =>
      refine ⟨T', _, fun x hx => ?_, hs⟩
      rw [update_of_ne (by omega)]
      exact hP x hx
    | false => exact ⟨T', P, hP, hs.1⟩

theorem built_deallocuvm {oldsz newsz : ℕ} (hold : oldsz ≤ KERNBASE) :
    Triple (Built k M m0 d Y) (deallocuvm k d oldsz newsz) (fun _ => Built k M m0 d Y)
      Never := by
  by_cases hlt : newsz < oldsz
  · refine .of_exists fun T => .of_exists fun P => .of_and fun hP =>
      (deallocuvm_spec hM hok hold hlt).post fun _ s hs => ⟨T, _, fun x hx => ?_, hs.2⟩
    have hup := roundUp_le_KERNPAGE hold
    rw [unmap, if_neg (by omega)]
    exact hP x hx
  · unfold deallocuvm
    rw [if_pos (by omega)]
    exact .pure fun _ hs => hs

theorem built_allocLoop {oldsz newsz turns : ℕ} (hnew : newsz < KERNBASE) :
    Triple (Built k M m0 d Y) (allocLoop k d oldsz newsz turns v)
      (fun _ => Built k M m0 d Y) fun e _ => e = .remap := by
  induction turns generalizing v with
  | zero => exact .pure fun _ hs => hs
  | succ turns ih =>
    unfold allocLoop
    refine .ite (fun hlt => ?_) fun _ => .pure fun _ hs => hs
    refine .bind ((built_kalloc hM hok).panics _) fun r => ?_
    cases r with
    | none =>
      exact .bind ((built_deallocuvm hM hok hnew.le).panics _) fun _ =>
        .pure fun _ hs => hs
    | some f =>
      refine .of_and fun hf => .bind ((built_clear hM).panics _) fun _ =>
        Prog.Triple.bind (built_mappages hM hok (lt_KERNPAGE (hlt.trans hnew)) hf (by decide))
        fun r => ?_
      cases r with
      | true => exact ih
      | false =>
        exact .bind ((built_deallocuvm hM hok hnew.le).panics _) fun _ =>
          Prog.Triple.bind ((built_kfree hM hok hf).panics _) fun _ => .pure fun _ hs => hs

theorem built_allocuvm (oldsz newsz : ℕ) :
    Triple (Built k M m0 d Y) (allocuvm k d oldsz newsz) (fun _ => Built k M m0 d Y)
      fun e _ => e = .remap := by
  unfold allocuvm
  exact .ite (fun _ => .pure fun _ hs => hs) fun hnew =>
    Prog.Triple.ite (fun _ => .pure fun _ hs => hs) fun _ => built_allocLoop hM hok (not_le.1 hnew)

omit hok in
theorem built_clearpteu :
    Triple (Built k M m0 d Y) (clearpteu k d v) (fun _ => Built k M m0 d Y)
      fun e _ => e = .clearpteu := by
  refine .of_exists fun T => .of_exists fun P => .of_and fun hP =>
    (clearpteu_entry hM).mono (fun _ s hs => ⟨T, _, fun x hx => ?_, hs⟩) fun _ _ he => he.1
  by_cases hxv : x = v
  · subst hxv
    rw [update_self, hP x hx, noUser, if_neg (kernelMap_not_user x)]
  · rw [update_of_ne hxv]
    exact hP x hx

end

inductive Build where
  | alloc (oldsz newsz : ℕ)
  | clear (v : ℕ)

def Build.step (k : Layout) (d : ℕ) (s : Phys) : Build → Option Phys
  | .alloc oldsz newsz =>
    match (allocuvm k d oldsz newsz).result s with
    | (.ok _, s') => some s'
    | (.error _, _) => none
  | .clear v =>
    match (clearpteu k d v).result s with
    | (.ok _, s') => some s'
    | (.error _, _) => none

section
variable {k : Layout} {M Y : Multiset ℕ} {m0 : Mem} {d v : ℕ} {s s' t : Phys} {l : List ℕ}

theorem Build.step_built (hM : M.Nodup) (hok : ∀ f ∈ M, k.Ok f) {b : Build}
    (h : b.step k d s = some s') (hs : Built k M m0 d Y s) : Built k M m0 d Y s' := by
  cases b with
  | alloc oldsz newsz =>
    simp only [Build.step] at h
    split at h
    next heq =>
      cases h
      exact (built_allocuvm hM hok oldsz newsz).of_ok hs heq
    next => cases h
  | clear v =>
    simp only [Build.step] at h
    split at h
    next heq =>
      cases h
      exact (built_clearpteu hM).of_ok hs heq
    next => cases h

theorem walkpgdir_result (k : Layout) (d v : ℕ) (s : Phys) :
    (walkpgdir k d v false).result s = (.ok (tab s.mem d (v / 1024)), s) := by
  unfold walkpgdir
  rw [result_read_bind]
  cases tab s.mem d (v / 1024) with
  | none => rfl
  | some t => rfl

theorem uva2ka_result (null : Op (Option ℕ)) {p : ℕ} (hp : tab s.mem d (v / 1024) = some p) :
    (uva2ka k null d v).result s =
      (.ok (if Usable (pte s.mem d v) then some (frame (pte s.mem d v)) else none), s) := by
  unfold uva2ka
  rw [result_bind, walkpgdir_result, hp, pte_of_tab hp]
  dsimp only
  rw [result_read_bind]
  split
  · rfl
  · rfl

theorem uva2ka_without (null : Op (Option ℕ)) (h : tab s.mem d (v / 1024) = none) :
    (uva2ka k null d v).result s = null.result s := by
  unfold uva2ka
  rw [result_bind, walkpgdir_result, h]

theorem nullPte_result {cur : ℕ} (h : Present (pte s.mem cur 0)) :
    (nullPte cur).result s = (.ok (if Usable (entry (content s.mem cur 0) 0) then
      some (frame (entry (content s.mem cur 0) 0)) else none), s) := by
  unfold nullPte content
  rw [result_read_bind, if_pos h, result_read_bind]
  split
  · rfl
  · rfl

theorem Built.usable_iff (hok : ∀ f ∈ M, k.Ok f) (h : Built k M m0 d Y s) :
    Usable (pte s.mem d v) ↔ Present (pte s.mem d v) ∧ User (pte s.mem d v) := by
  obtain ⟨T, P, hP, hs⟩ := h
  refine ⟨fun hu => ⟨hu.1, hu.2.1⟩, fun hu => ⟨hu.1, hu.2, fun hframe => ?_⟩⟩
  rw [hs.pte] at hu hframe
  by_cases hv : v < KERNPAGE
  · have hlt := (hok _ (hs.mem_dir (mem_dirPages_user hv hu.1))).2
    rw [hframe] at hlt
    exact absurd hlt (by decide)
  · rw [hP v (not_lt.1 hv)] at hu
    exact kernelMap_not_user v hu.2

theorem built_of_setupkvm (hl : s.Free l) (hnd : l.Nodup) (hok : ∀ f ∈ l, k.Ok f)
    (h : (setupkvm k).result s = (.ok (some d), s')) : Built k l s.mem d 0 s' := by
  obtain ⟨T, -, hs⟩ := (setupkvm_spec (Multiset.coe_nodup.2 hnd) hok).of_ok hl.work h
  exact ⟨T, kernelMap k, fun _ _ => rfl, hs⟩

def StackAt (k : Layout) (c : List UInt8) (s : Phys) (n : ℕ) : Prop :=
  ∃ im s₁ s₂, (loadImage k c).result s = (.ok (some im), s₁) ∧ n = roundUp im.sz + 2 ∧
    (allocuvm k im.pgdir (roundUp im.sz * PGSIZE) (n * PGSIZE)).result s₁ = (.ok (n * PGSIZE), s₂)

end

section
variable {k : Layout} {F : Prop} {M Y : Multiset ℕ} {m0 : Mem} {d sz : ℕ} {T : ℕ → Option ℕ}
  {P : ℕ → ℕ} {C : ℕ → Bytes PGSIZE} {argv : List (List UInt8)} {s : Phys}

theorem copyout_null {va : ℕ} {bs : List UInt8} (hbs : bs ≠ [])
    (hT : T (va / PGSIZE / 1024) = none) :
    Triple (Holds F M m0 d T P C Y) (copyout k (.panic .null) d va bs) Never
      fun e _ => e = .null := by
  obtain ⟨turns, hturns⟩ := Nat.exists_eq_succ_of_ne_zero (mt List.length_eq_zero_iff.1 hbs)
  unfold copyout
  rw [hturns, copyoutLoop, if_neg hbs]
  refine .bind (R := Never) (.bind (Holds.look _) fun o =>
    .of_and fun ho => ?_) fun _ => ⟨fun _ hs => hs.elim⟩
  rw [hT] at ho
  subst ho
  exact .panic fun _ _ => rfl

theorem makeStack_none {null : Op (Option ℕ)} {s₂ : Phys}
    (halloc : (allocuvm k d (roundUp sz * PGSIZE) ((roundUp sz + 2) * PGSIZE)).result s =
      (.ok 0, s₂)) : (makeStack k null d argv sz).result s = (.ok none, s₂) := by
  rw [Nat.add_mul] at halloc
  unfold makeStack
  dsimp only
  rw [result_bind, halloc]
  rfl

variable (hM : M.Nodup) (hok : ∀ f ∈ M, k.Ok f)
include hM hok

theorem pushArgs_null {n argc sp : ℕ} (hP : Guarded P n) (huse : Usable (P (n - 1)))
    (hbare : Bare T) (halign : sp % 4 = 0) (hlo : (n - 1) * PGSIZE ≤ sp) (hhi : sp ≤ n * PGSIZE)
    (h : Strays ((n - 1) * PGSIZE) argv argc sp) :
    Triple (Holds F M m0 d T P C Y) (pushArgs k (.panic .null) d argv argc sp) Never
      fun e _ => e = .null := by
  induction argv generalizing argc sp C with
  | nil => exact h.elim
  | cons arg rest ih =>
    obtain ⟨hargc, hstray⟩ := h
    have hlen : (arg ++ [0]).length = arg.length + 1 := List.length_append
    unfold pushArgs
    rw [if_neg (not_le.2 hargc)]
    dsimp only
    rcases hstray with hstray | ⟨hfit, hrest⟩
    · exact .bind (copyout_null (List.append_ne_nil_of_right_ne_nil _ (by decide))
        (hstray.bare hbare (hhi.trans hP.size_le))) fun _ => ⟨fun _ hs => hs.elim⟩
    refine .bind ((push_spec hM hok (.inr rfl) hP hlen (Nat.succ_pos _) halign hlo hhi).err
      fun _ _ he => he.1) fun r => .of_exists fun C1 => .of_state fun s1 hs1 => ?_
    obtain ⟨h1, htrue, hfalse⟩ := hs1
    cases r with
    | false => exact absurd (hfalse rfl huse) (not_lt.2 hfit)
    | true =>
      have hup : up4 (arg.length + 1) % 4 = 0 := Nat.mul_mod_left _ _
      rw [if_pos rfl, (htrue rfl).1]
      exact .bind (R := Never) ((ih (by omega) (Nat.le_sub_of_add_le hfit)
        ((Nat.sub_le _ _).trans hhi) hrest).pre fun _ heq => heq ▸ h1)
        fun _ => ⟨fun _ hs => hs.elim⟩

theorem makeStack_null {s₂ : Phys} (hP : Space True k P sz) (hbare : Bare T)
    (hs : Holds F M m0 d T P C Y s)
    (halloc : (allocuvm k d (roundUp sz * PGSIZE) ((roundUp sz + 2) * PGSIZE)).result s =
      (.ok ((roundUp sz + 2) * PGSIZE), s₂))
    (h : Strays ((roundUp sz + 1) * PGSIZE) argv 0 ((roundUp sz + 2) * PGSIZE)) :
    ∃ t, (makeStack k (.panic .null) d argv sz).result s = (.error .null, t) := by
  have hnew : roundUp sz * PGSIZE + 2 * PGSIZE = (roundUp sz + 2) * PGSIZE :=
    (Nat.add_mul ..).symm
  have hpos : (roundUp sz + 2) * PGSIZE ≠ 0 := (Nat.mul_pos (Nat.succ_pos _) (by decide)).ne'
  have hend := (allocuvm_space hM hok hP.round _).of_ok hs halloc
  simp only [if_neg hpos] at hend
  obtain ⟨T1, -, hmore, P1, hall⟩ := hend
  obtain ⟨-, hpres, hguarded, hspace, huser⟩ := hall.stack
  have hbare1 := hbare.more hmore (Nat.div_le_div_right (roundUp_le_KERNPAGE hall.new.le))
  have htop : (roundUp sz + 1) * PGSIZE < (roundUp sz + 2) * PGSIZE :=
    Nat.mul_lt_mul_of_pos_right (by omega) (by decide)
  have hguardPage : ((roundUp sz + 2) * PGSIZE - 2 * PGSIZE) / PGSIZE = roundUp sz := by
    rw [← hnew, Nat.add_sub_cancel, Nat.mul_div_cancel _ (by decide)]
  have hwhole : (roundUp sz + 2) * PGSIZE % 4 = 0 := by
    simp only [PGSIZE]
    omega
  unfold makeStack
  dsimp only
  rw [hnew, result_bind, halloc]
  dsimp only
  rw [if_neg hpos, hguardPage]
  refine Prog.Triple.fails (P := (· = s₂)) (.bind (((clearpteu_spec hM hpres).panics _).start
    hall.holds) fun _ => .of_state fun s3 h3 => .bind (R := Never) (.bind (R := Never) ?_
      fun _ => ⟨fun _ hs => hs.elim⟩) fun _ => ⟨fun _ hs => hs.elim⟩) rfl
  have huse := h3.toHas.usable hok (hspace.lt_KERNPAGE htop) (hspace.full trivial _ htop) huser
  exact (pushArgs_null hM hok hguarded huse hbare1 hwhole htop.le le_rfl h).start h3

end

section
variable {k : Layout} {s : Phys} {l : List ℕ} (hl : s.Free l) (hnd : l.Nodup)
  (hok : ∀ f ∈ l, k.Ok f) {c : List UInt8} {argv : List (List UInt8)} {n : ℕ}
include hl hnd hok

theorem StackAt.null (h : StackAt k c s n) (argv : List (List UInt8))
    (hstray : Strays ((n - 1) * PGSIZE) argv 0 (n * PGSIZE)) :
    ∃ t, (buildImage k (.panic .null) c argv).result s = (.error .null, t) := by
  obtain ⟨im, s₁, s₂, hload, rfl, halloc⟩ := h
  have hM := Multiset.coe_nodup.2 hnd
  obtain ⟨T, P, C, elf, hs, h₁, hbare, hprog⟩ := (loadImage_spec hM hok).of_ok hl.work hload
  obtain ⟨t, ht⟩ := makeStack_null hM hok hprog.segs.space hbare h₁ halloc hstray
  unfold buildImage stackImage
  rw [result_bind, hload]
  dsimp only
  exact ⟨t, result_bind_error ht⟩

theorem StackAt.of_null {t : Phys} {e : Panic}
    (h : (buildImage k (.panic .null) c argv).result s = (.error e, t)) :
    ∃ n, StackAt k c s n ∧ (Fetched argv → Strays ((n - 1) * PGSIZE) argv 0 (n * PGSIZE)) := by
  have hM := Multiset.coe_nodup.2 hnd
  obtain ⟨r, s₁, hload, hs₁⟩ := (loadImage_spec hM hok (c := c)).returns hl.work
  unfold buildImage at h
  rw [result_bind, hload] at h
  cases r with
  | none => cases h
  | some im =>
    obtain ⟨T, P, C, elf, hs, h₁, -, hprog⟩ := hs₁
    have hspace := hprog.segs.space
    refine ⟨roundUp im.sz + 2, ?_,
      ((stackImage_spec hM hok (.inr rfl) hspace).of_error h₁ h).2.2⟩
    obtain ⟨r, s₂, halloc, T1, -, -, hend⟩ :=
      (allocuvm_space hM hok hspace.round ((roundUp im.sz + 2) * PGSIZE)).returns h₁
    refine ⟨im, s₁, s₂, hload, rfl, ?_⟩
    by_cases h0 : r = 0
    · -- There is no stack, and `exec` has only the directory to free.
      rw [if_pos h0] at hend
      subst h0
      obtain ⟨_, s₃, hfree, -⟩ := (freevm_spec hM hok).returns hend.1.toHas
      have hret : (stackImage k (.panic .null) im argv).result s₁ = (.ok none, s₃) := by
        unfold stackImage
        rw [result_bind, makeStack_none halloc]
        dsimp only
        rw [result_bind, hfree]
        rfl
      cases hret.symm.trans h
    · rw [if_neg h0] at hend
      obtain ⟨P1, hall⟩ := hend
      rw [halloc, hall.stack.1]

theorem Loadable.stackAt {elf : Elfhdr} {hs : List Proghdr} (h : Loadable c elf hs)
    (hcalm : s.fails = []) (htop : (roundUp (imageSize (segments hs)) + 2) * PGSIZE < KERNBASE)
    (hroom : 1028 + roundUp (imageSize (segments hs)) < l.length) :
    StackAt k c s (roundUp (imageSize (segments hs)) + 2) := by
  have hM := Multiset.coe_nodup.2 hnd
  obtain ⟨im, s₁, hload⟩ := h.loads hl hnd hok hcalm (by omega)
  obtain ⟨T, P, C, elf, hs', h₁, -, hprog⟩ :=
    (loadImage_spec hM hok).of_ok (hl.calm hcalm) hload
  have hspace := hprog.segs.space
  have hsize := hprog.size_eq h
  rw [← hsize] at htop hroom ⊢
  obtain ⟨r, s₂, halloc, T1, -, -, hend⟩ :=
    (allocuvm_space hM hok hspace.round ((roundUp im.sz + 2) * PGSIZE)).returns h₁
  refine ⟨im, s₁, s₂, hload, rfl, ?_⟩
  by_cases h0 : r = 0
  · rw [if_pos h0] at hend
    have hshort := ((hend.2.resolve_left (not_le.2 htop)).resolve_left
      (Nat.mul_pos (Nat.succ_pos _) (by decide)).ne').resolve_left not_false
    rw [hspace.card_userPages, roundUp_mul, roundUp_mul, Multiset.coe_card, Multiset.card_zero]
      at hshort
    omega
  · rw [if_neg h0] at hend
    obtain ⟨P1, hall⟩ := hend
    rw [halloc, hall.stack.1]

theorem uva2ka_with_table :
    (∀ d s' bs t uva, (setupkvm k).result s = (.ok (some d), s') →
      exec (Build.step k d) s' bs = some t → uva < 2 ^ 32 →
      ((∀ null, (uva2ka k null d (uva / PGSIZE)).result t =
        (.ok (if Present (pte t.mem d (uva / PGSIZE)) ∧ User (pte t.mem d (uva / PGSIZE)) then
          some (frame (pte t.mem d (uva / PGSIZE))) else none), t)) ↔
        tab t.mem d (uva / PGSIZE / 1024) ≠ none)) ∧
    ∀ c argv, Fetched argv →
      ((∃ r s', (buildImage k (.panic .null) c argv).result s = (.ok r, s')) ↔
        ∀ n, StackAt k c s n → ¬Strays ((n - 1) * PGSIZE) argv 0 (n * PGSIZE)) ∧
      ∀ elf hs, Loadable c elf hs → s.fails = [] →
        (roundUp (imageSize (segments hs)) + 2) * PGSIZE < KERNBASE →
        1028 + roundUp (imageSize (segments hs)) < l.length →
        StackAt k c s (roundUp (imageSize (segments hs)) + 2) := by
  refine ⟨fun d s' bs t uva hset hrun _ => ⟨fun h hnone => ?_, fun hp null => ?_⟩,
    fun c argv hargs => ⟨⟨?_, fun h => ?_⟩, fun elf hs hload => hload.stackAt hl hnd hok⟩⟩
  · have hnull := h (.panic .null)
    rw [uva2ka_without _ hnone] at hnull
    cases hnull
  · have ht := exec_invariant (Built k l s.mem d 0) (built_of_setupkvm hl hnd hok hset)
      (fun _ _ _ hs hstep => Build.step_built (Multiset.coe_nodup.2 hnd) hok hstep hs) hrun
    obtain ⟨p, hp⟩ := Option.ne_none_iff_exists'.1 hp
    rw [uva2ka_result null hp, if_congr (ht.usable_iff hok) rfl rfl]
  · rintro ⟨r, s', hr⟩ n hat hstray
    obtain ⟨t, ht⟩ := hat.null hl hnd hok argv hstray
    cases hr.symm.trans ht
  · rcases hr : (buildImage k (.panic .null) c argv).result s with ⟨r, t⟩
    cases r with
    | ok r => exact ⟨r, t, rfl⟩
    | error e =>
      obtain ⟨n, hat, hstray⟩ := StackAt.of_null hl hnd hok hr
      exact absurd (hstray hargs) (h n hat)

end

theorem boot_page : ∃ (s₀ s₁ s₂ : Phys) (l : List ℕ) (d : ℕ) (T : ℕ → Option ℕ) (P : ℕ → ℕ),
    (s₀.Free l ∧ l.Nodup ∧ (∀ f ∈ l, smallKernel.Ok f) ∧ s₀.fails = [] ∧ l.length = 0xDEFC) ∧
    (setupkvm smallKernel).result s₀ = (.ok (some d), s₁) ∧
    exec (Build.step smallKernel d) s₁ [.alloc 0 PGSIZE] = some s₂ ∧
    Has False (l : Multiset ℕ) s₀.mem d T P 0 s₂ ∧ Bare T ∧ Present (P 0) ∧ User (P 0) := by
  obtain ⟨s₀, l, hl, hnd, hok, hcalm, hlen⟩ := boot_free
  have hM := Multiset.coe_nodup.2 hnd
  obtain ⟨r, s₁, hset, hs₁⟩ := (setupkvm_spec hM hok).returns (hl.calm hcalm)
  cases r with
  | none =>
    have hshort := hs₁.2.resolve_left not_false
    rw [Multiset.coe_card, Multiset.card_zero, hlen] at hshort
    exact absurd hshort (by decide)
  | some d =>
    obtain ⟨T, hT, hs₁⟩ := hs₁
    obtain ⟨r, s₂, halloc, T', -, hmore, hend⟩ :=
      (allocuvm_space (U := True) hM hok (.zero smallKernel) PGSIZE).returns hs₁.holds
    by_cases h0 : r = 0
    · rw [if_pos h0] at hend
      have hshort := ((hend.2.resolve_left (by decide)).resolve_left
        (by decide)).resolve_left not_false
      rw [userPages_kernelMap, Multiset.coe_card, Multiset.card_zero, hlen] at hshort
      exact absurd hshort (by decide)
    rw [if_neg h0] at hend
    obtain ⟨P, hall⟩ := hend
    obtain ⟨f, hf⟩ : ∃ f, P 0 = mkPte f (PTE_W + PTE_U) := hall.grown 0
    refine ⟨s₀, s₁, s₂, l, d, T', P, ⟨hl, hnd, hok, hcalm, hlen⟩, hset, ?_, hall.holds.toHas,
      (bare_of_within hT).more hmore (by decide), hf ▸ present_mkPte _ _, hf ▸ user_mkPte f⟩
    have hstep : Build.step smallKernel d s₁ (.alloc 0 PGSIZE) = some s₂ := by
      simp only [Build.step, halloc]
    rw [exec_cons hstep]
    rfl

theorem long_argument_null :
    (∃ (s₀ s₁ s₂ t : Phys) (d : ℕ), (setupkvm smallKernel).result s₀ = (.ok (some d), s₁) ∧
      exec (Build.step smallKernel d) s₁ [.alloc 0 PGSIZE] = some s₂ ∧
      t = s₂.setPage (frame (pte s₂.mem d 0)) (setEntry (content s₂.mem d 0) 0 5) ∧
      ¬Present (pte t.mem d (0xFDC00000 / PGSIZE)) ∧
      (uva2ka smallKernel (nullPte d) d (0xFDC00000 / PGSIZE)).result t = (.ok (some 0), t)) ∧
    ∃ (s t : Phys) (l : List ℕ), s.Free l ∧ l.Nodup ∧ (∀ f ∈ l, smallKernel.Ok f) ∧
      (buildImage smallKernel (.panic .null) tinyElf
        [List.replicate (MAXSTR + 3 * PGSIZE - 1) 97]).result s = (.error .null, t) := by
  constructor
  · obtain ⟨s₀, s₁, s₂, l, d, T, P, ⟨-, hnd, -⟩, hset, hrun, hs, hbare, hpres, -⟩ := boot_page
    have hT : T (0xFDC00000 / PGSIZE / 1024) = none := hbare _ (by decide) (by decide)
    have hword : entry (setEntry (content s₂.mem d 0) 0 5) 0 = 5 :=
      entry_setEntry _ (by decide) (by decide)
    refine ⟨s₀, s₁, s₂, _, d, hset, hrun, rfl, ?_⟩
    generalize setEntry (content s₂.mem d 0) 0 5 = b at hword ⊢
    have ht := hs.setPage (Multiset.coe_nodup.2 hnd) b
      (.inl (mem_userPages.2 ⟨0, by decide, hpres, rfl⟩))
    have hpage : content (s₂.setPage (frame (P 0)) b).mem d 0 = b := by
      unfold content
      rw [ht.pte, Phys.setPage_self]
    rw [hs.pte, ht.pte, hs.not_present hT, uva2ka_without _ (by rw [ht.tab, hT]),
      nullPte_result (by rw [ht.pte]; exact hpres), hpage, hword]
    exact ⟨by decide, rfl⟩
  · obtain ⟨s, l, hl, hnd, hok, hcalm, hlen⟩ := boot_free
    have hat := tinyElf_loadable.stackAt hl hnd hok hcalm (by decide) (by rw [hlen]; decide)
    have hlong : Stray (2 * PGSIZE)
        ((List.replicate (MAXSTR + 3 * PGSIZE - 1) (97 : UInt8)).length + 1) := by
      rw [List.length_replicate]
      decide
    obtain ⟨t, ht⟩ := hat.null hl hnd hok [List.replicate (MAXSTR + 3 * PGSIZE - 1) 97]
      ⟨by decide, .inl hlong⟩
    exact ⟨s, t, l, hl, hnd, hok, ht⟩

theorem uva2ka_with_table_boot : ∃ (s₀ s₁ s₂ t : Phys) (d : ℕ) (img : Image),
    (setupkvm smallKernel).result s₀ = (.ok (some d), s₁) ∧
    exec (Build.step smallKernel d) s₁ [.alloc 0 PGSIZE] = some s₂ ∧
    (∀ null, (uva2ka smallKernel null d 0).result s₂ =
      (.ok (some (frame (pte s₂.mem d 0))), s₂)) ∧
    (buildImage smallKernel (.panic .null) tinyElf [[97]]).result s₀ = (.ok (some img), t) := by
  obtain ⟨s₀, s₁, s₂, l, d, T, P, ⟨hl, hnd, hok, hcalm, hlen⟩, hset, hrun, hs, -, hpres, huser⟩ :=
    boot_page
  obtain ⟨hlook, hexec⟩ := uva2ka_with_table hl hnd hok
  have hfetched : Fetched [[97]] := List.forall_mem_singleton.2 (by decide)
  have htab : tab s₂.mem d 0 ≠ none := fun h => by
    rw [hs.not_present (v := 0) (by rw [← hs.tab]; exact h)] at hpres
    exact absurd hpres Nat.zero_ne_one
  have hshort : ([97] : List UInt8).length + 1 ≤ MAXSTR := by decide
  obtain ⟨r, t, hr⟩ := (hexec tinyElf [[97]] hfetched).1.2 fun n _ h =>
    h.2.elim (fun h => not_lt.2 (hshort.trans (Nat.le_add_left _ _)) h.1) fun h => h.2
  have hend := (buildImage_spec (Multiset.coe_nodup.2 hnd) hok (.inr rfl)).of_ok
    (hl.calm hcalm) hr
  cases r with
  | none =>
    exfalso
    rcases hend.2 _ _ tinyElf_loadable with h | h | h | h
    · exact absurd h (by decide)
    · have hshort := h.resolve_left not_false
      rw [Multiset.coe_card, Multiset.card_zero, hlen] at hshort
      exact absurd hshort (by decide)
    · exact absurd h (by decide)
    · exact absurd h (by decide)
  | some img =>
    refine ⟨s₀, s₁, s₂, t, d, img, hset, hrun, fun null => ?_, hr⟩
    have hfound := (hlook d s₁ _ s₂ 0 hset hrun (by decide)).2 htab null
    rw [hs.pte, if_pos ⟨hpres, huser⟩] at hfound
    rw [hs.pte]
    exact hfound

end Xv6.Vm
