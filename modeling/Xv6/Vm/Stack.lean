import Xv6.Vm.Load

namespace Xv6.Vm

open Lib
open Multiset (card)

def up4 (n : ℕ) : ℕ := (n + 3) / 4 * 4

def argPieces : List (List UInt8) → ℕ → List (ℕ × List UInt8)
  | [], _ => []
  | arg :: rest, sp =>
    let sp := sp - up4 (arg.length + 1)
    (sp, arg ++ [0]) :: argPieces rest sp

def argBytes (argv : List (List UInt8)) : ℕ := (argv.map fun arg => up4 (arg.length + 1)).sum

def stackBytes (argv : List (List UInt8)) : ℕ := argBytes argv + 4 * (argv.length + 4)

def stackWords (argv : List (List UInt8)) (sz : ℕ) : List ℕ :=
  ustack ((argPieces argv sz).map Prod.fst) (sz - argBytes argv)

def stackPieces (argv : List (List UInt8)) (sz : ℕ) : List (ℕ × List UInt8) :=
  argPieces argv sz ++ [(sz - stackBytes argv, (stackWords argv sz).flatMap (digits 4))]

structure Guarded (P : ℕ → ℕ) (n : ℕ) : Prop where
  two : 2 ≤ n
  le : n ≤ KERNPAGE
  usable : ∀ v, Usable (P v) → v < n ∧ v + 2 ≠ n

abbrev MAXSTR : ℕ := 2 ^ 32 - DEVSPACE * PGSIZE

def Tabled (T : ℕ → Option ℕ) (n : ℕ) : Prop :=
  ∀ v < 2 ^ 20, v < n ∨ KERNPAGE ≤ v ∧ v < KERNPAGE + PHYSTOP ∨ DEVSPACE ≤ v →
    T (v / 1024) ≠ none

def Fetched (argv : List (List UInt8)) : Prop := ∀ arg ∈ argv, arg.length + 1 ≤ KERNBASE

def Stray (sp len : ℕ) : Prop :=
  sp + MAXSTR < len ∧ len ≤ sp + (2 ^ 32 - (KERNPAGE + PHYSTOP) * PGSIZE)

instance (sp len : ℕ) : Decidable (Stray sp len) := inferInstanceAs (Decidable (_ ∧ _))

def Strays (lo : ℕ) : List (List UInt8) → ℕ → ℕ → Prop
  | [], _, _ => False
  | arg :: rest, argc, sp => argc < MAXARG ∧ (Stray sp (arg.length + 1) ∨
      lo + up4 (arg.length + 1) ≤ sp ∧ Strays lo rest (argc + 1) (sp - up4 (arg.length + 1)))

section
variable {P : ℕ → ℕ} {n sp len : ℕ}

theorem subWord_up4 (hsp : sp < 2 ^ 32) (halign : sp % 4 = 0) (h : len ≤ sp) :
    subWord sp len / 4 * 4 = sp - up4 len ∧ up4 len ≤ sp := by
  unfold subWord up4
  omega

section
variable (hP : Guarded P n)
include hP

theorem Guarded.size_le : n * PGSIZE ≤ 2 ^ 31 :=
  Nat.mul_le_mul_right PGSIZE hP.le

theorem Guarded.last_page : (n - 1) * PGSIZE + PGSIZE = n * PGSIZE := by
  have hn := hP.two
  rw [← Nat.succ_mul, Nat.succ_eq_add_one, Nat.sub_add_cancel (by omega)]

theorem Guarded.push_fits (halign : sp % 4 = 0) (hlo : (n - 1) * PGSIZE ≤ sp)
    (hhi : sp ≤ n * PGSIZE)
    (hlen : 0 < len) (h : ∀ i < len, Usable (P ((subWord sp len / 4 * 4 + i) / PGSIZE))) :
    subWord sp len / 4 * 4 = sp - up4 len ∧ (n - 1) * PGSIZE + up4 len ≤ sp := by
  have hn := hP.two
  have hmax := hP.size_le
  by_cases hle : len ≤ sp
  · obtain ⟨hva, hup⟩ := subWord_up4 (by omega) halign hle
    refine ⟨hva, ?_⟩
    by_contra hlow
    rw [hva] at h
    have hin : sp - up4 len ≤ (n - 1) * PGSIZE - 4 ∧ (n - 1) * PGSIZE - 4 < sp - up4 len + len := by
      clear h
      unfold up4 at *
      simp only [PGSIZE] at *
      omega
    have hword := h ((n - 1) * PGSIZE - 4 - (sp - up4 len)) (by omega)
    rw [Nat.add_sub_cancel' hin.1] at hword
    refine (hP.usable _ hword).2 ?_
    clear h hword
    simp only [PGSIZE] at *
    omega
  · -- The last byte is at the end of the address space, or has wrapped again.
    have hlast := (hP.usable _ (h (len - 1) (by omega))).1
    have hend := (Nat.div_lt_iff_lt_mul (by decide)).1 hlast
    have hge : 2 ^ 32 ≤ subWord sp len / 4 * 4 + (len - 1) + 4 := by
      unfold subWord
      omega
    omega

theorem Guarded.push_inside (halign : sp % 4 = 0)
    (hfit : (n - 1) * PGSIZE + up4 len ≤ sp) (hhi : sp ≤ n * PGSIZE) {i : ℕ} (hi : i < len) :
    (subWord sp len / 4 * 4 + i) % 2 ^ 32 / PGSIZE = n - 1 := by
  have hup : len ≤ up4 len := by
    unfold up4
    omega
  have hle : up4 len ≤ sp := (Nat.le_add_left _ _).trans hfit
  have hmax : sp ≤ 2 ^ 31 := hhi.trans hP.size_le
  have hva : subWord sp len / 4 * 4 = sp - up4 len :=
    (subWord_up4 (by omega) halign (hup.trans hle)).1
  have hend : (n - 1 + 1) * PGSIZE = n * PGSIZE := by
    rw [Nat.sub_add_cancel (hP.two.trans' (by decide))]
  rw [hva, Nat.mod_eq_of_lt (by omega)]
  refine Nat.div_eq_of_lt_le ((Nat.le_sub_of_add_le hfit).trans (Nat.le_add_right _ _)) ?_
  rw [hend]
  exact lt_of_lt_of_le (by omega) hhi

end

theorem Guarded.stray {T : ℕ → Option ℕ} {i : ℕ} (hP : Guarded P n) (htab : Tabled T n)
    (hsp : sp ≤ n * PGSIZE) (hlen : len ≤ KERNBASE) (hi : i < len)
    (hT : T ((subWord sp len / 4 * 4 + i) % 2 ^ 32 / PGSIZE / 1024) = none)
    (hreached : i = 0 ∨ Usable (P (subWord sp len / 4 * 4 / PGSIZE))) : Stray sp len := by
  have hmax := hP.size_le
  have hva : subWord sp len / 4 * 4 < 2 ^ 32 := by
    unfold subWord
    omega
  have hpage : (subWord sp len / 4 * 4 + i) % 2 ^ 32 / PGSIZE < 2 ^ 20 :=
    Nat.div_lt_of_lt_mul ((Nat.mod_lt _ (by decide)).trans_le (by decide))
  by_cases hle : len ≤ sp
  · have hlt : (subWord sp len / 4 * 4 + i) % 2 ^ 32 < n * PGSIZE := by
      unfold subWord
      omega
    rw [Nat.mul_comm n] at hlt
    exact absurd hT (htab _ hpage (.inl (Nat.div_lt_of_lt_mul hlt)))
  have hkern : KERNBASE ≤ subWord sp len / 4 * 4 := by
    unfold subWord
    simp only [KERNBASE] at *
    omega
  have h0 : i = 0 := by
    refine hreached.resolve_right fun hu => ?_
    have hlt := ((hP.usable _ hu).1.trans_le hP.le)
    simp only [KERNPAGE, KERNBASE, PGSIZE] at *
    omega
  rw [h0, Nat.add_zero, Nat.mod_eq_of_lt hva] at hT hpage
  by_contra hnot
  refine htab _ hpage (.inr ?_) hT
  clear hT hreached hpage hP
  unfold Stray subWord at *
  simp only [MAXSTR, KERNPAGE, KERNBASE, PHYSTOP, DEVSPACE, PGSIZE] at *
  omega

theorem Stray.bare {T : ℕ → Option ℕ} (h : Stray sp len) (hT : Bare T) (hsp : sp ≤ 2 ^ 31) :
    T (subWord sp len / 4 * 4 / PGSIZE / 1024) = none := by
  have hmax : len < 2 ^ 32 :=
    (h.2.trans (Nat.add_le_add_right hsp _)).trans_lt (by decide)
  refine hT _ ?_ ?_
  all_goals
    unfold Stray at h
    unfold subWord
    simp only [MAXSTR, KERNPAGE, KERNBASE, PHYSTOP, DEVSPACE, PGSIZE] at *
    omega

theorem Strays.long {lo argc : ℕ} {argv : List (List UInt8)} (h : Strays lo argv argc sp) :
    ∃ arg ∈ argv, MAXSTR < arg.length + 1 := by
  induction argv generalizing argc sp with
  | nil => exact h.elim
  | cons arg rest ih =>
    rcases h.2 with hstray | ⟨-, hrest⟩
    · exact ⟨arg, List.mem_cons_self, by have := hstray.1; omega⟩
    · obtain ⟨arg', hmem, hlong⟩ := ih hrest
      exact ⟨arg', List.mem_cons_of_mem _ hmem, hlong⟩

theorem exists_long {lo argc : ℕ} {argv : List (List UInt8)}
    (h : Fetched argv → Strays lo argv argc sp) : ∃ arg ∈ argv, MAXSTR < arg.length + 1 := by
  by_cases hargs : Fetched argv
  · exact (h hargs).long
  · unfold Fetched at hargs
    push Not at hargs
    exact hargs.imp fun arg harg => ⟨harg.1, lt_trans (by decide) harg.2⟩

theorem up4_four_mul (m : ℕ) : up4 (4 * m) = 4 * m := by
  unfold up4
  omega

theorem subWord_four_mul {m : ℕ} (h : sp % 4 = 0) :
    subWord sp (4 * m) / 4 * 4 = subWord sp (4 * m) := by
  unfold subWord
  omega

theorem argPieces_length (argv : List (List UInt8)) (sp : ℕ) :
    (argPieces argv sp).length = argv.length := by
  induction argv generalizing sp with
  | nil => rfl
  | cons arg rest ih => exact congrArg (· + 1) (ih _)

theorem argBytes_cons (arg : List UInt8) (rest : List (List UInt8)) :
    argBytes (arg :: rest) = up4 (arg.length + 1) + argBytes rest := List.sum_cons

theorem ustack_length (ptrs : List ℕ) (sp : ℕ) : (ustack ptrs sp).length = ptrs.length + 4 := by
  unfold ustack
  rw [List.length_cons, List.length_cons, List.length_cons, List.length_append,
    List.length_singleton]

end

section
variable {k : Layout} {F : Prop} {M Y : Multiset ℕ} {m0 : Mem} {d n : ℕ} {T : ℕ → Option ℕ}
  {P : ℕ → ℕ} {C : ℕ → Bytes PGSIZE} {null : Op (Option ℕ)} (hM : M.Nodup) (hok : ∀ f ∈ M, k.Ok f)
  (hnull : NullKnown null) (hP : Guarded P n)
include hM hok hnull hP

theorem push_spec {sp len : ℕ} {bs : List UInt8} (hbs : bs.length = len) (hlen : 0 < len)
    (halign : sp % 4 = 0) (hlo : (n - 1) * PGSIZE ≤ sp) (hhi : sp ≤ n * PGSIZE) :
    Triple (Holds F M m0 d T P C Y) (copyout k null d (subWord sp len / 4 * 4) bs)
      (fun r s => ∃ C', Holds F M m0 d T P C' Y s ∧ (r = true →
        subWord sp len / 4 * 4 = sp - up4 len ∧ (n - 1) * PGSIZE + up4 len ≤ sp ∧
        flat C' = overlay (flat C) (sp - up4 len) bs) ∧
        (r = false → Usable (P (n - 1)) → sp < (n - 1) * PGSIZE + up4 len))
      fun e _ => e = .null ∧ null = .panic .null ∧
        (Tabled T n → len ≤ KERNBASE → Stray sp len) := by
  subst hbs
  have hkern : ∀ v, Usable (P v) → v < KERNPAGE := fun v hv => (hP.usable v hv).1.trans_le hP.le
  have hva : subWord sp bs.length / 4 * 4 < 2 ^ 32 := by
    unfold subWord
    omega
  refine (copyoutLoop_spec hM hok hnull hkern hva le_rfl).mono (fun r s ⟨C', hs, hr⟩ => ⟨C', hs, ?_,
    ?_⟩)
    fun e _ ⟨he, hp, i, hi, hT, hreached⟩ => ⟨he, hp, fun htab hmax =>
      hP.stray htab hhi hmax hi hT hreached⟩
  · rintro rfl
    obtain ⟨hall, hC'⟩ := hr
    obtain ⟨heq, hfit⟩ := hP.push_fits halign hlo hhi hlen hall
    rw [heq] at hC'
    exact ⟨heq, hfit, hC'⟩
  · rintro rfl huse
    by_contra hfit
    obtain ⟨i, hi, hnot⟩ := hr
    rw [hP.push_inside halign (not_lt.1 hfit) hhi hi] at hnot
    exact hnot huse

theorem pushArgs_spec {argv : List (List UInt8)} {argc sp : ℕ} (halign : sp % 4 = 0)
    (hlo : (n - 1) * PGSIZE ≤ sp) (hhi : sp ≤ n * PGSIZE) :
    Triple (Holds F M m0 d T P C Y) (pushArgs k null d argv argc sp)
      (fun r s => ∃ C', Holds F M m0 d T P C' Y s ∧ (∀ ptrs last, r = some (ptrs, last) →
        ptrs = (argPieces argv sp).map Prod.fst ∧ last = sp - argBytes argv ∧ last % 4 = 0 ∧
        (n - 1) * PGSIZE + argBytes argv ≤ sp ∧ flat C' = overlays (flat C) (argPieces argv sp) ∧
        argc + argv.length ≤ max argc MAXARG) ∧
        (r = none → Usable (P (n - 1)) →
          sp < (n - 1) * PGSIZE + argBytes argv ∨ MAXARG < argc + argv.length))
      fun e _ => e = .null ∧ null = .panic .null ∧
        (Tabled T n → Fetched argv → Strays ((n - 1) * PGSIZE) argv argc sp) := by
  generalize hstart : (n - 1) * PGSIZE = lo at hlo ⊢
  generalize hend : n * PGSIZE = hi at hhi
  induction argv generalizing argc sp C with
  | nil =>
    refine .pure fun s hs => ⟨C, hs, ?_, fun h => absurd h nofun⟩
    rintro _ _ ⟨⟩
    exact ⟨rfl, rfl, halign, hlo, rfl, le_max_left _ _⟩
  | cons arg rest ih =>
    unfold pushArgs
    rw [List.length_cons, argBytes_cons]
    refine .ite (fun hargc => .pure fun s hs =>
      ⟨C, hs, fun _ _ h => absurd h nofun, fun _ _ => .inr (by omega)⟩) fun hargc => ?_
    have hlen : (arg ++ [0]).length = arg.length + 1 := List.length_append
    refine .bind ((push_spec hM hok hnull hP hlen (Nat.succ_pos _) halign
      (hstart ▸ hlo) (hend ▸ hhi)).err fun e _ ⟨he, hp, hstray⟩ => ⟨he, hp, fun htab hargs =>
        ⟨not_le.1 hargc, .inl (hstray htab (hargs arg List.mem_cons_self))⟩⟩) fun r => ?_
    refine .of_exists fun C1 => .of_state fun s1 h1 =>
      .pre (P := Holds F M m0 d T P C1 Y) ?_ fun _ heq => heq ▸ h1.1
    refine .ite (fun hr => ?_) fun hr => .pure fun s hs =>
      ⟨C1, hs, fun _ _ h => absurd h nofun, fun _ huse => .inl ?_⟩
    swap
    · have hlow := h1.2.2 (Bool.not_eq_true _ ▸ hr) huse
      omega
    obtain ⟨heq, hfit, hC1⟩ := h1.2.1 hr
    rw [hstart] at hfit
    have hup : up4 (arg.length + 1) % 4 = 0 := Nat.mul_mod_left _ _
    rw [heq]
    refine .bind ((ih (by omega) (by omega) (by omega)).err fun e _ ⟨he, hp, hrest⟩ => ⟨he, hp,
      fun htab hargs => ⟨not_le.1 hargc, .inr ⟨hfit, hrest htab fun arg' h =>
        hargs arg' (List.mem_cons_of_mem arg h)⟩⟩⟩) fun r => ?_
    refine .of_exists fun C2 => .of_state fun s2 h2 =>
      .pre (P := Holds F M m0 d T P C2 Y) ?_ fun _ heq => heq ▸ h2.1
    rcases r with _ | ⟨ptrs, last⟩
    · refine .pure fun s hs => ⟨C2, hs, fun _ _ h => absurd h nofun, fun _ huse => ?_⟩
      have hwhy := h2.2.2 rfl huse
      omega
    obtain ⟨hptrs, hlast, halign', hbytes, hC2, hcount⟩ := h2.2.1 ptrs last rfl
    refine .pure fun s hs => ⟨C2, hs, ?_, fun h => absurd h nofun⟩
    rintro _ _ ⟨⟩
    refine ⟨by rw [hptrs]; rfl, by omega, halign', by omega, ?_, by omega⟩
    rw [hC2, hC1]
    rfl

theorem pushStack_spec {argv : List (List UInt8)} :
    Triple (Holds F M m0 d T P C Y) (pushStack k null d argv (n * PGSIZE))
      (fun r s => ∃ C', Holds F M m0 d T P C' Y s ∧ (∀ sp, r = some sp →
        sp = n * PGSIZE - stackBytes argv ∧ stackBytes argv ≤ PGSIZE ∧
        flat C' = overlays (flat C) (stackPieces argv (n * PGSIZE)) ∧ argv.length ≤ MAXARG) ∧
        (r = none → Usable (P (n - 1)) → PGSIZE < stackBytes argv ∨ MAXARG < argv.length))
      fun e _ => e = .null ∧ null = .panic .null ∧
        (Tabled T n → Fetched argv → Strays ((n - 1) * PGSIZE) argv 0 (n * PGSIZE)) := by
  have hpage := hP.last_page
  have hwhole : n * PGSIZE % 4 = 0 := by
    simp only [PGSIZE]
    omega
  unfold pushStack
  refine .bind (pushArgs_spec hM hok hnull hP hwhole
    (Nat.mul_le_mul_right _ (Nat.sub_le n 1)) le_rfl) fun r => .of_exists fun C1 =>
    .of_state fun s1 h1 => .pre (P := Holds F M m0 d T P C1 Y) ?_ fun _ heq => heq ▸ h1.1
  have hsplit : stackBytes argv = argBytes argv + 4 * (argv.length + 4) := rfl
  rcases r with _ | ⟨ptrs, last⟩
  · refine .pure fun s hs => ⟨C1, hs, fun _ h => absurd h nofun, fun _ huse => ?_⟩
    have hwhy := h1.2.2 rfl huse
    omega
  obtain ⟨hptrs, hlast, halign, hbytes, hC1, hcount⟩ := h1.2.1 ptrs last rfl
  have hargc : ptrs.length = argv.length := by rw [hptrs, List.length_map, argPieces_length]
  have hwords : ((ustack ptrs last).flatMap (digits 4)).length = 4 * (argv.length + 4) := by
    rw [length_words, ustack_length, hargc]
  have htop : subWord last ((3 + ptrs.length + 1) * 4) =
      subWord last (4 * (argv.length + 4)) / 4 * 4 := by
    rw [subWord_four_mul halign, hargc]
    congr 1
    omega
  have hlo : (n - 1) * PGSIZE ≤ last := by
    rw [hlast]
    exact Nat.le_sub_of_add_le hbytes
  have hhi : last ≤ n * PGSIZE := hlast ▸ Nat.sub_le _ _
  dsimp only
  rw [htop]
  refine .bind ((push_spec hM hok hnull hP hwords (by omega) halign hlo
    hhi).err fun e _ ⟨he, hp, hstray⟩ => ⟨he, hp,
      fun htab _ => absurd (hstray htab ?_).1 ?_⟩) fun r => .of_exists fun C2 => .of_state fun s2 h2 =>
      .pre (P := Holds F M m0 d T P C2 Y) ?_ fun _ heq => heq ▸ h2.1
  · simp only [MAXARG, KERNBASE] at *
    omega
  · simp only [MAXSTR, MAXARG, DEVSPACE, PGSIZE] at *
    omega
  refine .ite (fun hr => ?_) fun hr => .pure fun s hs =>
    ⟨C2, hs, fun _ h => absurd h nofun, fun _ huse => .inl ?_⟩
  swap
  · have hlow := h2.2.2 (Bool.not_eq_true _ ▸ hr) huse
    rw [up4_four_mul] at hlow
    omega
  obtain ⟨heq, hfit, hC2⟩ := h2.2.1 hr
  rw [up4_four_mul] at heq hfit hC2
  refine .pure fun s hs => ⟨C2, hs, ?_, fun h => absurd h nofun⟩
  rintro _ ⟨⟩
  have htotal : last - 4 * (argv.length + 4) = n * PGSIZE - stackBytes argv := by omega
  refine ⟨by rw [heq, htotal], by omega, ?_, by omega⟩
  · rw [hC2, hC1, htotal, hptrs, hlast, stackPieces, overlays_concat]
    rfl

end

variable {k : Layout} {F : Prop} {M Y : Multiset ℕ} {m0 : Mem} {d sz : ℕ} {T : ℕ → Option ℕ}
  {P P' : ℕ → ℕ} {C : ℕ → Bytes PGSIZE} {s : Phys}

theorem Space.guarded {n : ℕ} (h : Space True k P (n * PGSIZE)) (hn : 2 ≤ n)
    (hP : P' = Function.update P (n - 2) (noUser (P (n - 2)))) : Guarded P' n := by
  have hle : n ≤ KERNPAGE :=
    Nat.le_of_mul_le_mul_right (h.le.trans (by decide)) (show 0 < PGSIZE by decide)
  subst hP
  refine ⟨hn, hle, fun v hv => ?_⟩
  by_cases hguard : v = n - 2
  · subst hguard
    rw [Function.update_self] at hv
    exact absurd hv.2.1 (not_user_noUser _)
  rw [Function.update_of_ne hguard] at hv
  refine ⟨?_, by omega⟩
  by_contra hge
  by_cases hkern : v < KERNPAGE
  · rw [h.above v hkern (Nat.mul_le_mul_right _ (not_lt.1 hge))] at hv
    exact absurd hv.1 Nat.zero_ne_one
  · rw [h.kern v (not_lt.1 hkern)] at hv
    exact kernelMap_not_user v hv.2.1

theorem Space.tabled {n : ℕ} (h : Space True k P (n * PGSIZE)) (hs : Has F M m0 d T P Y s) :
    Tabled T n := by
  intro v hv hwhere hT
  have hp : Present (P v) := by
    rcases hwhere with hlt | hmem | hdev
    · exact h.full trivial v (Nat.mul_lt_mul_of_pos_right hlt (by decide))
    · rw [h.kern v hmem.1]
      exact kernelMap_mem hmem.1 hmem.2
    · rw [h.kern v (le_trans (by decide) hdev)]
      exact kernelMap_dev hdev hv
  rw [hs.not_present hT] at hp
  exact absurd hp Nat.zero_ne_one

structure Stacked (k : Layout) (P : ℕ → ℕ) (C : ℕ → Bytes PGSIZE) (n : ℕ)
    (argv : List (List UInt8)) (P' : ℕ → ℕ) (C' : ℕ → Bytes PGSIZE) (sp : ℕ) : Prop where
  guarded : Guarded P' n
  space : Space True k P' (n * PGSIZE)
  below : ∀ v < n - 2, P' v = P v
  user : User (P' (n - 1))
  sp_eq : sp = n * PGSIZE - stackBytes argv
  fits : stackBytes argv ≤ PGSIZE
  bytes : flat C' = overlays (flat (zeroed C (n - 2) n)) (stackPieces argv (n * PGSIZE))
  argc : argv.length ≤ MAXARG

theorem Has.usable {v : ℕ} (hok : ∀ f ∈ M, k.Ok f) (h : Has F M m0 d T P Y s) (hv : v < KERNPAGE)
    (hp : Present (P v)) (hu : User (P v)) : Usable (P v) := by
  refine ⟨hp, hu, fun heq => ?_⟩
  have hlt := (hok _ (h.mem_dir (mem_dirPages_user hv hp))).2
  rw [heq] at hlt
  exact absurd hlt (by decide)

def NoRoom (F : Prop) (M Y : Multiset ℕ) (P : ℕ → ℕ) (sz : ℕ) (argv : List (List UInt8)) : Prop :=
  KERNBASE ≤ (roundUp sz + 2) * PGSIZE ∨
    Short F M (1028 + card (userPages P) + card Y) ∨
    PGSIZE < stackBytes argv ∨ MAXARG < argv.length

variable {null : Op (Option ℕ)} (hM : M.Nodup) (hok : ∀ f ∈ M, k.Ok f) (hnull : NullKnown null)
include hM hok hnull

variable {argv : List (List UInt8)}

omit hM hok hnull in
theorem roundUp_mul (n : ℕ) : roundUp (n * PGSIZE) = n := by
  unfold roundUp
  simp only [PGSIZE]
  omega

omit hM hok hnull in
theorem Allocated.stack {T' : ℕ → Option ℕ} {r : ℕ} (h : Allocated True k F M m0 d P C Y
    (roundUp sz * PGSIZE) ((roundUp sz + 2) * PGSIZE) T' P' r s) :
    r = (roundUp sz + 2) * PGSIZE ∧ Present (P' (roundUp sz)) ∧
    Guarded (Function.update P' (roundUp sz) (noUser (P' (roundUp sz)))) (roundUp sz + 2) ∧
    Space True k (Function.update P' (roundUp sz) (noUser (P' (roundUp sz))))
      ((roundUp sz + 2) * PGSIZE) ∧
    User (Function.update P' (roundUp sz) (noUser (P' (roundUp sz))) (roundUp sz + 1)) := by
  have hle : roundUp sz * PGSIZE ≤ (roundUp sz + 2) * PGSIZE :=
    Nat.mul_le_mul_right _ (Nat.le_add_right _ 2)
  have hbelow : roundUp sz * PGSIZE < (roundUp sz + 2) * PGSIZE :=
    Nat.mul_lt_mul_of_pos_right (by omega) (by decide)
  have hsize : r = (roundUp sz + 2) * PGSIZE := h.size.trans (max_eq_right hle)
  have hspace : Space True k P' ((roundUp sz + 2) * PGSIZE) := hsize ▸ h.space
  have hpres : Present (P' (roundUp sz)) := hspace.full trivial _ hbelow
  refine ⟨hsize, hpres, hspace.guarded (Nat.le_add_left 2 _) rfl,
    hspace.update hbelow (present_noUser hpres), ?_⟩
  have hx := h.grown (roundUp sz + 1)
  rw [roundUp_mul, roundUp_mul, if_pos (by omega)] at hx
  obtain ⟨f, hf⟩ := hx
  rw [Function.update_of_ne (by omega), hf]
  exact user_mkPte f

theorem makeStack_spec (hP : Space True k P sz) :
    Triple (Holds F M m0 d T P C Y) (makeStack k null d argv sz)
      (fun r s => ∃ T' P' C', Holds F M m0 d T' P' C' Y s ∧ (∀ sz' sp, r = some (sz', sp) →
        sz' = (roundUp sz + 2) * PGSIZE ∧ Stacked k P C (roundUp sz + 2) argv P' C' sp) ∧
        (r = none → NoRoom F M Y P sz argv))
      fun e _ => e = .null ∧ null = .panic .null ∧ (Fetched argv →
        Strays ((roundUp sz + 1) * PGSIZE) argv 0 ((roundUp sz + 2) * PGSIZE)) := by
  have hnew : roundUp sz * PGSIZE + 2 * PGSIZE = (roundUp sz + 2) * PGSIZE :=
    (Nat.add_mul ..).symm
  unfold makeStack
  dsimp only
  rw [hnew]
  refine .bind ((allocuvm_space hM hok hP.round _).panics _) fun r =>
    .of_exists fun T1 => .of_and fun _ => .of_and fun _ =>
    Prog.Triple.ite (fun h0 => ?_) fun h0 => ?_
  · simp only [if_pos h0]
    refine .pure fun s hs => ⟨T1, P, C, hs.1, fun _ _ h => absurd h nofun, fun _ => ?_⟩
    rw [roundUp_mul, roundUp_mul] at hs
    refine hs.2.imp_right fun h => .inl (h.elim (fun h => ?_) fun h => h.mono (by omega))
    exact absurd h (Nat.mul_pos (Nat.succ_pos _) (by decide)).ne'
  simp only [if_neg h0]
  refine .of_exists fun P1 => .of_state fun s1 hall => ?_
  obtain ⟨hsize, hpres, hguarded, hspace, huser⟩ := hall.stack
  have hgrown := hall.grown
  have hholds := hall.holds
  subst hsize
  rw [roundUp_mul, roundUp_mul] at hgrown hholds
  have hguardPage : ((roundUp sz + 2) * PGSIZE - 2 * PGSIZE) / PGSIZE = roundUp sz := by
    rw [← hnew, Nat.add_sub_cancel, Nat.mul_div_cancel _ (by decide)]
  rw [hguardPage]
  refine .bind (((clearpteu_spec hM hpres).panics _).pre fun _ heq => heq ▸ hholds)
    fun _ => .of_state fun s2 h2 => .pre (P := Holds F M m0 d T1 _ _ Y) ?_ fun _ heq => heq ▸ h2
  refine .bind ((pushStack_spec hM hok hnull hguarded).err fun e _ ⟨he, hp, hstray⟩ => ⟨he, hp,
    hstray (hspace.tabled h2.toHas)⟩)
    fun r => .of_exists fun C3 => .of_state fun s3 h3 => ?_
  cases r with
  | none =>
    refine .pure fun s heq => ⟨T1, _, C3, heq ▸ h3.1, fun _ _ h => absurd h nofun, fun _ =>
      .inr (.inr (h3.2.2 rfl ?_))⟩
    have htop : (roundUp sz + 1) * PGSIZE < (roundUp sz + 2) * PGSIZE :=
      Nat.mul_lt_mul_of_pos_right (by omega) (by decide)
    exact h2.toHas.usable hok (hspace.lt_KERNPAGE htop) (hspace.full trivial _ htop) huser
  | some sp =>
    obtain ⟨hsp, hfits, hbytes, hargc⟩ := h3.2.1 sp rfl
    refine .pure fun s heq => ⟨T1, _, C3, heq ▸ h3.1, ?_, fun h => absurd h nofun⟩
    rintro _ _ ⟨⟩
    refine ⟨rfl, hguarded, hspace, fun v hv => ?_, huser, hsp, hfits, hbytes, hargc⟩
    have hx := hgrown v
    rw [if_neg (by omega)] at hx
    rw [Function.update_of_ne (by omega), hx]

theorem stackImage_spec {im : Loaded} (hP : Space True k P im.sz) :
    Triple (Holds F M m0 im.pgdir T P C Y) (stackImage k null im argv)
      (fun r s =>
        match r with
        | none => Work F M m0 Y s ∧ NoRoom F M Y P im.sz argv
        | some img => img.pgdir = im.pgdir ∧ img.eip = im.eip ∧
            img.sz = (roundUp im.sz + 2) * PGSIZE ∧
            ∃ T' P' C', Holds F M m0 img.pgdir T' P' C' Y s ∧
              Stacked k P C (roundUp im.sz + 2) argv P' C' img.esp)
      fun e _ => e = .null ∧ null = .panic .null ∧ (Fetched argv →
        Strays ((roundUp im.sz + 1) * PGSIZE) argv 0 ((roundUp im.sz + 2) * PGSIZE)) := by
  unfold stackImage
  refine .bind (makeStack_spec hM hok hnull hP) fun r => .of_exists fun T' =>
    .of_exists fun P' => .of_exists fun C' => .of_state fun s hr => ?_
  rcases r with _ | ⟨sz, sp⟩
  · exact .bind (((freevm_spec hM hok).panics _).pre fun _ heq => heq ▸ hr.1.toHas)
      fun _ => .pure fun _ hs => ⟨hs, hr.2.2 rfl⟩
  · obtain ⟨hsz, hstack⟩ := hr.2.1 sz sp rfl
    exact .pure fun s heq => ⟨rfl, rfl, hsz, T', P', C', heq ▸ hr.1, hstack⟩

omit hnull in
theorem stackImage_returns (im : Loaded) (argv : List (List UInt8)) (hP : Space True k P im.sz)
    (hs : Holds F M m0 im.pgdir T P C Y s) :
    ∃ r s', (stackImage k (pure none) im argv).result s = (.ok r, s') ∧
      match r with
      | none => Work F M m0 Y s' ∧ NoRoom F M Y P im.sz argv
      | some img => img.pgdir = im.pgdir ∧ img.eip = im.eip ∧
          img.sz = (roundUp im.sz + 2) * PGSIZE ∧
          ∃ T' P' C', Holds F M m0 img.pgdir T' P' C' Y s' ∧
            Stacked k P C (roundUp im.sz + 2) argv P' C' img.esp :=
  (stackImage_spec hM hok (.inl rfl) hP).returns_of (fun _ _ h => absurd h.2.1 nofun) hs

theorem buildImage_spec {c : List UInt8} :
    Triple (Work F M m0 Y) (buildImage k null c argv)
      (fun r s =>
        match r with
        | none => Work F M m0 Y s ∧ ∀ elf hs, Loadable c elf hs →
            KERNBASE ≤ (roundUp (imageSize (segments hs)) + 2) * PGSIZE ∨
            Short F M (1028 + roundUp (imageSize (segments hs)) + card Y) ∨
            PGSIZE < stackBytes argv ∨ MAXARG < argv.length
        | some img => ∃ im P C elf hs, Program k c im P C elf hs ∧ img.pgdir = im.pgdir ∧
            img.eip = im.eip ∧ img.sz = (roundUp im.sz + 2) * PGSIZE ∧
            ∃ T' P' C', Holds F M m0 img.pgdir T' P' C' Y s ∧
              Stacked k P C (roundUp im.sz + 2) argv P' C' img.esp)
      fun e _ => e = .null ∧ null = .panic .null ∧ ∃ arg ∈ argv, MAXSTR < arg.length + 1 := by
  unfold buildImage
  refine .bind ((loadImage_spec hM hok).panics _) fun r => ?_
  cases r with
  | none => exact .pure fun _ hs =>
      ⟨hs.1, fun elf hs' h => .inr (.inl ((hs.2 elf hs' h).mono (by omega)))⟩
  | some im =>
    refine .of_exists fun T => .of_exists fun P => .of_exists fun C => .of_exists fun elf =>
      .of_exists fun hs => .of_state fun s1 ⟨h1, _, hprog⟩ => ?_
    refine ((stackImage_spec hM hok hnull hprog.segs.space).pre fun _ heq => heq ▸ h1).mono
      (fun r s hr => ?_) fun e _ he => ⟨he.1, he.2.1, exists_long he.2.2⟩
    cases r with
    | none =>
      refine ⟨hr.1, fun elf' hs' h => ?_⟩
      have hwhy := hr.2
      unfold NoRoom at hwhy
      rw [hprog.segs.space.card_userPages, hprog.size_eq h] at hwhy
      exact hwhy
    | some img => exact ⟨im, P, C, elf, hs, hprog, hr⟩

end Xv6.Vm
