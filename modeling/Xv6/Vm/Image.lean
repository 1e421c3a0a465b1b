import Xv6.Lib.Paged
import Xv6.Vm.Exec
import Xv6.Vm.Space

namespace Xv6.Vm

open Lib Function
open List (length_drop length_take take_zero)

section
variable {w : ℕ}

def noUser (w : ℕ) : ℕ := if User w then w - PTE_U else w

theorem noUser_eq (w : ℕ) : noUser w = w - w / 4 % 2 * 4 := by
  by_cases h : User w
  · rw [noUser, if_pos h, show w / 4 % 2 = 1 from h]
  have h0 : w / 4 % 2 = 0 := by
    unfold User at h
    omega
  rw [noUser, if_neg h, h0]
  rfl

theorem present_noUser (h : Present w) : Present (noUser w) := by
  unfold Present at *
  rw [noUser_eq]
  omega

theorem frame_noUser (w : ℕ) : frame (noUser w) = frame w := by
  unfold frame
  rw [noUser_eq]
  simp only [PGSIZE]
  omega

theorem not_user_noUser (w : ℕ) : ¬User (noUser w) := by
  unfold User
  rw [noUser_eq]
  omega

theorem noUser_le (w : ℕ) : noUser w ≤ w := by
  rw [noUser_eq]
  omega

theorem present_of_noUser (h : Present (noUser w)) : Present w := by
  unfold Present at *
  rw [noUser_eq] at h
  omega

theorem entryPage_noUser (w : ℕ) : entryPage (noUser w) = entryPage w := by
  unfold entryPage
  by_cases h : Present w
  · rw [if_pos h, if_pos (present_noUser h), frame_noUser]
  · rw [if_neg h, if_neg (mt present_of_noUser h)]

theorem userPages_noUser (P : ℕ → ℕ) (v : ℕ) :
    userPages (update P v (noUser (P v))) = userPages P := by
  by_cases hv : v < KERNPAGE
  · have h := userPages_update (P := P) hv (noUser (P v))
    rw [entryPage_noUser] at h
    exact add_right_cancel h
  · exact userPages_update_of_le (by omega) _

end

theorem lt_of_next {g x v n : ℕ} (h1 : v + 1 ≤ x) (h2 : x * g < (v + 1) * g + (n - min n g)) :
    x * g < v * g + n := by
  have hsucc : (v + 1) * g = v * g + g := Nat.succ_mul v g
  have hle : (v + 1) * g ≤ x * g := Nat.mul_le_mul_right g h1
  rw [hsucc] at h2 hle
  omega

section
variable {k : Layout} {F : Prop} {M Y : Multiset ℕ} {m0 : Mem} {d v : ℕ} {T : ℕ → Option ℕ}
  {P : ℕ → ℕ} {C : ℕ → Bytes PGSIZE} (hM : M.Nodup) (hok : ∀ f ∈ M, k.Ok f)
include hM hok

theorem Holds.store {off : ℕ} {bs : List UInt8} (hv : v < KERNPAGE) (hp : Present (P v))
    (hoff : off + bs.length ≤ PGSIZE) :
    Triple (Holds F M m0 d T P C Y) (store k (frame (P v)) off bs)
      (fun _ s => ∃ C', flat C' = overlay (flat C) (v * PGSIZE + off) bs ∧
        Holds F M m0 d T P C' Y s) Never := by
  refine .ite (fun _ => .modify fun s hs => ?_) fun hbad => ⟨fun s hs => ?_⟩
  · refine ⟨_, flat_update (by decide) hoff,
      hs.setPage hM _ (.inl (mem_userPages.2 ⟨v, hv, hp, rfl⟩)), fun x hx hpx => ?_⟩
    by_cases hxv : x = v
    · subst hxv
      rw [s.setPage_self, update_self, hs.data x hx hpx]
    · have hne : frame (P x) ≠ frame (P v) := fun h =>
        hxv (user_inj (hs.user_nodup hM) hx hv hpx hp h)
      rw [s.setPage_of_ne _ hne, update_of_ne hxv]
      exact hs.data x hx hpx
  · exact hbad (.inr (hok _ (hs.mem_dir (mem_dirPages_user hv hp))))

omit hok in
theorem clearpteu_holds :
    Triple (Holds F M m0 d T P C Y) (clearpteu k d v)
      (fun _ => Holds F M m0 d T (update P v (noUser (P v))) C Y)
      fun e _ => e = .clearpteu ∧ T (v / 1024) = none := by
  unfold clearpteu
  refine .bind (Holds.look _) fun o => .of_and fun hT => ?_
  cases o with
  | none => exact .panic fun _ _ => ⟨rfl, hT⟩
  | some t =>
    refine .modify fun s hs => ?_
    have htm : tab s.mem d (v / 1024) = some t := by rw [hs.tab, hT]
    have hw : entry (s.mem t) (v % 1024) = P v := by rw [← hs.pte, pte_of_tab htm]
    have hlt : noUser (P v) < 2 ^ 32 := by
      have := entry_lt (s.mem t) (v % 1024)
      have := noUser_le (P v)
      omega
    have hset := hs.setPte hM hT hlt (by rw [userPages_noUser])
    rw [← hw] at hset ⊢
    refine ⟨hset, fun x hx hp => ?_⟩
    have hframe : frame (update P v (noUser (entry (s.mem t) (v % 1024))) x) =
        frame (P x) ∧ Present (P x) := by
      by_cases hxv : x = v
      · subst hxv
        rw [update_self] at hp ⊢
        rw [hw] at hp ⊢
        exact ⟨frame_noUser _, present_of_noUser hp⟩
      · rw [update_of_ne hxv] at hp ⊢
        exact ⟨rfl, hp⟩
    have hne : frame (P x) ≠ t := fun h =>
      hs.tab_not_mem hM hT (h ▸ mem_rest_user hx hframe.2)
    rw [hframe.1, s.setPage_of_ne _ hne]
    exact hs.data x hx hframe.2

omit hok in
theorem clearpteu_entry :
    Triple (Has F M m0 d T P Y) (clearpteu k d v)
      (fun _ => Has F M m0 d T (update P v (noUser (P v))) Y)
      fun e _ => e = .clearpteu ∧ T (v / 1024) = none :=
  Has.lift fun _ => (clearpteu_holds hM).post fun _ _ h => h.toHas

omit hok in
theorem clearpteu_spec (hp : Present (P v)) :
    Triple (Holds F M m0 d T P C Y) (clearpteu k d v)
      (fun _ => Holds F M m0 d T (update P v (noUser (P v))) C Y) Never := by
  refine .of_state fun s hs => ?_
  have hT : T (v / 1024) ≠ none := by
    intro hT
    rw [hs.not_present hT] at hp
    exact absurd hp Nat.zero_ne_one
  refine (clearpteu_holds hM).conseq ?_ (fun _ _ h => h) fun _ _ h => hT h.2
  rintro _ rfl
  exact hs

omit hM hok in
theorem readFile_full {c : List UInt8} {off n : ℕ} (hn : 0 < n)
    (h : (readFile c off n).length = n) :
    readFile c off n = (c.drop off).take n ∧ off + n ≤ c.length ∧ off + n < 2 ^ 32 := by
  unfold readFile at h ⊢
  split at h
  · rw [List.length_nil] at h
    omega
  · rename_i hfit
    rw [if_neg hfit]
    rw [length_take, length_drop] at h
    exact ⟨rfl, by omega, by omega⟩

omit hM hok in
theorem length_readFile {c : List UInt8} {off n : ℕ} (hlen : off + n ≤ c.length)
    (hlt : off + n < 2 ^ 32) : (readFile c off n).length = n := by
  unfold readFile
  rw [if_neg (by omega), length_take, length_drop]
  omega

theorem loadLoop_spec {c : List UInt8} {turns off n : ℕ} (hturns : n ≤ turns)
    (hP : ∀ x, v ≤ x → x * PGSIZE < v * PGSIZE + n → x < KERNPAGE ∧ Present (P x)) :
    Triple (Holds F M m0 d T P C Y) (loadLoop k d c turns v off n)
      (fun r s => ∃ C', Holds F M m0 d T P C' Y s ∧ (r = true →
        (n = 0 ∨ off + n ≤ c.length) ∧
        flat C' = overlay (flat C) (v * PGSIZE) ((c.drop off).take n)) ∧
        (n = 0 ∨ off + n ≤ c.length ∧ off + n < 2 ^ 32 → r = true))
      Never := by
  induction turns generalizing v off n C with
  | zero =>
    obtain rfl : n = 0 := by omega
    exact .pure fun s hs =>
      ⟨C, hs, fun _ => ⟨.inl rfl, by rw [take_zero, overlay_nil]⟩, fun _ => rfl⟩
  | succ turns ih =>
    unfold loadLoop
    refine .ite (fun hn => .pure fun s hs => ⟨C, hs, fun _ => ⟨.inl hn, ?_⟩, fun _ => rfl⟩)
      fun hn => ?_
    · rw [hn, take_zero, overlay_nil]
    obtain ⟨hv, hp⟩ := hP v le_rfl (by omega)
    refine .bind (Holds.look _) fun o => .of_and fun hT => ?_
    cases o with
    | none =>
      refine .panic fun s hs => ?_
      rw [hs.not_present hT] at hp
      exact absurd hp Nat.zero_ne_one
    | some t =>
      refine .bind (Holds.load hT _) fun w => .of_and fun hw => ?_
      subst hw
      have hpos : 0 < min n PGSIZE := by
        simp only [PGSIZE]
        omega
      have hlen : 0 + (readFile c off (min n PGSIZE)).length ≤ PGSIZE := by
        have hle : (readFile c off (min n PGSIZE)).length ≤ min n PGSIZE := by
          unfold readFile
          split
          · exact Nat.zero_le _
          · exact List.length_take_le ..
        omega
      refine .bind (Holds.store hM hok hv hp hlen) fun _ => .of_exists fun C1 =>
        .of_and fun hC1 => ?_
      refine .ite (fun hfull => ?_) fun hfull => .pure fun s hs =>
        ⟨C1, hs, fun h => absurd h (by decide), fun h => ?_⟩
      swap
      · have hread := h.resolve_left hn
        exact absurd (length_readFile (by omega) (by omega)) hfull
      obtain ⟨hbs, hle, hlt⟩ := readFile_full hpos hfull
      refine (ih (by omega) fun x h1 h2 => hP x (by omega) (lt_of_next h1 h2)).post
        fun r s ⟨C', hs, hr, hall⟩ => ⟨C', hs, fun h => ?_, fun h => hall ?_⟩
      swap
      · have hread := h.resolve_left hn
        by_cases hlast : n ≤ PGSIZE
        · exact .inl (by omega)
        · refine .inr ?_
          rw [min_eq_right (by omega)] at hlt ⊢
          rw [Nat.mod_eq_of_lt hlt]
          omega
      obtain ⟨hend, hC'⟩ := hr h
      rw [hbs, Nat.add_zero] at hC1
      rw [hC', hC1]
      by_cases hlast : n ≤ PGSIZE
      · rw [min_eq_left hlast] at hle ⊢
        refine ⟨.inr hle, ?_⟩
        rw [Nat.sub_self, take_zero, overlay_nil]
      have hmin : min n PGSIZE = PGSIZE := min_eq_right (by omega)
      rw [hmin] at hle hlt hend ⊢
      rw [Nat.mod_eq_of_lt hlt] at hend ⊢
      have hpiece : ((c.drop off).take PGSIZE).length = PGSIZE := by
        rw [length_take, length_drop]
        omega
      have hsplit : (c.drop off).take n =
          (c.drop off).take PGSIZE ++ (c.drop (off + PGSIZE)).take (n - PGSIZE) := by
        have hn' : n = PGSIZE + (n - PGSIZE) := by omega
        rw [← List.drop_drop, ← List.take_add, ← hn']
      refine ⟨.inr (by omega), ?_⟩
      have happ := overlay_append (flat C) (v * PGSIZE) ((c.drop off).take PGSIZE)
        ((c.drop (off + PGSIZE)).take (n - PGSIZE))
      rw [hpiece, ← Nat.succ_mul, ← hsplit] at happ
      exact happ

theorem loaduvm_spec {c : List UInt8} {va off n : ℕ} (hva : va % PGSIZE = 0)
    (hP : ∀ x, x * PGSIZE < va + n → x < KERNPAGE ∧ Present (P x)) :
    Triple (Holds F M m0 d T P C Y) (loaduvm k d va c off n)
      (fun r s => ∃ C', Holds F M m0 d T P C' Y s ∧ (r = true →
        (n = 0 ∨ off + n ≤ c.length) ∧ flat C' = overlay (flat C) va ((c.drop off).take n)) ∧
        (n = 0 ∨ off + n ≤ c.length ∧ off + n < 2 ^ 32 → r = true))
      Never := by
  have hdiv : va / PGSIZE * PGSIZE = va := Nat.div_mul_cancel (Nat.dvd_of_mod_eq_zero hva)
  unfold loaduvm
  rw [if_neg (by omega)]
  refine (loadLoop_spec hM hok le_rfl fun x _ hx => hP x ?_).post fun r s hs => ?_
  · rwa [hdiv] at hx
  · rwa [hdiv] at hs

end

theorem next_page (va : ℕ) : (va / PGSIZE + 1) * PGSIZE = va + (PGSIZE - va % PGSIZE) := by
  have hdiv := Nat.div_add_mod' va PGSIZE
  have hmod := Nat.mod_lt va (show 0 < PGSIZE by decide)
  rw [Nat.succ_mul]
  omega

variable {k : Layout} {F : Prop} {M Y : Multiset ℕ} {m0 : Mem} {d v : ℕ} {T : ℕ → Option ℕ}
  {P : ℕ → ℕ} {C : ℕ → Bytes PGSIZE} {null : Op (Option ℕ)}

def NullKnown (null : Op (Option ℕ)) : Prop := null = pure none ∨ null = .panic .null

theorem uva2ka_spec (hnull : NullKnown null) :
    Triple (Holds F M m0 d T P C Y) (uva2ka k null d v)
      (fun r s => r = (if Usable (P v) then some (frame (P v)) else none) ∧
        Holds F M m0 d T P C Y s)
      fun e _ => e = .null ∧ null = .panic .null ∧ T (v / 1024) = none := by
  unfold uva2ka
  refine .bind (Holds.look _) fun o => .of_and fun hT => ?_
  cases o with
  | none =>
    rcases hnull with rfl | rfl
    · refine .pure fun s hs => ⟨?_, hs⟩
      rw [hs.not_present hT, if_neg (by decide)]
    · exact .panic fun _ _ => ⟨rfl, rfl, hT⟩
  | some t =>
    refine .bind (Holds.load hT _) fun w => .of_and fun hw => ?_
    subst hw
    refine .ite (fun hu => .pure fun s hs => ⟨?_, hs⟩) fun hu => .pure fun s hs => ⟨?_, hs⟩
    · rw [if_pos hu]
    · rw [if_neg hu]

variable (hM : M.Nodup) (hok : ∀ f ∈ M, k.Ok f)
include hM hok

theorem copyoutLoop_spec {turns va : ℕ} {bs : List UInt8}
    (hnull : NullKnown null) (hkern : ∀ v, Usable (P v) → v < KERNPAGE) (hva : va < 2 ^ 32)
    (hturns : bs.length ≤ turns) :
    Triple (Holds F M m0 d T P C Y) (copyoutLoop k null d turns va bs)
      (fun r s => ∃ C', Holds F M m0 d T P C' Y s ∧
        if r then (∀ i < bs.length, Usable (P ((va + i) / PGSIZE))) ∧
          flat C' = overlay (flat C) va bs
        else ∃ i < bs.length, ¬Usable (P ((va + i) % 2 ^ 32 / PGSIZE)))
      fun e _ => e = .null ∧ null = .panic .null ∧
        ∃ i < bs.length, T ((va + i) % 2 ^ 32 / PGSIZE / 1024) = none ∧
          (i = 0 ∨ Usable (P (va / PGSIZE))) := by
  induction turns generalizing va bs C with
  | zero =>
    obtain rfl : bs = [] := List.length_eq_zero_iff.1 (by omega)
    exact .pure fun s hs => ⟨C, hs, fun i hi => absurd hi (Nat.not_lt_zero i), overlay_nil.symm⟩
  | succ turns ih =>
    unfold copyoutLoop
    refine .ite (fun hnil => ?_) fun hcons => ?_
    · subst hnil
      exact .pure fun s hs => ⟨C, hs, fun i hi => absurd hi (Nat.not_lt_zero i), overlay_nil.symm⟩
    have hpos : 0 < bs.length := List.length_pos_iff.2 hcons
    have hfirst : (va + 0) % 2 ^ 32 = va := Nat.mod_eq_of_lt hva
    refine .bind ((uva2ka_spec hnull).err fun e _ he => ⟨he.1, he.2.1, 0, hpos,
      by rw [hfirst]; exact he.2.2, .inl rfl⟩) fun r =>
      .of_and fun hr => ?_
    by_cases hu : Usable (P (va / PGSIZE))
    · rw [if_pos hu] at hr
      subst hr
      have hv := hkern _ hu
      have hwrap : (va / PGSIZE + 1) % 2 ^ 20 = va / PGSIZE + 1 := by
        simp only [KERNPAGE, KERNBASE, PGSIZE] at *
        omega
      have hmod := Nat.mod_lt va (show 0 < PGSIZE by decide)
      have hva' : (va / PGSIZE + 1) % 2 ^ 20 * PGSIZE = va + (PGSIZE - va % PGSIZE) := by
        rw [hwrap, next_page]
      have hlt : va + (PGSIZE - va % PGSIZE) < 2 ^ 32 := by
        rw [← next_page]
        simp only [KERNPAGE, KERNBASE, PGSIZE] at *
        omega
      have hlen : va % PGSIZE + (bs.take (min (PGSIZE - va % PGSIZE) bs.length)).length ≤
          PGSIZE := by
        rw [length_take]
        omega
      dsimp only
      rw [hva']
      refine .bind ((Holds.store hM hok hv hu.1 hlen).panics _) fun _ =>
        .of_exists fun C1 => .of_and fun hC1 => (ih hlt ?_).mono (fun r s ⟨C', hs, hr⟩ => ⟨C', hs,
          ?_⟩) fun e _ ⟨he, hp, i, hi, hT, _⟩ =>
          ⟨he, hp, PGSIZE - va % PGSIZE + i, ?_, ?_, .inr hu⟩
      · rw [length_drop]
        omega
      · rw [Nat.div_add_mod'] at hC1
        rw [length_drop] at hr
        cases r with
        | true =>
          obtain ⟨hall, hC'⟩ := hr
          refine ⟨fun i hi => ?_, ?_⟩
          · by_cases hin : i < PGSIZE - va % PGSIZE
            · rw [show (va + i) / PGSIZE = va / PGSIZE by simp only [PGSIZE] at *; omega]
              exact hu
            · have h := hall (i - (PGSIZE - va % PGSIZE)) (by omega)
              rwa [show va + (PGSIZE - va % PGSIZE) + (i - (PGSIZE - va % PGSIZE)) = va + i by
                omega] at h
          · rw [hC', hC1]
            by_cases hle : bs.length ≤ PGSIZE - va % PGSIZE
            · rw [min_eq_right hle, List.take_length, List.drop_length, overlay_nil]
            have hmin : min (PGSIZE - va % PGSIZE) bs.length = PGSIZE - va % PGSIZE :=
              min_eq_left (by omega)
            have happ := overlay_append (flat C) va (bs.take (PGSIZE - va % PGSIZE))
              (bs.drop (PGSIZE - va % PGSIZE))
            rw [length_take, hmin, List.take_append_drop] at happ
            rw [hmin]
            exact happ
        | false =>
          obtain ⟨i, hi, hnot⟩ := hr
          refine ⟨PGSIZE - va % PGSIZE + i, by omega, ?_⟩
          rwa [← Nat.add_assoc]
      · rw [length_drop] at hi
        omega
      · rwa [← Nat.add_assoc]
    · rw [if_neg hu] at hr
      subst hr
      refine .pure fun s hs => ⟨C, hs, ?_⟩
      rw [if_neg (by decide)]
      exact ⟨0, hpos, by rwa [hfirst]⟩

end Xv6.Vm
