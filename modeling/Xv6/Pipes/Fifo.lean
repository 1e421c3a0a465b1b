import Mathlib.Tactic.NormNum
import Xv6.Pipes.Machine

namespace Xv6.Pipes

open Lib Function

variable {P : Type} {s s' : Sys P} {p : P}

structure Fifo (s : Sys P) : Prop where
  used : s.pipe.used ≤ PIPESIZE
  stored : s.stored = s.delivered ++ s.pipe.contents

namespace Fifo

theorem same (h : Fifo s) (hring : s'.pipe.toRing = s.pipe.toRing) (hs : s'.stored = s.stored)
    (hd : s'.delivered = s.delivered) : Fifo s' := by
  refine ⟨?_, ?_⟩
  · rw [hring]
    exact h.used
  · rw [hs, hd, hring]
    exact h.stored

theorem store (h : Fifo s) (hfull : ¬ s.pipe.full) (b : UInt8) : Fifo (s.store b) := by
  have hlt : s.pipe.used < PIPESIZE :=
    lt_of_le_of_ne h.used fun he => hfull ((Ring.full_iff (by decide)).2 he)
  refine ⟨?_, ?_⟩
  · show (s.pipe.put b).used ≤ PIPESIZE
    rw [Ring.used_put (lt_of_le_of_lt hlt (by norm_num [PIPESIZE]))]
    exact hlt
  · show s.stored ++ [b] = s.delivered ++ (s.pipe.put b).contents
    rw [Ring.contents_put (by decide) (by decide) hlt, h.stored, List.append_assoc]

theorem deliver (h : Fifo s) (hempty : ¬ s.pipe.empty) : Fifo s.deliver := by
  have hpos : 0 < s.pipe.used :=
    Nat.pos_of_ne_zero fun he => hempty (Ring.empty_iff.2 he)
  refine ⟨?_, ?_⟩
  · show s.pipe.pop.used ≤ PIPESIZE
    rw [Ring.used_pop hpos]
    exact (Nat.sub_le _ _).trans h.used
  · show s.stored = s.delivered ++ [s.pipe.front] ++ s.pipe.pop.contents
    rw [h.stored, Ring.contents_pop hpos, List.append_assoc]
    rfl

variable [DecidableEq P]

theorem acquire {pc : Pc} (h : Fifo s) (hs : s.acquire p pc = some s') : Fifo s' := by
  unfold Sys.acquire at hs
  split at hs
  · cases hs
    exact h.same rfl rfl rfl
  · cases hs

theorem go (h : Fifo s) (hs : s.go p = some s') : Fifo s' := by
  cases hpc : (s.proc p).pc with
  | writeLock n bs =>
    simp only [Sys.go, hpc] at hs
    exact h.acquire hs
  | readLock n =>
    simp only [Sys.go, hpc] at hs
    exact h.acquire hs
  | closeLock w =>
    simp only [Sys.go, hpc] at hs
    exact h.acquire hs
  | writeLoop n bs =>
    cases bs with
    | nil =>
      simp only [Sys.go, hpc, Option.some.injEq] at hs
      subst hs
      exact h.same rfl rfl rfl
    | cons b bs =>
      simp only [Sys.go, hpc] at hs
      split at hs
      · cases hs
        exact h.same rfl rfl rfl
      · rename_i hfull
        cases hs
        exact (h.store hfull b).same rfl rfl rfl
  | readLoop n got =>
    simp only [Sys.go, hpc] at hs
    split at hs
    · rename_i hmore
      cases hs
      exact (h.deliver hmore.2).same rfl rfl rfl
    · cases hs
      exact h.same rfl rfl rfl
  | closeStore w =>
    simp only [Sys.go, hpc, Option.some.injEq] at hs
    subst hs
    cases w <;> exact h.same rfl rfl rfl
  | writeFull n bs =>
    simp only [Sys.go, hpc] at hs
    split at hs <;> cases hs <;> exact h.same rfl rfl rfl
  | readWait n =>
    simp only [Sys.go, hpc] at hs
    split at hs <;> cases hs <;> exact h.same rfl rfl rfl
  | readEmpty n =>
    simp only [Sys.go, hpc] at hs
    split at hs <;> cases hs <;> exact h.same rfl rfl rfl
  | idle | writeAsleep | readAsleep => simp [Sys.go, hpc] at hs
  | _ =>
    simp only [Sys.go, hpc, Option.some.injEq] at hs
    subst hs
    exact h.same rfl rfl rfl

theorem call {pc : Pc} (h : Fifo s) (hs : s.call p pc = some s') : Fifo s' := by
  unfold Sys.call at hs
  split at hs
  · cases hs
    exact h.same rfl rfl rfl
  · cases hs

theorem step {l : P × Act} (h : Fifo s) (hs : s.step l = some s') : Fifo s' := by
  obtain ⟨p, a⟩ := l
  simp only [Sys.step] at hs
  split at hs
  · cases hs
  cases a with
  | write bs => exact h.call hs
  | read n => exact h.call hs
  | close w => exact h.call hs
  | go => exact h.go hs
  | kill =>
    cases hs
    exact h.same rfl rfl rfl

end Fifo

def Pc.left : Pc → Option (List UInt8)
  | .writeLock _ bs | .writeLoop _ bs | .writeFull _ bs | .writeWake _ bs | .writeSleep _ bs
  | .writeAsleep _ bs => some bs
  | _ => none

def Pc.got : Pc → Option (List UInt8)
  | .readLoop _ got => some got
  | _ => none

def Pc.given (pc pc' : Pc) : List UInt8 :=
  match pc.left, pc'.left with
  | some bs, some bs' => bs.take (bs.length - bs'.length)
  | _, _ => []

def Pc.gained (pc pc' : Pc) : List UInt8 :=
  match pc.got, pc'.got with
  | some got, some got' => got'.drop got.length
  | _, _ => []

def bytesOf [DecidableEq P] (p : P) (h : List (P × UInt8)) : List UInt8 :=
  (h.filter fun x => decide (x.1 = p)).map Prod.snd

def written [DecidableEq P] : Sys P → List (P × Act) → List (P × UInt8) :=
  outputs Sys.step fun s l s' =>
    ((s.proc l.1).pc.given (s'.proc l.1).pc).map fun b => (l.1, b)

def taken [DecidableEq P] : Sys P → List (P × Act) → List (P × UInt8) :=
  outputs Sys.step fun s l s' =>
    ((s.proc l.1).pc.gained (s'.proc l.1).pc).map fun b => (l.1, b)

theorem Pc.left_wake (pc : Pc) (chan : Chan) : (pc.wake chan).left = pc.left := by
  cases pc with
  | writeAsleep n bs => cases chan <;> rfl
  | readAsleep n => cases chan <;> rfl
  | _ => rfl

theorem Pc.got_wake (pc : Pc) (chan : Chan) : (pc.wake chan).got = pc.got := by
  cases pc with
  | writeAsleep n bs => cases chan <;> rfl
  | readAsleep n => cases chan <;> rfl
  | _ => rfl

theorem Pc.given_of_left {pc pc' : Pc} (h : pc'.left = pc.left) : pc.given pc' = [] := by
  unfold Pc.given
  rw [h]
  cases pc.left <;> simp

theorem Pc.gained_of_got {pc pc' : Pc} (h : pc'.got = pc.got) : pc.gained pc' = [] := by
  unfold Pc.gained
  rw [h]
  cases pc.got <;> simp

structure Records (s : Sys P) (p : P) (s' : Sys P) : Prop where
  stored : s'.stored = s.stored ++ (s.proc p).pc.given (s'.proc p).pc
  delivered : s'.delivered = s.delivered ++ (s.proc p).pc.gained (s'.proc p).pc

theorem Records.quiet (hs : s'.stored = s.stored) (hd : s'.delivered = s.delivered)
    (hl : (s.proc p).pc.given (s'.proc p).pc = [])
    (hg : (s.proc p).pc.gained (s'.proc p).pc = []) : Records s p s' := by
  constructor
  · rw [hs, hl, List.append_nil]
  · rw [hd, hg, List.append_nil]

def GoesOn (p : P) (tr : List (P × Act)) : Prop := ∀ l ∈ tr, l.1 = p → l.2 = .go ∨ l.2 = .kill

theorem GoesOn.of_append {tr tr' : List (P × Act)} (h : GoesOn p (tr ++ tr')) : GoesOn p tr :=
  fun l hl => h l (List.mem_append_left _ hl)

theorem GoesOn.last {tr : List (P × Act)} {l : P × Act} (h : GoesOn p (tr ++ [l])) :
    l.1 = p → l.2 = .go ∨ l.2 = .kill := h l (by simp)

section
variable [DecidableEq P]

@[simp] theorem goto_pc (s : Sys P) (p : P) (pc : Pc) : ((s.goto p pc).proc p).pc = pc := by
  simp [Sys.goto]

theorem Records.acquire {pc : Pc} (hs : s.acquire p pc = some s')
    (hl : pc.left = (s.proc p).pc.left) (hg : pc.got = none) (hg' : (s.proc p).pc.got = none) :
    Records s p s' := by
  unfold Sys.acquire at hs
  split at hs
  · cases hs
    refine .quiet rfl rfl (Pc.given_of_left ?_) (Pc.gained_of_got ?_)
    · simpa [Sys.goto] using hl
    · simpa [Sys.goto, hg'] using hg
  · cases hs

theorem Records.go (hs : s.go p = some s') : Records s p s' := by
  cases hpc : (s.proc p).pc with
  | idle | writeAsleep | readAsleep => simp [Sys.go, hpc] at hs
  | writeLock n bs | readLock n | closeLock w =>
    simp only [Sys.go, hpc] at hs
    exact .acquire hs (by rw [hpc]; rfl) rfl (by rw [hpc]; rfl)
  | writeLoop n bs =>
    cases bs with
    | nil =>
      simp only [Sys.go, hpc, Option.some.injEq] at hs
      subst hs
      refine .quiet rfl rfl ?_ ?_ <;> rw [goto_pc, hpc] <;> rfl
    | cons b bs =>
      simp only [Sys.go, hpc] at hs
      split at hs
      · cases hs
        refine .quiet rfl rfl ?_ ?_ <;> rw [goto_pc, hpc]
        · exact Pc.given_of_left rfl
        · exact Pc.gained_of_got rfl
      · cases hs
        constructor
        · rw [goto_pc, hpc]
          simp [Pc.given, Pc.left, Sys.goto, Sys.store]
        · rw [goto_pc, hpc]
          exact (List.append_nil _).symm
  | readLoop n got =>
    simp only [Sys.go, hpc] at hs
    split at hs
    · cases hs
      constructor
      · rw [goto_pc, hpc]
        exact (List.append_nil _).symm
      · rw [goto_pc, hpc]
        simp [Pc.gained, Pc.got, Sys.goto, Sys.deliver]
    · cases hs
      refine .quiet rfl rfl ?_ ?_ <;> rw [goto_pc, hpc] <;> rfl
  | writeFull n bs =>
    simp only [Sys.go, hpc] at hs
    split at hs <;> cases hs <;> refine .quiet rfl rfl ?_ ?_ <;> rw [goto_pc, hpc]
    · rfl
    · rfl
    · exact Pc.given_of_left rfl
    · exact Pc.gained_of_got rfl
  | readWait n | readEmpty n =>
    simp only [Sys.go, hpc] at hs
    split at hs <;> cases hs <;> refine .quiet rfl rfl ?_ ?_ <;> rw [goto_pc, hpc] <;> rfl
  | writeWake n bs =>
    simp only [Sys.go, hpc, Option.some.injEq] at hs
    subst hs
    refine .quiet rfl rfl ?_ ?_ <;> rw [goto_pc, hpc]
    · exact Pc.given_of_left rfl
    · exact Pc.gained_of_got rfl
  | writeSleep n bs =>
    simp only [Sys.go, hpc, Option.some.injEq] at hs
    subst hs
    refine .quiet rfl rfl (Pc.given_of_left ?_) (Pc.gained_of_got ?_) <;>
      simp [Sys.sleep, Sys.goto, hpc, Pc.left, Pc.got]
  | _ =>
    simp only [Sys.go, hpc, Option.some.injEq] at hs
    subst hs
    refine .quiet rfl rfl ?_ ?_ <;>
      simp [hpc, Pc.given, Pc.gained, Pc.left, Pc.got]

theorem Records.call {pc : Pc} (hs : s.call p pc = some s') : Records s p s' := by
  unfold Sys.call at hs
  split at hs
  · rename_i hidle
    cases hs
    refine .quiet rfl rfl ?_ ?_ <;> rw [hidle] <;> rfl
  · cases hs

theorem Records.step {l : P × Act} (hs : s.step l = some s') : Records s l.1 s' := by
  obtain ⟨p, a⟩ := l
  simp only [Sys.step] at hs
  split at hs
  · cases hs
  cases a with
  | write bs => exact .call hs
  | read n => exact .call hs
  | close w => exact .call hs
  | go => exact .go hs
  | kill =>
    cases hs
    refine .quiet rfl rfl (Pc.given_of_left ?_) (Pc.gained_of_got ?_)
    · simp [Sys.kill, Pc.left_wake]
    · simp [Sys.kill, Pc.got_wake]

theorem records_run {s₀ : Sys P} {tr : List (P × Act)} (hrun : exec Sys.step s₀ tr = some s) :
    s.stored = s₀.stored ++ (written s₀ tr).map Prod.snd ∧
      s.delivered = s₀.delivered ++ (taken s₀ tr).map Prod.snd := by
  refine exec_history (fun tr s => s.stored = s₀.stored ++ (written s₀ tr).map Prod.snd ∧
    s.delivered = s₀.delivered ++ (taken s₀ tr).map Prod.snd) ?_ ?_ hrun
  · exact ⟨(List.append_nil _).symm, (List.append_nil _).symm⟩
  intro tr t l u ht ih hl
  have h := Records.step hl
  constructor
  · rw [h.stored, ih.1, written, outputs_concat _ ht hl]
    simp [Function.comp_def]
  · rw [h.delivered, ih.2, taken, outputs_concat _ ht hl]
    simp [Function.comp_def]

def Wrote (bs sent : List UInt8) (r : Int) : Prop :=
  r = bs.length ∧ sent = bs ∨ r = -1 ∧ sent <+: bs

def HasRead (n : ℕ) (got : List UInt8) (r : Int) : Prop :=
  r = got.length ∧ got.length ≤ n ∨ r = -1 ∧ got = []

def Proc.Writing (bs sent : List UInt8) (x : Proc) : Prop :=
  match x.pc with
  | .writeLock n rest | .writeLoop n rest | .writeFull n rest | .writeWake n rest
  | .writeSleep n rest | .writeAsleep n rest => n = bs.length ∧ sent ++ rest = bs
  | .ret r => Wrote bs sent r
  | .idle => Wrote bs sent x.result
  | _ => False

def Proc.Reading (n : ℕ) (got : List UInt8) (x : Proc) : Prop :=
  match x.pc with
  | .readLock m | .readWait m | .readEmpty m | .readSleep m | .readAsleep m => m = n ∧ got = []
  | .readLoop m buf => m = n ∧ buf = got ∧ got.length ≤ n
  | .ret r => HasRead n got r
  | .idle => HasRead n got x.result
  | _ => False

def Beside (p : P) (s s' : Sys P) : Prop :=
  (s'.proc p).result = (s.proc p).result ∧
    ((s'.proc p).pc = (s.proc p).pc ∨ ∃ chan, (s'.proc p).pc = (s.proc p).pc.wake chan)

theorem beside_goto {q : P} {t : Sys P} {pc : Pc} (hp : p ≠ q) (ht : t.proc = s.proc) :
    Beside p s (t.goto q pc) := by
  simp [Beside, Sys.goto, hp, ht]

theorem beside_wakeup {q : P} {chan : Chan} {pc : Pc} (hp : p ≠ q) :
    Beside p s ((s.wakeup chan).goto q pc) := by
  simp only [Beside, Sys.goto, Sys.wakeup, update_of_ne hp]
  exact ⟨trivial, .inr ⟨chan, rfl⟩⟩

theorem beside_acquire {q : P} {pc : Pc} (hp : p ≠ q) (hs : s.acquire q pc = some s') :
    Beside p s s' := by
  unfold Sys.acquire at hs
  split at hs
  · cases hs
    exact beside_goto (s := s) hp rfl
  · cases hs

theorem beside_go {q : P} (hp : p ≠ q) (hs : s.go q = some s') : Beside p s s' := by
  cases hpc : (s.proc q).pc with
  | idle | writeAsleep | readAsleep => simp [Sys.go, hpc] at hs
  | writeLock n bs | readLock n | closeLock w =>
    simp only [Sys.go, hpc] at hs
    exact beside_acquire hp hs
  | writeLoop n bs =>
    cases bs with
    | nil =>
      simp only [Sys.go, hpc, Option.some.injEq] at hs
      subst hs
      exact beside_wakeup hp
    | cons b bs =>
      simp only [Sys.go, hpc] at hs
      split at hs <;> cases hs <;> exact beside_goto hp rfl
  | readLoop n got =>
    simp only [Sys.go, hpc] at hs
    split at hs <;> cases hs
    · exact beside_goto hp rfl
    · exact beside_wakeup hp
  | writeFull n bs | readWait n | readEmpty n =>
    simp only [Sys.go, hpc] at hs
    split at hs <;> cases hs <;> exact beside_goto hp rfl
  | writeWake n bs | closeWake w =>
    simp only [Sys.go, hpc, Option.some.injEq] at hs
    subst hs
    exact beside_wakeup hp
  | writeSleep n bs | readSleep n =>
    simp only [Sys.go, hpc, Option.some.injEq] at hs
    subst hs
    simp [Beside, Sys.sleep, Sys.goto, hp]
  | closeStore w =>
    simp only [Sys.go, hpc, Option.some.injEq] at hs
    subst hs
    exact beside_goto hp rfl
  | closeEnd | ret r =>
    simp only [Sys.go, hpc, Option.some.injEq] at hs
    subst hs
    simp [Beside, Sys.release, hp]

theorem beside_step {l : P × Act} (hp : p ≠ l.1) (hs : s.step l = some s') : Beside p s s' := by
  obtain ⟨q, a⟩ := l
  simp only [Sys.step] at hs
  split at hs
  · cases hs
  have hcall : ∀ {pc : Pc}, s.call q pc = some s' → Beside p s s' := by
    intro pc hc
    unfold Sys.call at hc
    split at hc <;> cases hc
    exact beside_goto hp rfl
  cases a with
  | write bs => exact hcall hs
  | read n => exact hcall hs
  | close w => exact hcall hs
  | go => exact beside_go hp hs
  | kill =>
    cases hs
    simp [Beside, Sys.kill, show p ≠ q from hp]

theorem Proc.Writing.wake {bs sent : List UInt8} {x x' : Proc} {c : Chan}
    (h : x.Writing bs sent) (hr : x'.result = x.result) (hpc : x'.pc = x.pc.wake c) :
    x'.Writing bs sent := by
  unfold Proc.Writing at h ⊢
  rw [hpc, hr]
  cases hx : x.pc <;> rw [hx] at h <;> first | exact h | (cases c <;> exact h)

theorem Proc.Reading.wake {n : ℕ} {got : List UInt8} {x x' : Proc} {c : Chan}
    (h : x.Reading n got) (hr : x'.result = x.result) (hpc : x'.pc = x.pc.wake c) :
    x'.Reading n got := by
  unfold Proc.Reading at h ⊢
  rw [hpc, hr]
  cases hx : x.pc <;> rw [hx] at h <;> first | exact h | (cases c <;> exact h)

theorem Proc.Writing.go {bs sent : List UInt8} (h : (s.proc p).Writing bs sent)
    (hs : s.go p = some s') :
    (s'.proc p).Writing bs (sent ++ (s.proc p).pc.given (s'.proc p).pc) := by
  unfold Proc.Writing at h
  cases hpc : (s.proc p).pc with
  | writeLock n rest =>
    rw [hpc] at h
    simp only [Sys.go, hpc, Sys.acquire] at hs
    split at hs <;> cases hs
    simpa [Proc.Writing, Sys.goto, Pc.given, Pc.left] using h
  | writeLoop n rest =>
    rw [hpc] at h
    cases rest with
    | nil =>
      simp only [Sys.go, hpc, Option.some.injEq] at hs
      subst hs
      obtain ⟨rfl, hsent⟩ := h
      rw [List.append_nil] at hsent
      simp [Proc.Writing, Wrote, Pc.given, Pc.left, Sys.goto, hsent]
    | cons b rest =>
      simp only [Sys.go, hpc] at hs
      split at hs <;> cases hs <;> simpa [Proc.Writing, Sys.goto, Pc.given, Pc.left] using h
  | writeFull n rest =>
    rw [hpc] at h
    simp only [Sys.go, hpc] at hs
    split at hs <;> cases hs
    · have hpre : sent <+: bs := ⟨rest, h.2⟩
      simp [Proc.Writing, Wrote, Sys.goto, Pc.given, Pc.left, hpre]
    · simpa [Proc.Writing, Sys.goto, Pc.given, Pc.left] using h
  | writeWake n rest | writeSleep n rest =>
    rw [hpc] at h
    simp only [Sys.go, hpc, Option.some.injEq] at hs
    subst hs
    simpa [Proc.Writing, Sys.goto, Sys.sleep, Pc.given, Pc.left] using h
  | ret r =>
    rw [hpc] at h
    simp only [Sys.go, hpc, Option.some.injEq] at hs
    subst hs
    simpa [Proc.Writing, Sys.release, Pc.given, Pc.left] using h
  | writeAsleep n rest | idle => simp [Sys.go, hpc] at hs
  | _ =>
    rw [hpc] at h
    exact absurd h id

theorem Proc.Reading.go {n : ℕ} {got : List UInt8} (h : (s.proc p).Reading n got)
    (hs : s.go p = some s') :
    (s'.proc p).Reading n (got ++ (s.proc p).pc.gained (s'.proc p).pc) := by
  unfold Proc.Reading at h
  cases hpc : (s.proc p).pc with
  | readLock m =>
    rw [hpc] at h
    simp only [Sys.go, hpc, Sys.acquire] at hs
    split at hs <;> cases hs
    simpa [Proc.Reading, Sys.goto, Pc.gained, Pc.got] using h
  | readWait m =>
    rw [hpc] at h
    obtain ⟨rfl, rfl⟩ := h
    simp only [Sys.go, hpc] at hs
    split at hs <;> cases hs <;> simp [Proc.Reading, Sys.goto, Pc.gained, Pc.got]
  | readEmpty m =>
    rw [hpc] at h
    obtain ⟨rfl, rfl⟩ := h
    simp only [Sys.go, hpc] at hs
    split at hs <;> cases hs <;> simp [Proc.Reading, HasRead, Sys.goto, Pc.gained, Pc.got]
  | readSleep m =>
    rw [hpc] at h
    simp only [Sys.go, hpc, Option.some.injEq] at hs
    subst hs
    simpa [Proc.Reading, Sys.goto, Sys.sleep, Pc.gained, Pc.got] using h
  | readLoop m buf =>
    rw [hpc] at h
    obtain ⟨rfl, rfl, hle⟩ := h
    simp only [Sys.go, hpc] at hs
    split at hs
    · rename_i hmore
      cases hs
      simpa [Proc.Reading, Sys.goto, Pc.gained, Pc.got] using Nat.succ_le_of_lt hmore.1
    · cases hs
      simpa [Proc.Reading, HasRead, Sys.goto, Pc.gained, Pc.got] using hle
  | ret r =>
    rw [hpc] at h
    simp only [Sys.go, hpc, Option.some.injEq] at hs
    subst hs
    simpa [Proc.Reading, Sys.release, Pc.gained, Pc.got] using h
  | readAsleep m | idle => simp [Sys.go, hpc] at hs
  | _ =>
    rw [hpc] at h
    exact absurd h id

theorem bytesOf_append (p : P) (h h' : List (P × UInt8)) :
    bytesOf p (h ++ h') = bytesOf p h ++ bytesOf p h' := by
  simp [bytesOf]

theorem bytesOf_map_self (p : P) (bs : List UInt8) :
    bytesOf p (bs.map fun b => (p, b)) = bs := by
  simp [bytesOf, List.filter_map, comp_def]

theorem bytesOf_map_of_ne {q : P} (h : p ≠ q) (bs : List UInt8) :
    bytesOf p (bs.map fun b => (q, b)) = [] := by
  simp [bytesOf, List.filter_map, comp_def, h.symm]

section
variable {l : P × Act} (hs : s.step l = some s') (hl : l.1 = p → l.2 = .go ∨ l.2 = .kill)
include hs hl

theorem Proc.Writing.step {bs sent : List UInt8} (h : (s.proc p).Writing bs sent) :
    (s'.proc p).Writing bs (sent ++
      bytesOf p (((s.proc l.1).pc.given (s'.proc l.1).pc).map fun b => (l.1, b))) := by
  obtain ⟨q, a⟩ := l
  by_cases hq : q = p
  · subst hq
    rw [bytesOf_map_self]
    simp only [Sys.step] at hs
    split at hs
    · cases hs
    rcases hl rfl with rfl | rfl
    · exact h.go hs
    · cases hs
      rw [Pc.given_of_left (by simp [Sys.kill, Pc.left_wake]), List.append_nil]
      refine Proc.Writing.wake (x := ⟨true, (s.proc q).pc.wake .nread, (s.proc q).result⟩)
        (c := .nwrite) (h.wake rfl rfl) ?_ ?_ <;> simp [Sys.kill]
  · rw [bytesOf_map_of_ne (Ne.symm hq), List.append_nil]
    obtain ⟨hr, hpc | ⟨chan, hpc⟩⟩ := beside_step (Ne.symm hq) hs
    · unfold Proc.Writing at h ⊢
      rwa [hpc, hr]
    · exact h.wake hr hpc

theorem Proc.Reading.step {n : ℕ} {got : List UInt8} (h : (s.proc p).Reading n got) :
    (s'.proc p).Reading n (got ++
      bytesOf p (((s.proc l.1).pc.gained (s'.proc l.1).pc).map fun b => (l.1, b))) := by
  obtain ⟨q, a⟩ := l
  by_cases hq : q = p
  · subst hq
    rw [bytesOf_map_self]
    simp only [Sys.step] at hs
    split at hs
    · cases hs
    rcases hl rfl with rfl | rfl
    · exact h.go hs
    · cases hs
      rw [Pc.gained_of_got (by simp [Sys.kill, Pc.got_wake]), List.append_nil]
      refine Proc.Reading.wake (x := ⟨true, (s.proc q).pc.wake .nread, (s.proc q).result⟩)
        (c := .nwrite) (h.wake rfl rfl) ?_ ?_ <;> simp [Sys.kill]
  · rw [bytesOf_map_of_ne (Ne.symm hq), List.append_nil]
    obtain ⟨hr, hpc | ⟨chan, hpc⟩⟩ := beside_step (Ne.symm hq) hs
    · unfold Proc.Reading at h ⊢
      rwa [hpc, hr]
    · exact h.wake hr hpc

end

variable {t : Sys P} {tr : List (P × Act)}

theorem Proc.Writing.run {bs : List UInt8} (h : (t.proc p).Writing bs [])
    (hrun : exec Sys.step t tr = some s) (hp : GoesOn p tr) :
    (s.proc p).Writing bs (bytesOf p (written t tr)) := by
  refine exec_history (fun tr s => GoesOn p tr → (s.proc p).Writing bs (bytesOf p (written t tr)))
    (fun _ => h) ?_ hrun hp
  intro tr s l s' hs ih hl hp
  rw [written, outputs_concat _ hs hl, bytesOf_append]
  exact (ih hp.of_append).step hl hp.last

theorem Proc.Reading.run {n : ℕ} (h : (t.proc p).Reading n [])
    (hrun : exec Sys.step t tr = some s) (hp : GoesOn p tr) :
    (s.proc p).Reading n (bytesOf p (taken t tr)) := by
  refine exec_history (fun tr s => GoesOn p tr → (s.proc p).Reading n (bytesOf p (taken t tr)))
    (fun _ => h) ?_ hrun hp
  intro tr s l s' hs ih hl hp
  rw [taken, outputs_concat _ hs hl, bytesOf_append]
  exact (ih hp.of_append).step hl hp.last

theorem call_proc {pc : Pc} (hs : s.call p pc = some s') : (s'.proc p).pc = pc := by
  unfold Sys.call at hs
  split at hs <;> cases hs
  simp

theorem step_write {bs : List UInt8} (hs : s.step (p, .write bs) = some s') :
    (s'.proc p).Writing bs [] := by
  simp only [Sys.step] at hs
  split at hs
  · cases hs
  simp [Proc.Writing, call_proc hs]

theorem step_read {n : ℕ} (hs : s.step (p, .read n) = some s') : (s'.proc p).Reading n [] := by
  simp only [Sys.step] at hs
  split at hs
  · cases hs
  simp [Proc.Reading, call_proc hs]

end

variable [DecidableEq P] {tr : List (P × Act)}

theorem Fifo.run {data : Fin PIPESIZE → UInt8} {killed : P → Bool}
    (hrun : exec Sys.step (start data killed) tr = some s) : Fifo s := by
  have hempty : (start data killed).pipe.used = 0 := Ring.empty_iff.1 rfl
  refine exec_invariant Fifo ⟨?_, ?_⟩ (fun _ _ _ h hs => h.step hs) hrun
  · rw [hempty]
    exact Nat.zero_le _
  · show [] = (start data killed).pipe.contents
    exact (List.eq_nil_of_length_eq_zero (by rw [Ring.length_contents, hempty])).symm

theorem pipe_lossless (data : Fin PIPESIZE → UInt8) (killed : P → Bool)
    (hrun : exec Sys.step (start data killed) tr = some s) :
    (s.pipe.nwrite - s.pipe.nread).toNat ≤ PIPESIZE ∧
    s.stored = (written (start data killed) tr).map Prod.snd ∧
    s.delivered = (taken (start data killed) tr).map Prod.snd ∧
    s.stored = s.delivered ++
      ((List.range (s.pipe.nwrite - s.pipe.nread).toNat).map fun i =>
        s.pipe.data (Fin.ofNat PIPESIZE (s.pipe.nread + UInt32.ofNat i).toNat)) ∧
    ∀ tr₁ p a tr₂, tr = tr₁ ++ (p, a) :: tr₂ → GoesOn p tr₂ →
      ∃ t, exec Sys.step (start data killed) (tr₁ ++ [(p, a)]) = some t ∧
        (∀ bs, a = .write bs → (s.proc p).Writing bs (bytesOf p (written t tr₂))) ∧
        ∀ n, a = .read n → (s.proc p).Reading n (bytesOf p (taken t tr₂)) := by
  have h := Fifo.run hrun
  obtain ⟨hst, hde⟩ := records_run hrun
  refine ⟨h.used, hst, hde, h.stored, fun tr₁ p a tr₂ htr hp => ?_⟩
  rw [htr, List.append_cons, exec_append, Option.bind_eq_some_iff] at hrun
  obtain ⟨t, ht, hrest⟩ := hrun
  obtain ⟨u, -, hcall⟩ := exec_concat_inv ht
  refine ⟨t, ht, ?_, ?_⟩
  · rintro bs rfl
    exact (step_write hcall).run hrest hp
  · rintro n rfl
    exact (step_read hcall).run hrest hp

def twoOfThree : List (Bool × Act) :=
  (false, .write [1, 2, 3]) :: List.replicate 6 (false, .go) ++
    (true, .read 2) :: List.replicate 6 (true, .go)

theorem pipe_lossless_twoOfThree :
    ∃ s, exec Sys.step (start (fun _ => 0) fun _ => false) twoOfThree = some s ∧
      (s.proc true).result = 2 ∧ s.delivered = [1, 2] ∧ s.stored = [1, 2, 3] ∧
      s.stored = s.delivered ++
        ((List.range (s.pipe.nwrite - s.pipe.nread).toNat).map fun i =>
          s.pipe.data (Fin.ofNat PIPESIZE (s.pipe.nread + UInt32.ofNat i).toNat)) := by
  obtain ⟨s, hs, hr⟩ := exec_exists Sys.step (start (fun _ => 0) fun _ => false) twoOfThree
    (fun s => (s.proc true).result = 2) (by decide +kernel)
  obtain ⟨-, hst, hde, hfifo, -⟩ := pipe_lossless _ _ hs
  refine ⟨s, hs, hr, ?_, ?_, hfifo⟩
  · rw [hde]
    decide +kernel
  · rw [hst]
    decide +kernel

end Xv6.Pipes
