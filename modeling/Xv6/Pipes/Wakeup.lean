import Xv6.Pipes.Machine

namespace Xv6.Pipes

open Lib

def Pc.Holds : Pc → Prop
  | .writeLoop _ _ | .writeFull _ _ | .writeWake _ _ | .writeSleep _ _ | .readWait _
  | .readEmpty _ | .readSleep _ | .readLoop _ _ | .closeStore _ | .closeWake _ | .closeEnd
  | .ret _ => True
  | _ => False

def Pc.Owes : Chan → Pc → Prop
  | .nread, .writeLoop _ _ | .nread, .writeFull _ _ | .nread, .writeWake _ _
  | .nread, .closeWake true | .nwrite, .readLoop _ _ | .nwrite, .closeWake false => True
  | _, _ => False

def Pc.SleepsOn : Chan → Pc → Prop
  | .nread, .readAsleep _ | .nwrite, .writeAsleep _ _ => True
  | _, _ => False

def Pipe.Stuck (p : Pipe) : Chan → Prop
  | .nread => p.nread = p.nwrite ∧ p.writeopen = true
  | .nwrite => p.nwrite = p.nread + UInt32.ofNat PIPESIZE ∧ p.readopen = true

def Pc.Knows (p : Pipe) : Pc → Prop
  | .writeWake _ _ | .writeSleep _ _ => p.Stuck .nwrite
  | .writeFull _ _ => p.full
  | .readEmpty _ | .readSleep _ => p.Stuck .nread
  | _ => True

variable {P : Type} {s s' : Sys P} {p q : P}

def LeavesNoReader (s : Sys P) (l : P × Act) : Prop :=
  l.2 = .go → ∀ n bs, (s.proc l.1).pc = .writeFull n bs →
    s.pipe.readopen = false ∨ (s.proc l.1).killed = true →
    ∀ q, ¬ (s.proc q).pc.SleepsOn .nread

structure Awake (s : Sys P) : Prop where
  lock : ∀ p, (s.proc p).pc.Holds ↔ s.lock = some p
  knows : ∀ p, (s.proc p).pc.Knows s.pipe
  asleep : ∀ p chan, (s.proc p).pc.SleepsOn chan → s.pipe.Stuck chan ∨
    ∃ h, s.lock = some h ∧ (s.proc h).pc.Owes chan

variable {pc : Pc}

theorem Pc.knows_of_not_holds {x : Pipe} (h : ¬ pc.Holds) : pc.Knows x := by
  cases pc with
  | writeFull | writeWake | writeSleep | readEmpty | readSleep => exact absurd trivial h
  | _ => trivial

variable {chan : Chan}

theorem Pc.not_sleepsOn_of_holds (h : pc.Holds) : ¬ pc.SleepsOn chan := by
  cases pc with
  | readAsleep | writeAsleep => exact absurd h id
  | _ => cases chan <;> exact id

theorem Pc.holds_wake : (pc.wake chan).Holds ↔ pc.Holds := by
  cases pc with
  | readAsleep | writeAsleep => cases chan <;> exact .rfl
  | _ => exact .rfl

theorem Pc.sleepsOn_wake {c : Chan} : (pc.wake chan).SleepsOn c ↔ pc.SleepsOn c ∧ c ≠ chan := by
  cases pc <;> cases c <;> cases chan <;> simp [Pc.wake, Pc.SleepsOn]

namespace Awake

theorem hold (h : Awake s) (hp : (s.proc p).pc.Holds) (hlock : s'.lock = s.lock)
    (hof : ∀ q, q ≠ p → ((s'.proc q).pc.Holds ↔ (s.proc q).pc.Holds) ∧
      ∀ chan, (s'.proc q).pc.SleepsOn chan → (s.proc q).pc.SleepsOn chan)
    (hp' : (s'.proc p).pc.Holds) (hknows : (s'.proc p).pc.Knows s'.pipe)
    (hstuck : ∀ q chan, (s'.proc q).pc.SleepsOn chan →
      s.pipe.Stuck chan ∨ (s.proc p).pc.Owes chan →
      s'.pipe.Stuck chan ∨ (s'.proc p).pc.Owes chan) : Awake s' := by
  have hl : s.lock = some p := (h.lock p).1 hp
  refine ⟨fun q => ?_, fun q => ?_, fun q chan hq => ?_⟩
  · rw [hlock, ← h.lock q]
    by_cases hqp : q = p
    · subst hqp
      exact iff_of_true hp' hp
    · exact (hof q hqp).1
  · by_cases hqp : q = p
    · rwa [hqp]
    · -- Only the holder of the lock knows anything.
      refine Pc.knows_of_not_holds fun hh => hqp ?_
      have := (h.lock q).1 ((hof q hqp).1.1 hh)
      exact Option.some.inj (this.symm.trans hl)
  · have hqp : q ≠ p := by
      rintro rfl
      exact Pc.not_sleepsOn_of_holds hp' hq
    have hold : s.pipe.Stuck chan ∨ (s.proc p).pc.Owes chan := by
      refine (h.asleep q chan ((hof q hqp).2 chan hq)).imp_right fun ⟨r, hr, ho⟩ => ?_
      rwa [Option.some.inj (hl.symm.trans hr)]
    exact (hstuck q chan hq hold).imp_right fun ho => ⟨p, hlock.trans hl, ho⟩

theorem leave (h : Awake s) (hp : (s.proc p).pc.Holds) (hlock : s'.lock = none)
    (hpipe : s'.pipe = s.pipe) (hof : ∀ q, q ≠ p → s'.proc q = s.proc q)
    (hp' : ¬ (s'.proc p).pc.Holds) (howes : ∀ chan, ¬ (s.proc p).pc.Owes chan)
    (hstuck : ∀ chan, (s'.proc p).pc.SleepsOn chan → s.pipe.Stuck chan) : Awake s' := by
  have hl : s.lock = some p := (h.lock p).1 hp
  have hno : ∀ q, ¬ (s'.proc q).pc.Holds := by
    intro q hq
    by_cases hqp : q = p
    · exact hp' (hqp ▸ hq)
    · rw [hof q hqp] at hq
      exact hqp (Option.some.inj (((h.lock q).1 hq).symm.trans hl))
  refine ⟨fun q => iff_of_false (hno q) (by simp [hlock]),
    fun q => Pc.knows_of_not_holds (hno q), fun q chan hq => .inl ?_⟩
  rw [hpipe]
  by_cases hqp : q = p
  · exact hstuck chan (hqp ▸ hq)
  · rw [hof q hqp] at hq
    refine (h.asleep q chan hq).resolve_right fun ⟨r, hr, ho⟩ => ?_
    rw [Option.some.inj (hr.symm.trans hl)] at ho
    exact howes chan ho

theorem enter (h : Awake s) (hl : s.lock = none) (hlock : s'.lock = some p)
    (hpipe : s'.pipe = s.pipe) (hof : ∀ q, q ≠ p → s'.proc q = s.proc q)
    (hp' : (s'.proc p).pc.Holds) (hknows : (s'.proc p).pc.Knows s'.pipe) : Awake s' := by
  have hno : ∀ q, ¬ (s.proc q).pc.Holds := by
    intro q hq
    have := (h.lock q).1 hq
    simp [hl] at this
  refine ⟨fun q => ?_, fun q => ?_, fun q chan hq => .inl ?_⟩
  · rw [hlock]
    by_cases hqp : q = p
    · subst hqp
      exact iff_of_true hp' rfl
    · rw [hof q hqp]
      exact iff_of_false (hno q) fun he => hqp (Option.some.inj he).symm
  · by_cases hqp : q = p
    · rwa [hqp]
    · rw [hof q hqp]
      exact Pc.knows_of_not_holds (hno q)
  · have hqp : q ≠ p := by
      rintro rfl
      exact Pc.not_sleepsOn_of_holds hp' hq
    rw [hof q hqp] at hq
    rw [hpipe]
    refine (h.asleep q chan hq).resolve_right fun ⟨r, hr, _⟩ => ?_
    simp [hl] at hr

theorem aside (h : Awake s) (hlock : s'.lock = s.lock) (hpipe : s'.pipe = s.pipe)
    (hof : ∀ q, q ≠ p → s'.proc q = s.proc q)
    (hp : (s'.proc p).pc = (s.proc p).pc ∨
      ¬ (s.proc p).pc.Holds ∧ ¬ (s'.proc p).pc.Holds ∧ ∀ chan, ¬ (s'.proc p).pc.SleepsOn chan) :
    Awake s' := by
  have hpc : ∀ q, (s'.proc q).pc = (s.proc q).pc ∨ ¬ (s.proc q).pc.Holds ∧ ¬ (s'.proc q).pc.Holds ∧
        ∀ chan, ¬ (s'.proc q).pc.SleepsOn chan := by
    intro q
    by_cases hqp : q = p
    · rwa [hqp]
    · exact .inl (by rw [hof q hqp])
  refine ⟨fun q => ?_, fun q => ?_, fun q chan hq => ?_⟩
  · rw [hlock, ← h.lock q]
    rcases hpc q with he | ⟨h1, h2, -⟩
    · rw [he]
    · exact iff_of_false h2 h1
  · rcases hpc q with he | ⟨-, h2, -⟩
    · rw [he, hpipe]
      exact h.knows q
    · exact Pc.knows_of_not_holds h2
  rcases hpc q with he | ⟨-, -, h3⟩
  · rw [he] at hq
    rw [hpipe, hlock]
    refine (h.asleep q chan hq).imp_right fun ⟨r, hr, ho⟩ => ⟨r, hr, ?_⟩
    rcases hpc r with he | ⟨h1, -, -⟩
    · rwa [he]
    · exact absurd ((h.lock r).2 hr) h1
  · exact absurd hq (h3 chan)

theorem start (data : Fin PIPESIZE → UInt8) (killed : P → Bool) : Awake (start data killed) where
  lock p := iff_of_false id (by simp [Pipes.start])
  knows p := trivial
  asleep p chan h := by cases chan <;> cases h

variable [DecidableEq P] {pc : Pc} (h : Awake s)
include h

section
variable (hp : (s.proc p).pc.Holds)
include hp

theorem hold_goto {t : Sys P} (hlock : t.lock = s.lock)
    (hproc : t.proc = s.proc ∨ ∃ chan, t.proc = (s.wakeup chan).proc) (hpc : pc.Holds)
    (hknows : pc.Knows t.pipe)
    (hstuck : ∀ q chan, (t.proc q).pc.SleepsOn chan → s.pipe.Stuck chan ∨ (s.proc p).pc.Owes chan →
      t.pipe.Stuck chan ∨ pc.Owes chan) :
    Awake (t.goto p pc) := by
  have hself : ((t.goto p pc).proc p).pc = pc := by simp [Sys.goto]
  have hof : ∀ q, q ≠ p → (t.goto p pc).proc q = t.proc q := fun q hq => by simp [Sys.goto, hq]
  refine h.hold hp hlock (fun q hq => ?_) (by rwa [hself]) (by rwa [hself]) fun q chan hq => ?_
  · rw [hof q hq]
    rcases hproc with he | ⟨c, he⟩
    · rw [he]
      exact ⟨.rfl, fun _ h => h⟩
    · rw [he]
      exact ⟨Pc.holds_wake, fun _ h => (Pc.sleepsOn_wake.1 h).1⟩
  · rw [hself]
    by_cases hqp : q = p
    · rw [hqp, hself] at hq
      exact absurd hq (Pc.not_sleepsOn_of_holds hpc)
    · rw [hof q hqp] at hq
      exact hstuck q chan hq

theorem test (hpc : pc.Holds) (hknows : pc.Knows s.pipe)
    (howes : ∀ q chan, (s.proc q).pc.SleepsOn chan → (s.proc p).pc.Owes chan → pc.Owes chan) :
    Awake (s.goto p pc) :=
  h.hold_goto hp rfl (.inl rfl) hpc hknows fun q chan hq ho => ho.imp_right (howes q chan hq)

theorem wakeup {chan : Chan} (hpc : pc.Holds)
    (hknows : pc.Knows s.pipe) (howes : ∀ c, c ≠ chan → (s.proc p).pc.Owes c → pc.Owes c) :
    Awake ((s.wakeup chan).goto p pc) := by
  refine h.hold_goto hp rfl (.inr ⟨chan, rfl⟩) hpc hknows fun q c hq ho => ?_
  exact ho.imp_right (howes c (Pc.sleepsOn_wake.1 hq).2)

end

theorem acquire (hs : s.acquire p pc = some s') (hpc : pc.Holds)
    (hknows : pc.Knows s.pipe) : Awake s' := by
  unfold Sys.acquire at hs
  split at hs
  · rename_i hl
    cases hs
    refine h.enter hl rfl rfl (fun q hq => by simp [Sys.goto, hq]) ?_ ?_ <;> simpa [Sys.goto]
  · cases hs

theorem sleep (hp : (s.proc p).pc.Holds) (hpc : ¬ pc.Holds)
    (howes : ∀ chan, ¬ (s.proc p).pc.Owes chan)
    (hstuck : ∀ chan, pc.SleepsOn chan → s.pipe.Stuck chan) : Awake (s.sleep p pc) := by
  refine h.leave hp rfl rfl (fun q hq => ?_) ?_ howes ?_
  · simp [Sys.sleep, Sys.goto, hq]
  · simpa [Sys.sleep, Sys.goto]
  · simpa [Sys.sleep, Sys.goto]

theorem release {r : Int} (hp : (s.proc p).pc.Holds)
    (howes : ∀ chan, ¬ (s.proc p).pc.Owes chan) : Awake (s.release p r) := by
  refine h.leave hp rfl rfl (fun q hq => by simp [Sys.release, hq]) ?_ howes fun chan hc => ?_
  · simp [Sys.release, Pc.Holds]
  · simp [Sys.release, Pc.SleepsOn] at hc

theorem go (hk : LeavesNoReader s (p, .go)) (hs : s.go p = some s') : Awake s' := by
  have hkn := h.knows p
  have hh : ∀ {pc}, (s.proc p).pc = pc → pc.Holds → (s.proc p).pc.Holds := by
    rintro _ rfl hpc
    exact hpc
  cases hpc : (s.proc p).pc with
  | idle => simp [Sys.go, hpc] at hs
  | writeAsleep n bs => simp [Sys.go, hpc] at hs
  | readAsleep n => simp [Sys.go, hpc] at hs
  | writeLock n bs =>
    simp only [Sys.go, hpc] at hs
    exact h.acquire hs trivial trivial
  | writeLoop n bs =>
    have hp := hh hpc trivial
    cases bs with
    | nil =>
      simp only [Sys.go, hpc, Option.some.injEq] at hs
      subst hs
      refine h.wakeup hp trivial trivial fun c hc ho => ?_
      rw [hpc] at ho
      cases c with
      | nread => exact absurd rfl hc
      | nwrite => exact ho
    | cons b bs =>
      simp only [Sys.go, hpc] at hs
      split at hs
      · rename_i hfull
        cases hs
        refine h.test hp trivial hfull fun q c _ ho => ?_
        rw [hpc] at ho
        cases c <;> exact ho
      rename_i hfull
      cases hs
      refine h.hold_goto hp rfl (.inl rfl) trivial trivial fun q c _ ho => ?_
      rw [hpc] at ho
      cases c with
      | nread => exact .inr trivial
      | nwrite => exact absurd (ho.resolve_right id).1 hfull
  | writeFull n bs =>
    have hp := hh hpc trivial
    rw [hpc] at hkn
    simp only [Sys.go, hpc] at hs
    split at hs
    · rename_i hgone
      cases hs
      refine h.test hp trivial trivial fun q c hq ho => ?_
      rw [hpc] at ho
      cases c with
      | nread => exact absurd hq (hk rfl n bs hpc hgone q)
      | nwrite => exact ho
    · rename_i hgone
      cases hs
      refine h.test hp trivial ⟨hkn, ?_⟩ fun q c _ ho => ?_
      · simpa using (not_or.1 hgone).1
      · rw [hpc] at ho
        cases c <;> exact ho
  | writeWake n bs =>
    rw [hpc] at hkn
    simp only [Sys.go, hpc, Option.some.injEq] at hs
    subst hs
    refine h.wakeup (hh hpc trivial) trivial hkn fun c hc ho => ?_
    rw [hpc] at ho
    cases c with
    | nread => exact absurd rfl hc
    | nwrite => exact ho
  | writeSleep n bs =>
    rw [hpc] at hkn
    simp only [Sys.go, hpc, Option.some.injEq] at hs
    subst hs
    refine h.sleep (hh hpc trivial) id (fun c => ?_) fun c hc => ?_
    · rw [hpc]
      cases c <;> exact id
    · cases c with
      | nread => exact absurd hc id
      | nwrite => exact hkn
  | readLock n =>
    simp only [Sys.go, hpc] at hs
    exact h.acquire hs trivial trivial
  | readWait n =>
    have hp := hh hpc trivial
    have howes : ∀ {c}, ¬ (s.proc p).pc.Owes c := by
      intro c
      rw [hpc]
      cases c <;> exact id
    simp only [Sys.go, hpc] at hs
    split at hs
    · rename_i hempty
      cases hs
      exact h.test hp trivial hempty fun q c _ ho => absurd ho howes
    · cases hs
      exact h.test hp trivial trivial fun q c _ ho => absurd ho howes
  | readEmpty n =>
    have hp := hh hpc trivial
    have howes : ∀ {c}, ¬ (s.proc p).pc.Owes c := by
      intro c
      rw [hpc]
      cases c <;> exact id
    rw [hpc] at hkn
    simp only [Sys.go, hpc] at hs
    split at hs
    · cases hs
      exact h.test hp trivial trivial fun q c _ ho => absurd ho howes
    · cases hs
      exact h.test hp trivial hkn fun q c _ ho => absurd ho howes
  | readSleep n =>
    rw [hpc] at hkn
    simp only [Sys.go, hpc, Option.some.injEq] at hs
    subst hs
    refine h.sleep (hh hpc trivial) id (fun c => ?_) fun c hc => ?_
    · rw [hpc]
      cases c <;> exact id
    · cases c with
      | nread => exact hkn
      | nwrite => exact absurd hc id
  | readLoop n got =>
    have hp := hh hpc trivial
    simp only [Sys.go, hpc] at hs
    split at hs
    · rename_i hmore
      cases hs
      refine h.hold_goto hp rfl (.inl rfl) trivial trivial fun q c _ ho => ?_
      rw [hpc] at ho
      cases c with
      | nread => exact absurd (ho.resolve_right id).1 hmore.2
      | nwrite => exact .inr trivial
    · cases hs
      refine h.wakeup hp trivial trivial fun c hc ho => ?_
      rw [hpc] at ho
      cases c with
      | nread => exact ho
      | nwrite => exact absurd rfl hc
  | closeLock w =>
    simp only [Sys.go, hpc] at hs
    exact h.acquire hs trivial trivial
  | closeStore w =>
    simp only [Sys.go, hpc, Option.some.injEq] at hs
    subst hs
    refine h.hold_goto (hh hpc trivial) rfl (.inl rfl) trivial trivial fun q c _ ho => ?_
    rw [hpc] at ho
    cases w <;> cases c
    · exact .inl (ho.resolve_right id)
    · exact .inr trivial
    · exact .inr trivial
    · exact .inl (ho.resolve_right id)
  | closeWake w =>
    simp only [Sys.go, hpc, Option.some.injEq] at hs
    subst hs
    refine h.wakeup (hh hpc trivial) trivial trivial fun c hc ho => ?_
    rw [hpc] at ho
    cases w <;> cases c <;> first | exact absurd rfl hc | exact ho
  | closeEnd =>
    simp only [Sys.go, hpc, Option.some.injEq] at hs
    subst hs
    have hr : Awake (s.release p 0) := by
      refine h.release (hh hpc trivial) fun c => ?_
      rw [hpc]
      cases c <;> exact id
    exact ⟨hr.lock, hr.knows, hr.asleep⟩
  | ret r =>
    simp only [Sys.go, hpc, Option.some.injEq] at hs
    subst hs
    refine h.release (hh hpc trivial) fun c => ?_
    rw [hpc]
    cases c <;> exact id

theorem call (hpc : ¬ pc.Holds) (hsl : ∀ c, ¬ pc.SleepsOn c)
    (hs : s.call p pc = some s') : Awake s' := by
  unfold Sys.call at hs
  split at hs
  · rename_i hidle
    cases hs
    refine h.aside (p := p) rfl rfl (fun q hq => by simp [Sys.goto, hq]) (.inr ⟨?_, ?_, ?_⟩)
    · rw [hidle]
      exact id
    · simpa [Sys.goto]
    · simpa [Sys.goto]
  · cases hs

theorem kill : Awake (s.kill p) := by
  refine h.aside (p := p) rfl rfl (fun q hq => by simp [Sys.kill, hq]) ?_
  have hself : ((s.kill p).proc p).pc = ((s.proc p).pc.wake .nread).wake .nwrite := by
    simp [Sys.kill]
  rw [hself]
  cases (s.proc p).pc with
  | readAsleep | writeAsleep => exact .inr ⟨id, id, fun c => by cases c <;> exact id⟩
  | _ => exact .inl rfl

theorem step {l : P × Act} (hk : LeavesNoReader s l) (hs : s.step l = some s') : Awake s' := by
  obtain ⟨p, a⟩ := l
  simp only [Sys.step] at hs
  split at hs
  · cases hs
  cases a with
  | write bs => exact h.call id (fun c => by cases c <;> exact id) hs
  | read n => exact h.call id (fun c => by cases c <;> exact id) hs
  | close w => exact h.call id (fun c => by cases c <;> exact id) hs
  | go => exact h.go hk hs
  | kill =>
    cases hs
    exact h.kill

end Awake

theorem no_lost_wakeup [DecidableEq P] (data : Fin PIPESIZE → UInt8) (killed : P → Bool)
    (tr : List (P × Act)) (hk : EveryStep Sys.step (start data killed) LeavesNoReader tr) :
    EveryState Sys.step (start data killed) (fun s => s.lock = none → ∀ p,
      (∀ n, (s.proc p).pc = .readAsleep n →
        s.pipe.nread = s.pipe.nwrite ∧ s.pipe.writeopen = true) ∧
      (∀ n bs, (s.proc p).pc = .writeAsleep n bs →
        s.pipe.nwrite = s.pipe.nread + UInt32.ofNat PIPESIZE ∧ s.pipe.readopen = true)) tr := by
  intro tr' s hpre hrun hl p
  have h : Awake s := exec_guarded Awake (.start data killed) (fun _ _ _ h hk hs => h.step hk hs)
    hrun (hk.of_prefix hpre)
  have hasleep : ∀ chan, (s.proc p).pc.SleepsOn chan → s.pipe.Stuck chan := by
    intro chan hc
    refine (h.asleep p chan hc).resolve_right fun ⟨r, hr, _⟩ => ?_
    simp [hl] at hr
  constructor
  · intro n hn
    exact hasleep .nread (by rw [hn]; trivial)
  · intro n bs hn
    exact hasleep .nwrite (by rw [hn]; trivial)

def newPipe : Sys Bool := start (fun _ => 0) fun _ => false

def readerSleeps : List (Bool × Act) := (true, .read 1) :: List.replicate 4 (true, .go)

def patientRun : List (Bool × Act) :=
  readerSleeps ++ (false, .write [1, 2]) :: List.replicate 5 (false, .go) ++
    List.replicate 5 (true, .go) ++ (false, .write (List.replicate 512 0)) ::
    List.replicate 513 (false, .go) ++ (false, .kill) :: List.replicate 2 (false, .go)

theorem no_lost_wakeup_patientRun :
    (exec Sys.step newPipe patientRun).isSome = true ∧
    EveryState Sys.step newPipe (fun s => s.lock = none → ∀ p,
      (∀ n, (s.proc p).pc = .readAsleep n →
        s.pipe.nread = s.pipe.nwrite ∧ s.pipe.writeopen = true) ∧
      (∀ n bs, (s.proc p).pc = .writeAsleep n bs →
        s.pipe.nwrite = s.pipe.nread + UInt32.ofNat PIPESIZE ∧ s.pipe.readopen = true))
      patientRun := by
  refine ⟨by decide +kernel, no_lost_wakeup _ _ _ (.of_check (g := fun s l =>
    decide ((s.proc l.1).killed = false ∧ s.pipe.readopen = true ∨
      ∀ q, (s.proc q).pc.wake .nread = (s.proc q).pc)) ?_ (by decide +kernel))⟩
  intro s l hg _ n bs _ hgone q hq
  rcases of_decide_eq_true hg with ⟨hk, ho⟩ | hw
  · simp [hk, ho] at hgone
  · rw [← hw q] at hq
    exact (Pc.sleepsOn_wake.1 hq).2 rfl

def giveUpRun : List (Bool × Act) :=
  readerSleeps ++ (false, .kill) :: (false, .write (List.replicate 513 0)) ::
    List.replicate 516 (false, .go)

theorem giveUpRun_loses :
    ∃ s, exec Sys.step newPipe giveUpRun = some s ∧ s.lock = none ∧
      (s.proc true).pc = .readAsleep 1 ∧ s.pipe.nread ≠ s.pipe.nwrite :=
  exec_exists _ _ _ _ (by decide +kernel)

end Xv6.Pipes
