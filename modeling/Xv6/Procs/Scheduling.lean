import Xv6.Procs.Changes

namespace Xv6.Procs

open Lib Function

variable {C : Type} {t u : Ptable}

inductive CpuOk (t : Ptable) : Cpu → Bool → Prop
  | idle : CpuOk t (.scheduler .idle) false
  | scan (i : ℕ) : CpuOk t (.scheduler (.scan i)) true
  | run (p : Slot) (h : (t.proc p).state = .running) : CpuOk t (.on p .run) false
  | sched (p : Slot) (h : (t.proc p).state ≠ .running) (hu : (t.proc p).state ≠ .unused)
      (he : (t.proc p).state ≠ .embryo) : CpuOk t (.on p .sched) true

structure Sched [DecidableEq C] (s : Kernel C) : Prop where
  cpus : ∀ c, CpuOk s.pt (s.cpu c) (decide (s.lock = some c))
  only : ∀ c d p, (s.cpu c).proc = some p → (s.cpu d).proc = some p → c = d
  running : ∀ p, (s.pt.proc p).state = .running → ∃ c, s.cpu c = .on p .run
  forking : s.pt.Forking

structure Alone (s : Kernel C) (c : C) (p : Slot) (t : Ptable) : Prop where
  others : ∀ d, d ≠ c → CpuOk t (s.cpu d) false
  only : ∀ d e q, d ≠ c → e ≠ c → (s.cpu d).proc = some q → (s.cpu e).proc = some q → d = e
  mine : ∀ d, d ≠ c → (s.cpu d).proc ≠ some p
  running : ∀ q, q ≠ p → (t.proc q).state = .running → ∃ d, d ≠ c ∧ s.cpu d = .on q .run
  forking : t.Forking

theorem CpuOk.of_running {x : Cpu} (h : CpuOk t x false)
    (hr : ∀ p, x.proc = some p → (t.proc p).state = .running → (u.proc p).state = .running) :
    CpuOk u x false := by
  cases h with
  | idle => exact .idle
  | run p hp => exact .run p (hr p rfl hp)

variable [DecidableEq C] {s s' : Kernel C} {c : C} {p : Slot}

namespace Alone

omit [DecidableEq C] in
theorem change (h : Alone s c p t) (hu : u.Forking)
    (hr : ∀ q, q ≠ p → ((u.proc q).state = .running ↔ (t.proc q).state = .running)) :
    Alone s c p u where
  others d hd := (h.others d hd).of_running fun q hq hs =>
    (hr q fun he => h.mine d hd (he ▸ hq)).2 hs
  only := h.only
  mine := h.mine
  running q hq hs := h.running q hq ((hr q hq).1 hs)
  forking := hu

theorem back {pc : Pc} {l : Option C} (h : Alone s c p t) (hl : ∀ d, l = some d → d = c)
    (hok : CpuOk t (.on p pc) (decide (l = some c)))
    (hrun : (t.proc p).state = .running → pc = .run) :
    Sched { s.setCpu c (.on p pc) with pt := t, lock := l } where
  cpus d := by
    by_cases hd : d = c
    · subst hd
      simpa [Kernel.setCpu] using hok
    · have hne : ¬l = some d := fun he => hd (hl d he)
      simpa [Kernel.setCpu, hd, hne] using h.others d hd
  only d e q hdq heq := by
    by_cases hd : d = c <;> by_cases he : e = c
    · rw [hd, he]
    · subst hd
      have hq : p = q := by simpa [Kernel.setCpu, Cpu.on] using hdq
      exact absurd (by simpa [Kernel.setCpu, he, hq] using heq) (h.mine e he)
    · subst he
      have hq : p = q := by simpa [Kernel.setCpu, Cpu.on] using heq
      exact absurd (by simpa [Kernel.setCpu, hd, hq] using hdq) (h.mine d hd)
    · simp only [Kernel.setCpu, update_of_ne hd, update_of_ne he] at hdq heq
      exact h.only d e q hd he hdq heq
  running q hq := by
    by_cases hqp : q = p
    · subst hqp
      exact ⟨c, by simp [Kernel.setCpu, hrun hq]⟩
    · obtain ⟨d, hd, hcpu⟩ := h.running q hqp hq
      exact ⟨d, by simpa [Kernel.setCpu, hd] using hcpu⟩
  forking := h.forking

theorem release (h : Alone s c p t) (hp : (t.proc p).state = .running) : Sched (s.release c p t) :=
  h.back (by simp) (by simpa using CpuOk.run p hp) fun _ => rfl

theorem toSched (h : Alone s c p t) (hp : (t.proc p).state ≠ .running)
    (hu : (t.proc p).state ≠ .unused) (he : (t.proc p).state ≠ .embryo) : Sched (s.toSched c p t) :=
  h.back (by simp) (by simpa using CpuOk.sched p hp hu he) fun hr => absurd hr hp

end Alone

namespace Sched

variable (h : Sched s)
include h

theorem cpu_of_unlocked (hl : s.lock = none) (c : C) : CpuOk s.pt (s.cpu c) false := by
  have := h.cpus c
  rwa [hl, decide_eq_false (by simp)] at this

theorem alone (hl : s.lock = none) (hc : s.cpu c = .on p .run) : Alone s c p s.pt where
  others d _ := h.cpu_of_unlocked hl d
  only d e q _ _ := h.only d e q
  mine d hd hp := hd (h.only d c p hp (by rw [hc]; rfl))
  running q hq hs := by
    obtain ⟨d, hd⟩ := h.running q hs
    refine ⟨d, ?_, hd⟩
    rintro rfl
    rw [hc] at hd
    simp only [Cpu.on, Cpu.mk.injEq, Option.some.injEq] at hd
    exact hq hd.1.symm
  forking := h.forking

theorem alone_scan {i : ℕ} (hl : s.lock = some c) (hc : s.cpu c = .scheduler (.scan i))
    (hp : (s.pt.proc p).state ≠ .running) : Alone s c p s.pt where
  others d hd := by
    have := h.cpus d
    rwa [hl, decide_eq_false (by simp [Ne.symm hd])] at this
  only d e q _ _ := h.only d e q
  mine d hd hdp := by
    have := h.cpus d
    rw [hl, decide_eq_false (by simp [Ne.symm hd])] at this
    cases hx : s.cpu d with
    | mk pr st cr pc =>
      rw [hx] at this hdp
      cases this with
      | idle => cases hdp
      | run q hq =>
        cases hdp
        exact hp hq
  running q _ hs := by
    obtain ⟨d, hd⟩ := h.running q hs
    refine ⟨d, ?_, hd⟩
    rintro rfl
    rw [hc] at hd
    simp [Cpu.scheduler, Cpu.on] at hd
  forking := h.forking

theorem table (hu : u.Forking)
    (hr : ∀ q, (u.proc q).state = .running ↔ (s.pt.proc q).state = .running)
    (hl : s.lock = none ∨ ∀ q, (s.pt.proc q).state ≠ .embryo →
      (u.proc q).state = (s.pt.proc q).state) : Sched { s with pt := u } where
  cpus d := by
    have := h.cpus d
    show CpuOk u (s.cpu d) (decide (s.lock = some d))
    generalize s.cpu d = x at this ⊢
    generalize hb : decide (s.lock = some d) = b at this ⊢
    cases this with
    | idle => exact .idle
    | scan i => exact .scan i
    | run p hp => exact .run p ((hr p).2 hp)
    | sched p hp hun he =>
      rcases hl with hl | hl
      · simp [hl] at hb
      · have := hl p he
        exact .sched p (by rwa [this]) (by rwa [this]) (by rwa [this])
  only := h.only
  running p hp := h.running p ((hr p).1 hp)
  forking := hu

theorem scheduler {pc' : Pc} {l : Option C} (hc : ∀ q, s.cpu c ≠ .on q .run)
    (hl : ∀ d, d ≠ c → (l = some d ↔ s.lock = some d))
    (hok : CpuOk s.pt (.scheduler pc') (decide (l = some c))) :
    Sched { s.setCpu c (.scheduler pc') with lock := l } where
  cpus d := by
    by_cases hd : d = c
    · subst hd
      simpa [Kernel.setCpu] using hok
    · have := h.cpus d
      rw [← decide_eq_decide.2 (hl d hd)] at this
      simpa [Kernel.setCpu, hd] using this
  only d e q hdq heq := by
    by_cases hd : d = c
    · subst hd
      simp [Kernel.setCpu, Cpu.scheduler] at hdq
    by_cases he : e = c
    · subst he
      simp [Kernel.setCpu, Cpu.scheduler] at heq
    · simp only [Kernel.setCpu, update_of_ne hd, update_of_ne he] at hdq heq
      exact h.only d e q hdq heq
  running q hq := by
    obtain ⟨d, hd⟩ := h.running q hq
    have hdc : d ≠ c := by
      rintro rfl
      exact hc q hd
    exact ⟨d, by simpa [Kernel.setCpu, hdc] using hd⟩
  forking := h.forking

end Sched

inductive Moved (s : Kernel C) (c : C) (p : Slot) : Act → Kernel C → Prop
  | yield (hl : s.lock = none) : Moved s c p .yield
      (s.toSched c p (s.pt.set p { s.pt.proc p with state := .runnable, resume := .yield }))
  | sleep (chan : ℕ) (hl : s.lock = none) (hf : (s.pt.proc p).fork = .no) :
      Moved s c p (.sleep chan) (s.toSched c p (s.pt.sleepOn p (.addr chan) .sleep))
  | kill (pid : Int32) (hl : s.lock = none) (hf : (s.pt.proc p).fork = .no) :
      Moved s c p (.kill pid) { s with pt := (s.pt.kill pid).1.record (.kill pid) }
  | exit (hl : s.lock = none) (hf : (s.pt.proc p).fork = .no) (hi : p ≠ s.pt.initproc) :
      Moved s c p .exit (s.toSched c p (s.pt.exit p))
  | wait (hl : s.lock = none) (hf : (s.pt.proc p).fork = .no) :
      Moved s c p .wait (s.waitLoop c p s.pt)
  | full : Moved s c p .alloc s
  | alloc (np : Slot) (hl : s.lock = none) (hf : (s.pt.proc p).fork = .no)
      (hnp : s.pt.findUnused = some np) :
      Moved s c p .alloc { s with pt := (s.pt.allocproc p np).setFork p (.alloc np) }
  | fail (np : Slot) (hf : (s.pt.proc p).fork = .alloc np) :
      Moved s c p .fail { s with pt := (s.pt.forkFail np).setFork p .no }
  | adopt (np : Slot) (hf : (s.pt.proc p).fork = .alloc np) :
      Moved s c p .adopt { s with pt := (s.pt.adopt p np).setFork p (.adopted np) }
  | done (np : Slot) (hl : s.lock = none) (hf : (s.pt.proc p).fork = .adopted np) :
      Moved s c p .done { s with pt := (s.pt.forkDone np).setFork p .no }

variable {a : Act}

theorem Kernel.store_cases (hs : s.store p a = some s') : Moved s c p a s' := by
  unfold Kernel.store at hs
  split at hs
  · split at hs
    · cases hs
      exact .fail _ ‹_›
    · cases hs
  · split at hs
    · cases hs
      exact .adopt _ ‹_›
    · cases hs
  · cases hs

theorem Kernel.call_cases (hl : s.lock = none) (hf : (s.pt.proc p).fork = .no)
    (hs : s.call c p a = some s') : Moved s c p a s' := by
  cases a with
  | sleep chan =>
    cases hs
    exact .sleep _ hl hf
  | kill pid =>
    cases hs
    exact .kill _ hl hf
  | exit =>
    by_cases hp : p = s.pt.initproc
    · exact absurd ((if_pos hp).symm.trans hs) nofun
    · cases (if_neg hp).symm.trans hs
      exact .exit hl hf hp
  | wait =>
    cases hs
    exact .wait hl hf
  | alloc =>
    cases hs
    split
    · exact .full
    · exact .alloc _ hl hf ‹_›
  | _ => cases hs

theorem Kernel.runStep_cases (hs : s.runStep c p a = some s') : Moved s c p a s' := by
  unfold Kernel.runStep at hs
  split at hs
  · exact Kernel.store_cases hs
  split at hs
  · cases hs
  rename_i hl
  have hl : s.lock = none := by simpa using hl
  split at hs
  · rename_i ha
    subst ha
    cases hs
    exact .yield hl
  split at hs
  · rename_i ha
    subst ha
    unfold Kernel.finish at hs
    split at hs
    · cases hs
      exact .done _ hl ‹_›
    · cases hs
  · split at hs
    · exact Kernel.call_cases hl ‹_› hs
    · cases hs

inductive Stepped (s : Kernel C) (c : C) : Act → Kernel C → Prop
  | acquire (hc : s.cpu c = .scheduler .idle) (hl : s.lock = none) :
      Stepped s c .acquire { s.setCpu c (.scheduler (.scan 0)) with lock := some c }
  | look (i : ℕ) (hc : s.cpu c = .scheduler (.scan i)) (hl : s.lock = some c) :
      Stepped s c .look (s.look c i)
  | swtch (p : Slot) (hc : s.cpu c = .on p .sched) (hl : s.lock = some c) :
      Stepped s c .swtch (s.setCpu c (.scheduler (.scan (p.val + 1))))
  | wakeup (chan : ℕ) (hl : s.lock = none) :
      Stepped s c (.wakeup chan) { s with pt := s.pt.wakeup1 (some (.addr chan)) }
  | run (p : Slot) (a : Act) (s' : Kernel C) (hc : s.cpu c = .on p .run)
      (hp : (s.pt.proc p).state = .running) (hm : Moved s c p a s') : Stepped s c a s'

variable {l : C × Act}

theorem Sched.step_cases (h : Sched s) (hs : s.step l = some s') : Stepped s l.1 l.2 s' := by
  obtain ⟨c, a⟩ := l
  have hc := h.cpus c
  simp only [Kernel.step] at hs
  generalize hx : s.cpu c = x at hc hs
  generalize hb : decide (s.lock = some c) = b at hc
  cases hc with
  | idle =>
    cases a with
    | acquire =>
      simp only [Cpu.scheduler] at hs
      split at hs
      · cases hs
        exact .acquire hx ‹_›
      · cases hs
    | wakeup chan =>
      simp only [Cpu.scheduler] at hs
      split at hs
      · cases hs
        exact .wakeup chan ‹_›
      · cases hs
    | _ => cases hs
  | scan i =>
    cases a with
    | look =>
      cases hs
      exact .look i hx (by simpa using hb)
    | _ => cases hs
  | run p hp =>
    cases a with
    | wakeup chan =>
      simp only [Cpu.on] at hs
      split at hs
      · cases hs
        exact .wakeup chan ‹_›
      · cases hs
    | _ => exact .run p _ s' hx hp (Kernel.runStep_cases hs)
  | sched p hp =>
    cases a with
    | swtch =>
      cases hs
      exact .swtch p hx (by simpa using hb)
    | _ => cases hs

theorem Alone.sleepOn {chan : Chan} {r : Resume} (h : Alone s c p t) (hp : (t.proc p).Live)
    (hw : chan = .proc p → t.zombieChild p = none) :
    Sched (s.toSched c p (t.sleepOn p chan r)) := by
  refine (h.change (h.forking.any (.tune p _ hp (.inr (.inr rfl)) rfl fun _ hc => ?_))
    fun q hq => ?_).toSched (by simp) (by simp) (by simp)
  · exact hw (Option.some.inj hc)
  · rw [Ptable.set_of_ne hq]

theorem Alone.waitLoop (h : Alone s c p t) (hp : (t.proc p).state = .running) :
    Sched (s.waitLoop c p t) := by
  have hlive : (t.proc p).Live := .inr (.inl hp)
  unfold Kernel.waitLoop
  cases hz : t.zombieChild p with
  | some z =>
    obtain ⟨-, hzs⟩ := Ptable.zombieChild_some hz
    have hpz : p ≠ z := by
      rintro rfl
      simp [hp] at hzs
    refine (h.change (h.forking.any (.reap p z hlive hz)) fun q _ => ?_).release ?_
    · by_cases hqz : q = z
      · subst hqz
        simp [Ptable.reap, Ptable.record, hzs]
      · rw [Ptable.reap, Ptable.record, Ptable.set_of_ne hqz]
    · rwa [Ptable.reap, Ptable.record, Ptable.set_of_ne hpz]
  | none =>
    dsimp only
    split
    · exact h.release hp
    · exact h.sleepOn hlive fun _ => hz

theorem Sched.look {i : ℕ} (h : Sched s) (hc : s.cpu c = .scheduler (.scan i))
    (hl : s.lock = some c) : Sched (s.look c i) := by
  have hnot : ∀ q, s.cpu c ≠ .on q .run := by
    intro q hq
    simp [hc, Cpu.scheduler, Cpu.on] at hq
  unfold Kernel.look
  split
  · rename_i hi
    split
    · rename_i hrun
      generalize (⟨i, hi⟩ : Slot) = p at hrun
      have hlive : (s.pt.proc p).Live := .inl hrun
      have halone := h.alone_scan hl hc (p := p) (by simp [hrun])
      have hon : ∀ ch, Alone s c p
          (s.pt.set p { s.pt.proc p with state := .running, chan := ch }) := by
        intro ch
        refine halone.change (h.forking.any (.tune p _ hlive (.inr (.inl rfl)) rfl ?_))
          fun q hq => ?_
        · intro hs
          cases hs
        · rw [Ptable.set_of_ne hq]
      unfold Kernel.dispatch
      dsimp only
      split
      · exact (hon (s.pt.proc p).chan).release (by rw [Ptable.set_self])
      · exact (hon (s.pt.proc p).chan).release (by rw [Ptable.set_self])
      · exact (hon none).release (by rw [Ptable.set_self])
      · exact (hon none).waitLoop (by rw [Ptable.set_self])
    · exact h.scheduler (l := s.lock) hnot (fun d _ => .rfl) (by simpa [hl] using CpuOk.scan _)
  · exact h.scheduler hnot (fun d hd => by simp [hl, Ne.symm hd]) (by simpa using CpuOk.idle)

theorem Ptable.setFork_running {p q np : Slot} {f : Fork} {x : Proc}
    (hnp : (t.proc np).state ≠ .running) (hx : x.state ≠ .running) :
    (((t.set np x).setFork p f).proc q).state = .running ↔ (t.proc q).state = .running := by
  rw [Ptable.setFork_proc]
  by_cases hq : q = np
  · subst hq
    simp [hnp, hx]
  · simp [Ptable.set_of_ne hq]

theorem Ptable.setFork_state {p q np : Slot} {f : Fork} {x : Proc} (hq : q ≠ np) :
    (((t.set np x).setFork p f).proc q).state = (t.proc q).state := by
  rw [Ptable.setFork_proc, Ptable.set_of_ne hq]

theorem Sched.moved (h : Sched s) (hc : s.cpu c = .on p .run) (hp : (s.pt.proc p).state = .running)
    (hm : Moved s c p a s') : Sched s' := by
  have hlive : (s.pt.proc p).Live := .inr (.inl hp)
  cases hm with
  | yield hl =>
    refine ((h.alone hl hc).change (h.forking.any (.tune p _ hlive (.inl rfl) rfl ?_))
      fun q hq => ?_).toSched (by simp) (by simp) (by simp)
    · intro hs
      cases hs
    · rw [Ptable.set_of_ne hq]
  | sleep chan hl hf => exact (h.alone hl hc).sleepOn hlive (fun he => by cases he)
  | kill pid hl hf =>
    refine h.table (h.forking.any (.kill p pid trivial)) (fun q => ?_) (.inl hl)
    show ((s.pt.kill pid).1.proc q).state = _ ↔ _
    rw [Ptable.kill_proc]
    split
    · dsimp only
      split
      · rename_i hq
        simp [hq]
      · rfl
    · rfl
  | exit hl hf hi =>
    have he := Ptable.exited s.pt (.symm hi)
    refine ((h.alone hl hc).change (h.forking.any (.exit p hlive hi hf))
      fun q hq => ?_).toSched (by simp [he.self]) (by simp [he.self]) (by simp [he.self])
    rcases he.state q hq with hs | ⟨hs, hs'⟩
    · rw [hs]
    · simp [hs, hs']
  | wait hl hf => exact (h.alone hl hc).waitLoop hp
  | full => exact h
  | alloc np hl hf hnp =>
    exact h.table (h.forking.any (.alloc p np hlive hf hnp))
      (fun q => Ptable.setFork_running (by simp [Ptable.findUnused_some hnp]) (by simp)) (.inl hl)
  | fail np hf =>
    have he := h.forking.embryo p np (.inl hf)
    exact h.table (h.forking.any (.fail p np hf trivial))
      (fun q => Ptable.setFork_running (by simp [he]) (by simp))
      (.inr fun q hq => Ptable.setFork_state fun hqn => hq (hqn ▸ he))
  | adopt np hf =>
    have he := h.forking.embryo p np (.inl hf)
    exact h.table (h.forking.any (.adopt p np hf))
      (fun q => Ptable.setFork_running (by simp [he]) (by simp [he]))
      (.inr fun q hq => Ptable.setFork_state fun hqn => hq (hqn ▸ he))
  | done np hl hf =>
    exact h.table (h.forking.any (.done p np hf))
      (fun q => Ptable.setFork_running (by simp [h.forking.embryo p np (.inr hf)]) (by simp))
      (.inl hl)

theorem Sched.step (h : Sched s) (hs : s.step l = some s') : Sched s' := by
  have hst := h.step_cases hs
  generalize l.1 = c, l.2 = a at hst
  cases hst with
  | acquire hc hl =>
    refine h.scheduler (fun q hq => ?_) (fun d hd => by simp [hl, Ne.symm hd])
      (by simpa using CpuOk.scan 0)
    simp [hc, Cpu.scheduler, Cpu.on] at hq
  | look i hc hl => exact h.look hc hl
  | swtch p hc hl =>
    refine h.scheduler (l := s.lock) (fun q hq => ?_) (fun d hd => .rfl)
      (by simpa [hl] using CpuOk.scan _)
    simp [hc, Cpu.on] at hq
  | wakeup chan hl =>
    refine h.table (h.forking.any (.wakeup _)) (fun q => ?_) (.inl hl)
    rw [Ptable.wakeup1_proc]
    dsimp only
    split
    · rename_i hq
      simp [hq.1]
    · rfl
  | run p a s' hc hp hm => exact h.moved hc hp hm

abbrev Changes (ok : Ptable → Slot → Act → Prop) : Ptable → Ptable → Prop :=
  Relation.ReflTransGen (Ptable.Change ok)

variable {ok : Ptable → Slot → Act → Prop}

theorem changes_waitLoop (hp : (t.proc p).Live) : Changes ok t (s.waitLoop c p t).pt := by
  unfold Kernel.waitLoop
  cases hz : t.zombieChild p with
  | some z => exact .single (.reap p z hp hz)
  | none =>
    dsimp only
    split
    · exact .refl
    · exact .single (.tune p _ hp (.inr (.inr rfl)) rfl fun _ _ => hz)

theorem changes_look (i : ℕ) : Changes ok s.pt (s.look c i).pt := by
  unfold Kernel.look
  split
  · rename_i hi
    split
    · rename_i hrun
      generalize (⟨i, hi⟩ : Slot) = p at hrun
      have hon : ∀ ch, Ptable.Change ok s.pt
          (s.pt.set p { s.pt.proc p with state := .running, chan := ch }) :=
        fun ch => .tune p _ (.inl hrun) (.inr (.inl rfl)) rfl fun hs => by cases hs
      unfold Kernel.dispatch
      dsimp only
      split
      · exact .single (hon (s.pt.proc p).chan)
      · exact .single (hon (s.pt.proc p).chan)
      · exact .single (hon none)
      · refine .trans (.single (hon none)) (changes_waitLoop (.inr (.inl ?_)))
        rw [Ptable.set_self]
    · exact .refl
  · exact .refl

theorem Sched.changes (h : Sched s) (hs : s.step l = some s')
    (hok : ∀ p, (s.cpu l.1).proc = some p → ok s.pt p l.2) : Changes ok s.pt s'.pt := by
  have hst := h.step_cases hs
  generalize l.1 = c, l.2 = a at hst hok
  cases hst with
  | acquire hc hl => exact .refl
  | look i hc hl => exact changes_look i
  | swtch p hc hl => exact .refl
  | wakeup chan hl => exact .single (.wakeup _)
  | run p a s' hc hp hm =>
    have hlive : (s.pt.proc p).Live := .inr (.inl hp)
    have hok := hok p (by rw [hc]; rfl)
    cases hm with
    | yield hl => exact .single (.tune p _ hlive (.inl rfl) rfl fun hs => by cases hs)
    | sleep chan hl hf =>
      exact .single (.tune p _ hlive (.inr (.inr rfl)) rfl fun _ hc => by cases hc)
    | kill pid hl hf => exact .single (.kill p pid hok)
    | exit hl hf hi => exact .single (.exit p hlive hi hf)
    | wait hl hf => exact changes_waitLoop hlive
    | full => exact .refl
    | alloc np hl hf hnp => exact .single (.alloc p np hlive hf hnp)
    | fail np hf => exact .single (.fail p np hf hok)
    | adopt np hf => exact .single (.adopt p np hf)
    | done np hl hf => exact .single (.done p np hf)

theorem sched_boot : Sched (boot C) := by
  refine ⟨fun c => ?_, fun c d p hc => ?_, fun p hp => ?_, ?_⟩
  · exact .idle
  · cases hc
  · by_cases h0 : p = 0
    · subst h0
      simp [boot] at hp
    · simp [boot, h0, Proc.zero] at hp
  have hno : ∀ p, ((boot C).pt.proc p).fork = .no := by
    intro p
    by_cases h0 : p = 0
    · subst h0
      rfl
    · simp [boot, h0, Proc.zero]
  refine ⟨fun p np hp => ?_, fun p q np hp => ?_, fun p np hp => ?_⟩
  all_goals
    rcases hp with hp | hp
    all_goals
      rw [hno] at hp
      cases hp

variable {tr : List (C × Act)}

theorem sched_run (h : exec Kernel.step (boot C) tr = some s) : Sched s :=
  exec_invariant Sched sched_boot (fun _ _ _ h hs => h.step hs) h

theorem table_run {I : Ptable → Prop} (h0 : I (boot C).pt)
    (hI : ∀ t u, t.Forking → t.Change ok u → I t → I u)
    (hok : EveryStep Kernel.step (boot C) (fun s l => ∀ p, (s.cpu l.1).proc = some p →
      ok s.pt p l.2) tr)
    (h : exec Kernel.step (boot C) tr = some s) : I s.pt := by
  have hrun : Sched s ∧ I s.pt := by
    refine exec_guarded (fun s => Sched s ∧ I s.pt) ⟨sched_boot, h0⟩ ?_ h hok
    rintro s l s' ⟨hs, hi⟩ hok hstep
    have hboth : ∀ u, Changes ok s.pt u → u.Forking ∧ I u := by
      intro u hu
      induction hu with
      | refl => exact ⟨hs.forking, hi⟩
      | tail _ hc ih => exact ⟨ih.1.change hc, hI _ _ ih.1 hc ih.2⟩
    exact ⟨hs.step hstep, (hboth _ (hs.changes hstep hok)).2⟩
  exact hrun.2

theorem table_invariant {I : Ptable → Prop} (h0 : I (boot C).pt)
    (hI : ∀ t u, t.Forking → t.Change (fun _ _ _ => True) u → I t → I u)
    (h : exec Kernel.step (boot C) tr = some s) : I s.pt :=
  table_run h0 hI (fun _ _ _ _ _ _ _ => trivial) h

def Kernel.Uses (s : Kernel C) (c : C) (z : Slot) : Prop :=
  (s.cpu c).stack = some z ∨ (s.cpu c).cr3 = some z

variable {z : Slot}

theorem CpuOk.uses {b : Bool} {x : Cpu} (h : CpuOk t x b) (hz : x.stack = some z ∨ x.cr3 = some z) :
    b = false ∧ (t.proc z).state = .running ∨ x = .on z .sched ∧ (t.proc z).state ≠ .unused := by
  cases h with
  | idle => rcases hz with hz | hz <;> cases hz
  | scan i => rcases hz with hz | hz <;> cases hz
  | run p hp =>
    rcases hz with hz | hz <;> cases hz <;> exact .inl ⟨rfl, hp⟩
  | sched p hp hu he =>
    rcases hz with hz | hz <;> cases hz <;> exact .inr ⟨rfl, hu⟩

theorem Stepped.reaped (h : Sched s) (hst : Stepped s c a s') (hz : (s.pt.proc z).state = .zombie)
    (hz' : (s'.pt.proc z).state = .unused) :
    s.lock = none ∨ s.lock = some c ∧ ∃ i, s.cpu c = .scheduler (.scan i) := by
  have hsame : (s.pt.proc z).state ≠ .unused := by simp [hz]
  cases hst with
  | acquire hc hl => exact .inl hl
  | look i hc hl => exact .inr ⟨hl, i, hc⟩
  | swtch p hc hl => exact absurd hz' hsame
  | wakeup chan hl => exact .inl hl
  | run p a s' hc hp hm =>
    cases hm with
    | yield hl => exact .inl hl
    | sleep chan hl hf => exact .inl hl
    | kill pid hl hf => exact .inl hl
    | exit hl hf hi => exact .inl hl
    | wait hl hf => exact .inl hl
    | full => exact absurd hz' hsame
    | alloc np hl hf hnp => exact .inl hl
    | done np hl hf => exact .inl hl
    | fail np hf =>
      have he := h.forking.embryo p np (.inl hf)
      have hne : z ≠ np := by
        rintro rfl
        simp [hz] at he
      exact absurd ((Ptable.setFork_state hne).symm.trans hz') hsame
    | adopt np hf =>
      have he := h.forking.embryo p np (.inl hf)
      have hne : z ≠ np := by
        rintro rfl
        simp [hz] at he
      exact absurd ((Ptable.setFork_state hne).symm.trans hz') hsame

theorem Sched.not_uses_zombie (h : Sched s) (hst : Stepped s c a s')
    (hz : (s.pt.proc z).state = .zombie) (hz' : (s'.pt.proc z).state = .unused) (d : C) :
    ¬ s.Uses d z := by
  intro hu
  rcases (h.cpus d).uses hu with ⟨-, hr⟩ | ⟨hd, -⟩
  · simp [hz] at hr
  have hlock : s.lock = some d := by
    have := h.cpus d
    rw [hd] at this
    generalize hb : decide (s.lock = some d) = b at this
    cases this
    simpa using hb
  rcases hst.reaped h hz hz' with hl | ⟨hl, i, hc⟩
  · simp [hl] at hlock
  · obtain rfl : c = d := Option.some.inj (hl.symm.trans hlock)
    rw [hc] at hd
    simp [Cpu.scheduler, Cpu.on] at hd

theorem scheduler_exclusive (tr : List (C × Act)) :
    EveryState Kernel.step (boot C) (fun s => s.lock = none →
      (∀ p, (s.pt.proc p).state = .running ↔ ∃! c, (s.cpu c).proc = some p) ∧
      ∀ c p, (s.cpu c).proc = some p → (s.pt.proc p).state = .running) tr ∧
    EveryStep Kernel.step (boot C) (fun s l => ∀ s' z, s.step l = some s' →
      (s.pt.proc z).state = .zombie → (s'.pt.proc z).state = .unused →
      ∀ c, ¬ s.Uses c z ∧ ¬ s'.Uses c z) tr := by
  constructor
  · intro tr' s _ hrun hl
    have h := sched_run hrun
    have hown : ∀ c p, (s.cpu c).proc = some p → (s.pt.proc p).state = .running := by
      intro c p hp
      have := h.cpu_of_unlocked hl c
      generalize s.cpu c = x at this hp
      cases this with
      | idle => cases hp
      | run q hq =>
        cases hp
        exact hq
    refine ⟨fun p => ⟨fun hp => ?_, fun ⟨c, hc, _⟩ => hown c p hc⟩, hown⟩
    obtain ⟨c, hc⟩ := h.running p hp
    have hcp : (s.cpu c).proc = some p := by
      rw [hc]
      rfl
    exact ⟨c, hcp, fun d hd => h.only d c p hd hcp⟩
  · intro tr' l s _ hrun s' z hs hz hz' c
    have h := sched_run hrun
    refine ⟨h.not_uses_zombie (h.step_cases hs) hz hz' c, fun hu => ?_⟩
    rcases ((h.step hs).cpus c).uses hu with ⟨-, hr⟩ | ⟨-, hr⟩
    · simp [hz'] at hr
    · exact hr hz'

end Xv6.Procs
