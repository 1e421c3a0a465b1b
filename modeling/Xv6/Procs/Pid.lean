import Xv6.Procs.Kill

/-!
Process ids.

`allocproc` takes the next value of an `int` that wraps. The id of a
process is its number, counted from 1, cut to 32 bits; so ids are unique
as long as `allocproc` has not been successful more than 2^32 times. It
counts also for calls of `fork` that fail later.
-/

namespace Xv6.Procs

open Lib

namespace Ptable

variable {t u : Ptable} {p q : Slot}

def DistinctPids (t : Ptable) : Prop :=
  ∀ p q, (t.proc p).state ≠ .unused → (t.proc q).state ≠ .unused →
    (t.proc p).pid = (t.proc q).pid → p = q

structure Numbered (t : Ptable) : Prop where
  next : t.nextpid = Int32.ofNat (t.births + 1)
  pid : ∀ q, (t.proc q).state ≠ .unused → (t.proc q).pid = Int32.ofNat ((t.proc q).born + 1)

def KeepsId (x y : Proc) : Prop :=
  y.state ≠ .unused → x.state ≠ .unused ∧ y.pid = x.pid ∧ y.born = x.born

theorem Numbered.same (h : Numbered t) (hn : u.nextpid = t.nextpid) (hb : u.births = t.births)
    (hid : ∀ q, KeepsId (t.proc q) (u.proc q)) : Numbered u where
  next := by rw [hn, hb, h.next]
  pid q hq := by
    obtain ⟨hs, hp, hb⟩ := hid q hq
    rw [hp, hb, h.pid q hs]

theorem KeepsId.trans {x y z : Proc} (h : KeepsId x y) (h' : KeepsId y z) : KeepsId x z := by
  intro hz
  obtain ⟨hy, hp', hb'⟩ := h' hz
  obtain ⟨hx, hp, hb⟩ := h hy
  exact ⟨hx, hp'.trans hp, hb'.trans hb⟩

theorem KeepsId.set {x : Proc} (h : KeepsId (t.proc p) x) (q : Slot) :
    KeepsId (t.proc q) ((t.set p x).proc q) := by
  by_cases hq : q = p
  · subst hq
    rwa [set_self]
  · rw [set_of_ne hq]
    exact fun hs => ⟨hs, rfl, rfl⟩

theorem KeepsId.forkStep {np : Slot} {x : Proc} {f : Fork} (h : KeepsId (t.proc np) x) (q : Slot) :
    KeepsId (t.proc q) (((t.set np x).setFork p f).proc q) := by
  refine (KeepsId.set h q).trans ?_
  rw [setFork_proc]
  exact fun hs => ⟨hs, rfl, rfl⟩

theorem Numbered.alloc {np : Slot} (h : Numbered t) :
    Numbered ((t.allocproc p np).setFork p (.alloc np)) where
  next := by
    show t.nextpid + 1 = Int32.ofNat (t.births + 1 + 1)
    rw [h.next, Int32.ofNat_add (t.births + 1) 1]
    rfl
  pid q hq := by
    rw [setFork_proc] at hq ⊢
    change ((t.allocproc p np).proc q).pid = Int32.ofNat (((t.allocproc p np).proc q).born + 1)
    change ((t.allocproc p np).proc q).state ≠ .unused at hq
    by_cases hqn : q = np
    · subst hqn
      simp only [allocproc, record, Ptable.set, Function.update_self]
      exact h.next
    · have hsame : (t.allocproc p np).proc q = t.proc q := Function.update_of_ne hqn _ _
      rw [hsame] at hq ⊢
      exact h.pid q hq

theorem Numbered.change {ok : Ptable → Slot → Act → Prop} (h : Numbered t) (hfk : t.Forking)
    (hc : Change ok t u) : Numbered u := by
  cases hc with
  | tune p x hp hx hsame hwait =>
    refine h.same rfl rfl (.set fun _ => ⟨hp.ne.1, ?_⟩)
    rw [hsame]
    exact ⟨rfl, rfl⟩
  | wakeup chan =>
    refine h.same rfl rfl fun q hq => ?_
    rw [wakeup1_proc] at hq ⊢
    refine ⟨fun hs => hq ?_, rfl, rfl⟩
    simp [hs]
  | kill p pid hok =>
    have hrest := kill_rest t pid
    refine h.same (by rw [hrest]; rfl) (by rw [hrest]; rfl) fun q hq => ?_
    change ((t.kill pid).1.proc q).state ≠ .unused at hq
    change _ ∧ ((t.kill pid).1.proc q).pid = _ ∧ ((t.kill pid).1.proc q).born = _
    rw [kill_proc] at hq ⊢
    split at hq
    · refine ⟨fun hs => hq (by simp [hs]), ?_⟩
      split <;> exact ⟨rfl, rfl⟩
    · refine ⟨hq, ?_⟩
      split <;> exact ⟨rfl, rfl⟩
  | exit p hp hi hf =>
    have he := exited t hi.symm
    refine h.same he.nextpid he.births fun q hq => ⟨?_, ?_⟩
    · by_cases hqp : q = p
      · subst hqp
        exact hp.ne.1
      · rcases he.state q hqp with hs | ⟨hs, -⟩
        · rwa [← hs]
        · simp [hs]
    · rw [he.rest q]
      exact ⟨rfl, rfl⟩
  | reap p z hp hz => exact h.same rfl rfl (.set fun hs => absurd rfl hs)
  | alloc p np hp hf hnp => exact h.alloc
  | fail p np hf hok => exact h.same rfl rfl (.forkStep fun hs => absurd rfl hs)
  | adopt p np hf => exact h.same rfl rfl (.forkStep fun hs => ⟨hs, rfl, rfl⟩)
  | done p np hf =>
    refine h.same rfl rfl (.forkStep fun _ => ⟨?_, rfl, rfl⟩)
    rw [hfk.embryo p np (.inr hf)]
    decide

theorem Numbered.distinct (h : Numbered t) (hh : t.History) (hb : t.births ≤ 2 ^ 32) :
    t.DistinctPids := by
  intro p q hp hq heq
  refine hh.once p q hp hq ?_
  have hbp := hh.born p hp
  have hbq := hh.born q hq
  rw [h.pid p hp, h.pid q hq] at heq
  have hmod : ((t.proc p).born + 1) % 2 ^ 32 = ((t.proc q).born + 1) % 2 ^ 32 := by
    simpa using congrArg (fun x : Int32 => x.toBitVec.toNat) heq
  omega

end Ptable

variable {C : Type}

theorem numbered_boot : (boot C).pt.Numbered where
  next := rfl
  pid q hq := by
    obtain rfl : q = 0 := boot_present hq
    rfl

variable [DecidableEq C] {s s' : Kernel C}

@[simp] theorem waitLoop_births (s : Kernel C) (c : C) (p : Slot) (t : Ptable) :
    (s.waitLoop c p t).pt.births = t.births := by
  unfold Kernel.waitLoop
  cases t.zombieChild p with
  | some z => rfl
  | none =>
    dsimp only
    split <;> rfl

@[simp] theorem look_births (s : Kernel C) (c : C) (i : ℕ) :
    (s.look c i).pt.births = s.pt.births := by
  unfold Kernel.look
  split
  · split
    · unfold Kernel.dispatch
      dsimp only
      split
      · rfl
      · rfl
      · rfl
      · rw [waitLoop_births]
        rfl
    · rfl
  · rfl

theorem Sched.births_step (h : Sched s) {l : C × Act} (hs : s.step l = some s') :
    s'.pt.births = s.pt.births ∨ l.2 = .alloc ∧ s'.pt.births = s.pt.births + 1 := by
  obtain ⟨c, a⟩ := l
  have hst : Stepped s c a s' := h.step_cases hs
  cases hst with
  | acquire | swtch | wakeup => exact .inl rfl
  | look i => exact .inl (look_births ..)
  | run p a s' hc hp hm =>
    cases hm with
    | kill pid =>
      left
      show (s.pt.kill pid).1.births = s.pt.births
      rw [Ptable.kill_rest]
    | exit hl hf hi => exact .inl (Ptable.exited s.pt hi.symm).births
    | wait => exact .inl (waitLoop_births ..)
    | alloc np => exact .inr ⟨rfl, rfl⟩
    | _ => exact .inl rfl

def PidsLeft (s : Kernel C) (l : C × Act) : Prop := l.2 = .alloc → s.pt.births < 2 ^ 32

instance (s : Kernel C) (l : C × Act) : Decidable (PidsLeft s l) :=
  inferInstanceAs (Decidable (l.2 = .alloc → s.pt.births < 2 ^ 32))

theorem pids_distinct (tr : List (C × Act))
    (hok : EveryStep Kernel.step (boot C) PidsLeft tr) :
    EveryState Kernel.step (boot C) (fun s => s.pt.DistinctPids) tr := by
  intro tr' s hpre hrun
  have htable : s.pt.Numbered ∧ s.pt.Family ∧ s.pt.History := by
    refine table_invariant (I := fun t => t.Numbered ∧ t.Family ∧ t.History)
      ⟨numbered_boot, family_boot, history_boot⟩ ?_ hrun
    rintro t u hfk hc ⟨hn, hf, hh⟩
    exact ⟨hn.change hfk hc, hf.change hfk hc, hh.change hfk hf hc⟩
  have hfew : Sched s ∧ s.pt.births ≤ 2 ^ 32 := by
    refine exec_guarded (fun s => Sched s ∧ s.pt.births ≤ 2 ^ 32) ⟨sched_boot, ?_⟩ ?_ hrun
      (hok.of_prefix hpre)
    · show 1 ≤ 2 ^ 32
      omega
    rintro t l u ⟨ht, hb⟩ hleft hstep
    refine ⟨ht.step hstep, ?_⟩
    rcases ht.births_step hstep with hu | ⟨hl, hu⟩
    · rwa [hu]
    · have := hleft hl
      omega
  exact htable.1.distinct htable.2.2 hfew.2

theorem pids_distinct_forks :
    EveryState Kernel.step (boot Bool) (fun s => s.pt.DistinctPids)
      (initRun [.alloc, .adopt, .done, .alloc, .fail]) :=
  pids_distinct _ (.of_check (g := fun s l => decide (PidsLeft s l))
    (fun _ _ h => of_decide_eq_true h) (by decide +kernel))

/-! ### Ids wrap -/

section
variable {p np : Slot} {c : C} (hc : s.cpu c = .on p .run)
include hc

theorem step_fail (hf : (s.pt.proc p).fork = .alloc np) :
    s.step (c, .fail) = some { s with pt := (s.pt.forkFail np).setFork p .no } := by
  simp [Kernel.step, hc, Cpu.on, Kernel.runStep, Kernel.store, hf]

theorem step_adopt (hf : (s.pt.proc p).fork = .alloc np) :
    s.step (c, .adopt) = some { s with pt := (s.pt.adopt p np).setFork p (.adopted np) } := by
  simp [Kernel.step, hc, Cpu.on, Kernel.runStep, Kernel.store, hf]

theorem step_done (hl : s.lock = none) (hf : (s.pt.proc p).fork = .adopted np) :
    s.step (c, .done) = some { s with pt := (s.pt.forkDone np).setFork p .no } := by
  simp [Kernel.step, hc, Cpu.on, Kernel.runStep, Kernel.finish, hl, hf]

end

structure OnlyInit (n : ℕ) (s : Kernel Bool) : Prop where
  lock : s.lock = none
  cpu : s.cpu false = .on 0 .run
  init : s.pt.proc 0 = { Proc.zero with state := .running, pid := 1 }
  unused : ∀ q, q ≠ 0 → (s.pt.proc q).state = .unused
  next : s.pt.nextpid = Int32.ofNat n

namespace OnlyInit

variable {n : ℕ} {s : Kernel Bool} (h : OnlyInit n s)
include h

theorem alloc : ∃ np ≠ 0, s.step (false, .alloc) =
    some { s with pt := (s.pt.allocproc 0 np).setFork 0 (.alloc np) } := by
  cases hnp : s.pt.findUnused with
  | none =>
    have hno := List.find?_eq_none.1 hnp 1 (List.mem_finRange 1)
    simp [h.unused 1 (by decide)] at hno
  | some np =>
    refine ⟨np, ?_, ?_⟩
    · rintro rfl
      have hun := Ptable.findUnused_some hnp
      rw [h.init] at hun
      cases hun
    · have hcall := Kernel.call_alloc false 0 hnp
      simp [Kernel.step, h.cpu, Cpu.on, Kernel.runStep, h.lock, h.init, Proc.zero, hcall]

theorem failedFork :
    ∃ s', exec Kernel.step s [(false, .alloc), (false, .fail)] = some s' ∧
      OnlyInit (n + 1) s' := by
  obtain ⟨np, hnp, hstep⟩ := h.alloc
  refine ⟨{ s with pt :=
    ((((s.pt.allocproc 0 np).setFork 0 (.alloc np)).forkFail np).setFork 0 .no) }, ?_, ?_⟩
  · refine (exec_cons hstep _).trans ?_
    exact exec_cons (step_fail (by exact h.cpu) (by simp [Ptable.setFork])) []
  refine ⟨h.lock, h.cpu, ?_, fun q hq => ?_, ?_⟩
  · simp [Ptable.setFork, Ptable.forkFail, Ptable.allocproc, Ptable.record, Ptable.set, hnp.symm,
      h.init, Proc.zero]
  · by_cases hqn : q = np
    · subst hqn
      simp [Ptable.setFork, Ptable.forkFail, Ptable.set, hq]
    · simp [Ptable.setFork, Ptable.forkFail, Ptable.allocproc, Ptable.record, Ptable.set, hq, hqn,
        h.unused q hq]
  · show s.pt.nextpid + 1 = Int32.ofNat (n + 1)
    rw [h.next, Int32.ofNat_add n 1]
    rfl

theorem failedForks (m : ℕ) :
    ∃ s', exec Kernel.step s (List.replicate m [(false, .alloc), (false, .fail)]).flatten =
      some s' ∧ OnlyInit (n + m) s' := by
  induction m generalizing n s with
  | zero => exact ⟨s, rfl, h⟩
  | succ m ih =>
    obtain ⟨t, ht, hnext⟩ := h.failedFork
    obtain ⟨u, hu, hlast⟩ := ih hnext
    refine ⟨u, ?_, by rwa [Nat.add_assoc, Nat.add_comm 1 m] at hlast⟩
    rw [List.replicate_succ, List.flatten_cons, exec_append, ht, Option.bind_some, hu]

theorem fork :
    ∃ s', exec Kernel.step s [(false, .alloc), (false, .adopt), (false, .done)] = some s' ∧
      (s'.pt.proc 0).pid = 1 ∧ (s'.pt.proc 0).state = .running ∧
      ∃ np ≠ 0, (s'.pt.proc np).pid = Int32.ofNat n ∧ (s'.pt.proc np).state = .runnable := by
  obtain ⟨np, hnp, hstep⟩ := h.alloc
  refine ⟨{ s with pt := (((((s.pt.allocproc 0 np).setFork 0 (.alloc np)).adopt 0 np).setFork 0
    (.adopted np)).forkDone np).setFork 0 .no }, ?_, ?_, ?_, np, hnp, ?_, ?_⟩
  · refine (exec_cons hstep _).trans ?_
    have hfork : ((s.pt.allocproc 0 np).setFork 0 (.alloc np)).proc 0 = _ := Ptable.set_self
    refine (exec_cons (step_adopt (by exact h.cpu) (congrArg Proc.fork hfork)) _).trans ?_
    exact exec_cons (step_done (by exact h.cpu) (by exact h.lock) (by simp [Ptable.setFork])) []
  all_goals
    simp [Ptable.setFork, Ptable.forkDone, Ptable.adopt, Ptable.allocproc, Ptable.record,
      Ptable.set, hnp, hnp.symm, h.init, h.next, Proc.zero]

end OnlyInit

def wrapRun : List (Bool × Act) :=
  initRun [] ++ (List.replicate (2 ^ 32 - 1) [(false, .alloc), (false, .fail)]).flatten ++
    [(false, .alloc), (false, .adopt), (false, .done)]

theorem pids_wrap : ∃ s, exec Kernel.step (boot Bool) wrapRun = some s ∧
    ¬ s.pt.DistinctPids := by
  have hinit : ∃ s, exec Kernel.step (boot Bool) (initRun []) = some s ∧ OnlyInit 2 s := by
    refine ⟨_, rfl, ⟨rfl, rfl, rfl, fun q hq => ?_, rfl⟩⟩
    revert q
    decide +kernel
  obtain ⟨s, hs, h2⟩ := hinit
  obtain ⟨t, ht, h1⟩ := h2.failedForks (2 ^ 32 - 1)
  obtain ⟨u, hu, hpid, hrun, np, hnp, hpid', hrun'⟩ := h1.fork
  refine ⟨u, ?_, fun hd => hnp (hd np 0 (by simp [hrun']) (by simp [hrun]) ?_)⟩
  · rw [wrapRun, exec_append, exec_append, hs, Option.bind_some, ht, Option.bind_some, hu]
  · rw [hpid, hpid']
    rfl

end Xv6.Procs
