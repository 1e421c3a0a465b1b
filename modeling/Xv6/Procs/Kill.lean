import Xv6.Procs.Family

/-!
Who is killed.

`kill` looks for a process id in all slots of the table, used or not, and
`allocproc` does not reset `killed`. A mark can be left on a slot that is
not in use in two ways. `kill` can be called with the id of an unused slot:
0, or the id of a child whose `fork` has failed. Or `fork` fails when its
child has already been killed. The next process in that slot is then
killed at birth. If neither happens, marks are where `kill` put them.
-/

namespace Xv6.Procs

open Lib

def KilledSince (log : List Event) (b : ℕ) (pid : Int32) : Prop :=
  ∃ l₁ l₂ f, log = l₁ ++ .alloc f b pid :: l₂ ∧ .kill pid ∈ l₁

variable {pid : Int32}

theorem KilledSince.append {log : List Event} {b : ℕ} (h : KilledSince log b pid)
    (e : List Event) : KilledSince (e ++ log) b pid := by
  obtain ⟨l1, l2, f, rfl, hk⟩ := h
  exact ⟨e ++ l1, l2, f, by simp, List.mem_append_right e hk⟩

theorem KilledSince.of_mem {log : List Event} {f b : ℕ}
    (h : .alloc f b pid ∈ log) : KilledSince (.kill pid :: log) b pid := by
  obtain ⟨l1, l2, rfl⟩ := List.append_of_mem h
  exact ⟨.kill pid :: l1, l2, f, rfl, List.mem_cons_self ..⟩

namespace Ptable

variable {t u : Ptable} {p q np : Slot}

def Spares (t : Ptable) (p : Slot) : Act → Prop
  | .kill pid => ∀ q, (t.proc q).state = .unused → (t.proc q).pid ≠ pid
  | .fail => ∀ np, (t.proc p).fork = .alloc np → (t.proc np).killed = false
  | _ => True

instance (t : Ptable) (p : Slot) : (a : Act) → Decidable (t.Spares p a)
  | .kill pid =>
    inferInstanceAs (Decidable (∀ q, (t.proc q).state = .unused → (t.proc q).pid ≠ pid))
  | .fail =>
    inferInstanceAs (Decidable (∀ np, (t.proc p).fork = .alloc np → (t.proc np).killed = false))
  | .acquire | .look | .swtch | .yield | .sleep _ | .wakeup _ | .exit | .wait | .alloc | .adopt
  | .done => .isTrue trivial

def Known (log : List Event) (x : Proc) : Prop :=
  (∃ f, .alloc f x.born x.pid ∈ log) ∧ (x.killed = true → KilledSince log x.born x.pid)

theorem Known.append {log : List Event} {x : Proc} (h : Known log x) (e : List Event) :
    Known (e ++ log) x := by
  obtain ⟨⟨f, hf⟩, hk⟩ := h
  exact ⟨⟨f, List.mem_append_right e hf⟩, fun hx => (hk hx).append e⟩

structure Marks (t : Ptable) : Prop where
  clean : ∀ q, (t.proc q).state = .unused → (t.proc q).killed = false
  known : ∀ q, q ≠ t.initproc → (t.proc q).state ≠ .unused → Known t.log (t.proc q)

inductive Fate (t : Ptable) (log : List Event) (q : Slot) (x : Proc) : Prop
  | clean (hs : x.state = .unused) (hk : x.killed = false)
  | kept (ht : (t.proc q).state ≠ .unused) (hs : x.state ≠ .unused)
      (hb : x.born = (t.proc q).born) (hp : x.pid = (t.proc q).pid)
      (hk : x.killed = (t.proc q).killed)
  | known (hs : x.state ≠ .unused) (hx : q ≠ t.initproc → Known log x)

namespace Marks

variable (h : Marks t)
include h

theorem of_fates {e : List Event} (hi : u.initproc = t.initproc)
    (hlog : u.log = e ++ t.log) (hq : ∀ q, Fate t u.log q (u.proc q)) : Marks u := by
  refine ⟨fun q hun => ?_, fun q hne hun => ?_⟩
  · cases hq q with
    | clean _ hk => exact hk
    | kept _ hs => exact absurd hun hs
    | known hs _ => exact absurd hun hs
  rw [hi] at hne
  cases hq q with
  | clean hs _ => exact absurd hs hun
  | kept ht _ hb hp hk =>
    have hx := (h.known q hne ht).append e
    rw [Known, hb, hp, hk, hlog]
    exact hx
  | known _ hx => exact hx hne

theorem fate {log : List Event} {x : Proc}
    (hs : x.state = .unused ↔ (t.proc q).state = .unused) (hb : x.born = (t.proc q).born)
    (hp : x.pid = (t.proc q).pid) (hk : x.killed = (t.proc q).killed) : Fate t log q x := by
  by_cases hun : (t.proc q).state = .unused
  · exact .clean (hs.2 hun) (hk.trans (h.clean q hun))
  · exact .kept hun (fun hu => hun (hs.1 hu)) hb hp hk

theorem fate_refl {log : List Event} (q : Slot) : Fate t log q (t.proc q) :=
  h.fate Iff.rfl rfl rfl rfl

theorem goOn {e : List Event} {f : Fork} {x : Proc}
    (hi : u.initproc = t.initproc) (hlog : u.log = e ++ t.log)
    (hproc : u.proc = ((t.set np x).setFork p f).proc) (hx : Fate t u.log np x) : Marks u := by
  have hfork : ∀ {q y g}, Fate t u.log q y → Fate t u.log q { y with fork := g } := by
    intro q y g hy
    cases hy with
    | clean hs hk => exact .clean hs hk
    | kept ht hs hb hp hk => exact .kept ht hs hb hp hk
    | known hs hx => exact .known hs hx
  refine h.of_fates hi hlog fun q => ?_
  rw [hproc, forkStep_proc]
  refine hfork ?_
  by_cases hq : q = np
  · subst hq
    rwa [if_pos rfl]
  · rw [if_neg hq]
    exact h.fate_refl q

theorem kill {pid : Int32} (hok : ∀ q, (t.proc q).state = .unused →
    (t.proc q).pid ≠ pid) : Marks ((t.kill pid).1.record (.kill pid)) := by
  have hlog : ((t.kill pid).1.record (.kill pid)).log = [.kill pid] ++ t.log := by
    show .kill pid :: (t.kill pid).1.log = _
    rw [kill_rest]
    rfl
  refine h.of_fates ?_ hlog fun q => ?_
  · show (t.kill pid).1.initproc = t.initproc
    rw [kill_rest]
  show Fate t _ q ((t.kill pid).1.proc q)
  rw [hlog, kill_proc]
  by_cases hf : t.findPid pid = some q
  · have hpid : (t.proc q).pid = pid := findPid_some hf
    have hun : (t.proc q).state ≠ .unused := fun hun => hok q hun hpid
    rw [if_pos hf]
    refine .known ?_ fun hne => ?_
    · dsimp only
      split
      · simp
      · exact hun
    · obtain ⟨⟨f, hfl⟩, -⟩ := h.known q hne hun
      refine ⟨⟨f, List.mem_cons_of_mem _ hfl⟩, fun _ => ?_⟩
      subst hpid
      exact .of_mem hfl
  · rw [if_neg hf]
    exact h.fate_refl q

theorem reap {z : Slot} : Marks (t.reap p z) := by
  refine h.of_fates (e := [_]) rfl rfl fun q => ?_
  by_cases hq : q = z
  · subst hq
    have hself : (t.reap p q).proc q =
        { t.proc q with state := .unused, pid := 0, parent := none, killed := false } := set_self
    rw [hself]
    exact .clean rfl rfl
  · have hof : (t.reap p z).proc q = t.proc q := set_of_ne hq
    rw [hof]
    exact h.fate_refl q

theorem change (hfk : t.Forking) (hc : Change Spares t u) : Marks u := by
  cases hc with
  | tune p x hp hx hsame hwait =>
    refine h.of_fates (e := []) rfl rfl fun q => ?_
    by_cases hq : q = p
    · subst hq
      rw [set_self]
      refine .kept hp.ne.1 hx.ne.1 ?_ ?_ ?_ <;> rw [hsame]
    · rw [set_of_ne hq]
      exact h.fate_refl q
  | wakeup chan =>
    refine h.of_fates (e := []) rfl rfl fun q => ?_
    rw [wakeup1_proc]
    refine h.fate ?_ rfl rfl rfl
    dsimp only
    split
    · rename_i hq
      simp [hq.1]
    · rfl
  | kill p pid hok => exact h.kill hok
  | exit p hp hi hf =>
    have he := exited t (.symm hi)
    refine h.of_fates (e := [_]) he.initproc he.log fun q => ?_
    refine h.fate ?_ (by rw [he.rest q]) (by rw [he.rest q]) (by rw [he.rest q])
    by_cases hq : q = p
    · subst hq
      exact iff_of_false (by simp [he.self]) hp.ne.1
    · rcases he.state q hq with hs | ⟨hs, hs'⟩
      · rw [hs]
      · simp [hs, hs']
  | reap p z hp hz => exact h.reap
  | alloc p np hp hf hnp =>
    have hclean := h.clean np (findUnused_some hnp)
    refine h.goOn (e := [_]) rfl rfl rfl (.known (by simp) fun _ => ⟨?_, fun hk => ?_⟩)
    · exact ⟨_, List.mem_cons_self ..⟩
    · exact absurd hk (by simp [hclean])
  | fail p np hf hok => exact h.goOn (e := []) rfl rfl rfl (.clean rfl (hok np hf))
  | adopt p np hf => exact h.goOn (e := []) rfl rfl rfl (h.fate Iff.rfl rfl rfl rfl)
  | done p np hf =>
    have he := hfk.embryo p np (.inr hf)
    exact h.goOn (e := []) rfl rfl rfl (h.fate (by simp [he]) rfl rfl rfl)

end Marks

theorem Change.initproc {ok : Ptable → Slot → Act → Prop} (hc : Change ok t u) :
    u.initproc = t.initproc := by
  cases hc with
  | kill p pid _ =>
    show (t.kill pid).1.initproc = t.initproc
    rw [kill_rest]
  | exit p hp hi hf => exact (exited t (.symm hi)).initproc
  | _ => rfl

theorem findPid_none {pid : Int32} (h : t.findPid pid = none) (q : Slot) :
    (t.proc q).pid ≠ pid := by
  simpa using List.find?_eq_none.1 h q (List.mem_finRange q)

theorem kill_eq_zero {pid : Int32} : (t.kill pid).2 = 0 ↔ ∃ q, t.findPid pid = some q := by
  unfold kill
  cases t.findPid pid with
  | none => simp
  | some q => simp

end Ptable

variable {C : Type}

def KillsOnly (pid : Int32) (t u : Ptable) : Prop :=
  ((t.kill pid).2 = 0 ↔ ∃ q, (t.proc q).state ≠ .unused ∧ (t.proc q).pid = pid) ∧
  ((t.kill pid).2 = 0 → ∃ q, (t.proc q).state ≠ .unused ∧ (t.proc q).pid = pid ∧
    (u.proc q).killed = true ∧ ∀ r, r ≠ q → (u.proc r).killed = (t.proc r).killed)

def BornFree (t u : Ptable) : Prop :=
  ∀ np, (t.proc np).state = .embryo → (u.proc np).state = .runnable →
    (u.proc np).killed = true → KilledSince u.log (u.proc np).born (u.proc np).pid

theorem marks_boot : (boot C).pt.Marks where
  clean q _ := by
    rw [boot_proc]
    rfl
  known q hq hs := absurd (boot_present hs) hq

variable [DecidableEq C]

def KillsNamed (s : Kernel C) (l : C × Act) : Prop :=
  ∀ s', s.step l = some s' →
    (∀ pid, l.2 = .kill pid → KillsOnly pid s.pt s'.pt) ∧ BornFree s.pt s'.pt

def SparesUnused (s : Kernel C) (l : C × Act) : Prop :=
  ∀ p, (s.cpu l.1).proc = some p → s.pt.Spares p l.2

instance (s : Kernel C) (l : C × Act) : Decidable (SparesUnused s l) :=
  inferInstanceAs (Decidable (∀ p, (s.cpu l.1).proc = some p → s.pt.Spares p l.2))

theorem marks_run {s : Kernel C} {tr : List (C × Act)}
    (hok : EveryStep Kernel.step (boot C) SparesUnused tr)
    (h : exec Kernel.step (boot C) tr = some s) : s.pt.Marks ∧ s.pt.Family ∧ s.pt.initproc = 0 := by
  refine table_run (I := fun t => t.Marks ∧ t.Family ∧ t.initproc = 0)
    ⟨marks_boot, family_boot, rfl⟩ ?_ hok h
  rintro t u hfk hc ⟨hm, hf, hi⟩
  exact ⟨hm.change hfk hc, hf.change hfk hc, hc.initproc.trans hi⟩

theorem killsOnly {t : Ptable} (hok : ∀ q, (t.proc q).state = .unused → (t.proc q).pid ≠ pid) :
    KillsOnly pid t ((t.kill pid).1.record (.kill pid)) := by
  have hfound : ∀ q, t.findPid pid = some q → (t.proc q).state ≠ .unused ∧ (t.proc q).pid = pid :=
    fun q hq => ⟨fun hun => hok q hun (Ptable.findPid_some hq), Ptable.findPid_some hq⟩
  refine ⟨Ptable.kill_eq_zero.trans ⟨fun ⟨q, hq⟩ => ⟨q, hfound q hq⟩, fun ⟨q, _, hq⟩ => ?_⟩,
    fun h0 => ?_⟩
  · cases hf : t.findPid pid with
    | none => exact absurd hq (Ptable.findPid_none hf q)
    | some r => exact ⟨r, rfl⟩
  obtain ⟨q, hq⟩ := Ptable.kill_eq_zero.1 h0
  refine ⟨q, (hfound q hq).1, (hfound q hq).2, ?_, fun r hr => ?_⟩
  · show ((t.kill pid).1.proc q).killed = true
    rw [Ptable.kill_proc, if_pos hq]
  · show ((t.kill pid).1.proc r).killed = (t.proc r).killed
    rw [Ptable.kill_proc, if_neg]
    rw [hq]
    exact fun he => hr (Option.some.inj he).symm

theorem kill_affects_named (tr : List (C × Act))
    (hok : EveryStep Kernel.step (boot C) SparesUnused tr) :
    EveryStep Kernel.step (boot C) KillsNamed tr := by
  intro tr' l s hpre hrun s' hs
  have hrun' := exec_concat hrun hs
  obtain ⟨-, hfam, hinit⟩ := marks_run (hok.of_prefix ((List.prefix_append _ _).trans hpre)) hrun
  obtain ⟨hmarks', -, hinit'⟩ := marks_run (hok.of_prefix hpre) hrun'
  refine ⟨fun pid hl => ?_, fun np hnp hrunnable hk => ?_⟩
  · have hst := (sched_run hrun).step_cases hs
    have hsp := hok tr' l s hpre hrun
    rw [hl] at hst
    cases hst with
    | run p a s' hc hp hm =>
      have hsp := hsp p (by rw [hc]; rfl)
      rw [hl] at hsp
      cases hm
      exact killsOnly hsp
  · have hne : np ≠ s.pt.initproc := by
      rintro rfl
      exact hfam.init.ne.2.1 hnp
    rw [hinit, ← hinit'] at hne
    exact (hmarks'.known np hne (by simp [hrunnable])).2 hk

def initRun (acts : List Act) : List (Bool × Act) :=
  [(false, .acquire), (false, .look)] ++ acts.map (false, ·)

theorem kill_affects_named_child :
    EveryStep Kernel.step (boot Bool) KillsNamed (initRun [.alloc, .adopt, .done, .kill 2]) :=
  kill_affects_named _ (.of_check (g := fun s l => decide (SparesUnused s l))
    (fun _ _ h => of_decide_eq_true h) (by decide +kernel))

def killZeroRun : List (Bool × Act) := initRun [.kill 0, .alloc, .adopt, .done]

def failedForkRun : List (Bool × Act) :=
  initRun [.alloc, .adopt, .done] ++ [(true, .acquire), (true, .look), (true, .look),
    (false, .alloc), (true, .kill 3), (false, .fail), (false, .alloc), (false, .adopt),
    (false, .done)]

theorem not_killsNamed (tr : List (Bool × Act)) (l : Bool × Act)
    (h : (exec Kernel.step (boot Bool) tr).any (fun s => (s.step l).any fun s' =>
      decide (∃ np, (s.pt.proc np).state = .embryo ∧ (s'.pt.proc np).state = .runnable ∧
        (s'.pt.proc np).killed = true ∧ .kill (s'.pt.proc np).pid ∉ s'.pt.log)) = true) :
    ¬ EveryStep Kernel.step (boot Bool) KillsNamed (tr ++ [l]) := by
  intro hall
  obtain ⟨s, hs, h⟩ := (Option.any_eq_true _ _).1 h
  obtain ⟨s', hs', h⟩ := (Option.any_eq_true _ _).1 h
  obtain ⟨np, he, hr, hk, hno⟩ := of_decide_eq_true h
  obtain ⟨l1, l2, f, hlog, hmem⟩ := (hall tr l s (List.prefix_refl _) hs s' hs').2 np he hr hk
  rw [hlog] at hno
  exact hno (List.mem_append_left _ hmem)

theorem kill_affects_unnamed :
    (∃ s, exec Kernel.step (boot Bool) (initRun []) = some s ∧ (s.pt.kill 0).2 = 0 ∧
      ¬ ∃ q, (s.pt.proc q).state ≠ .unused ∧ (s.pt.proc q).pid = 0) ∧
    ¬ EveryStep Kernel.step (boot Bool) KillsNamed killZeroRun ∧
    ¬ EveryStep Kernel.step (boot Bool) KillsNamed failedForkRun := by
  refine ⟨exec_exists _ _ _ _ (by decide +kernel), ?_, ?_⟩
  · exact not_killsNamed (initRun [.kill 0, .alloc, .adopt]) (false, .done) (by decide +kernel)
  · exact not_killsNamed failedForkRun.dropLast (false, .done) (by decide +kernel)

end Xv6.Procs
