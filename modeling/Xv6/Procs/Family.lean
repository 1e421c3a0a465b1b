import Xv6.Procs.Scheduling

namespace Xv6.Procs

open Lib

def Proc.Present (x : Proc) : Prop := x.Live ∨ x.state = .zombie

namespace Ptable

variable {t u : Ptable} {p q np : Slot} {x : Proc} {f : Fork} {ok : Ptable → Slot → Act → Prop}

structure Family (t : Ptable) : Prop where
  init : (t.proc t.initproc).Live
  initParent : (t.proc t.initproc).parent = none
  parents : ∀ q, q ≠ t.initproc → (t.proc q).Present →
    ∃ r, (t.proc q).parent = some r ∧ (t.proc r).Live
  noSelf : ∀ q, (t.proc q).parent ≠ some q
  adopted : ∀ p np, (t.proc p).fork = .adopted np → (t.proc np).parent = some p
  asleep : ∀ p z, (t.proc p).state = .sleeping → (t.proc p).chan = some (.proc p) →
    (t.proc z).parent = some p → (t.proc z).state ≠ .zombie

theorem forkStep_proc (q : Slot) : ((t.set np x).setFork p f).proc q =
    { (if q = np then x else t.proc q) with
      fork := if q = p then f else (if q = np then x else t.proc q).fork } := by
  rw [setFork_proc]
  by_cases h : q = np
  · subst h
    simp
  · simp [set_of_ne h, h]

namespace Family

variable (h : Family t)
include h

theorem congr (hp : u.proc = t.proc) (hi : u.initproc = t.initproc) : Family u := by
  obtain ⟨h1, h2, h3, h4, h5, h6⟩ := h
  rw [← hi, ← hp] at h1 h2
  rw [← hi] at h3
  rw [← hp] at h3 h4 h5 h6
  exact ⟨h1, h2, h3, h4, h5, h6⟩

theorem same (hi : u.initproc = t.initproc)
    (hparent : ∀ q, (u.proc q).parent = (t.proc q).parent)
    (hfork : ∀ q, (u.proc q).fork = (t.proc q).fork)
    (hlive : ∀ q, (u.proc q).Live ↔ (t.proc q).Live)
    (hzombie : ∀ q, (u.proc q).state = .zombie ↔ (t.proc q).state = .zombie)
    (hasleep : ∀ p z, (u.proc p).state = .sleeping → (u.proc p).chan = some (.proc p) →
      (t.proc z).parent = some p → (t.proc z).state ≠ .zombie) : Family u where
  init := by rw [hi, hlive]; exact h.init
  initParent := by rw [hi, hparent]; exact h.initParent
  parents q hq hp := by
    rw [hi] at hq
    obtain ⟨r, hr, hl⟩ := h.parents q hq (hp.imp (hlive q).1 (hzombie q).1)
    exact ⟨r, by rwa [hparent], (hlive r).2 hl⟩
  noSelf q := by rw [hparent]; exact h.noSelf q
  adopted p np hf := by
    rw [hfork] at hf
    rw [hparent]
    exact h.adopted p np hf
  asleep p z hs hc hz hzz := by
    rw [hparent] at hz
    exact hasleep p z hs hc hz ((hzombie z).1 hzz)

theorem goOn (hnp : ¬(t.proc np).Present) (hp : (t.proc p).Live)
    (hx : x.state = .unused ∨ x.state = .embryo ∨
      x.state = .runnable ∧ x.parent = some p)
    (hparent : x.parent = (t.proc np).parent ∨ x.parent = some p)
    (hxf : x.fork = (t.proc np).fork)
    (hf : ∀ m, f = .adopted m → m = np ∧ x.parent = some p)
    (hothers : ∀ q, q ≠ p → ¬(t.proc q).Claims np) (hnpf : (t.proc np).fork = .no) :
    Family ((t.set np x).setFork p f) := by
  have hpn : p ≠ np := by
    rintro rfl
    exact hnp (.inl hp)
  have hin : t.initproc ≠ np := by
    rintro rfl
    exact hnp (.inl h.init)
  have hof : ∀ q, q ≠ np → ((t.set np x).setFork p f).proc q =
      { t.proc q with fork := if q = p then f else (t.proc q).fork } := by
    intro q hq
    rw [forkStep_proc, if_neg hq]
  have hlive : ∀ q, (t.proc q).Live → (((t.set np x).setFork p f).proc q).Live := by
    intro q hq
    have hqn : q ≠ np := by
      rintro rfl
      exact hnp (.inl hq)
    rw [hof q hqn]
    exact hq
  have hself : (((t.set np x).setFork p f).proc np).state = x.state ∧
      (((t.set np x).setFork p f).proc np).parent = x.parent ∧
      (((t.set np x).setFork p f).proc np).fork = .no := by
    rw [forkStep_proc]
    simp [Ne.symm hpn, hxf, hnpf]
  have hxz : x.state ≠ .zombie := by
    rcases hx with hx | hx | ⟨hx, -⟩ <;> simp [hx]
  have hxs : x.state ≠ .sleeping := by
    rcases hx with hx | hx | ⟨hx, -⟩ <;> simp [hx]
  refine ⟨hlive _ h.init, ?_, fun q hq hpr => ?_, fun q => ?_, fun q m hq => ?_,
    fun q z hs hc hz => ?_⟩
  · show (((t.set np x).setFork p f).proc t.initproc).parent = none
    rw [hof _ hin]
    exact h.initParent
  · by_cases hqn : q = np
    · subst hqn
      rcases hx with hx | hx | ⟨-, hxp⟩
      · rcases hpr with hl | hz
        · exact absurd (hself.1.trans hx) hl.ne.1
        · rw [hself.1, hx] at hz
          cases hz
      · rcases hpr with hl | hz
        · exact absurd (hself.1.trans hx) hl.ne.2.1
        · rw [hself.1, hx] at hz
          cases hz
      · exact ⟨p, by rw [hself.2.1, hxp], hlive p hp⟩
    · rw [hof q hqn] at hpr ⊢
      obtain ⟨r, hr, hl⟩ := h.parents q hq hpr
      exact ⟨r, hr, hlive r hl⟩
  · by_cases hqn : q = np
    · subst hqn
      rw [hself.2.1]
      rcases hparent with hxp | hxp
      · rw [hxp]
        exact h.noSelf q
      · rw [hxp]
        exact fun he => hpn (Option.some.inj he)
    · rw [hof q hqn]
      exact h.noSelf q
  · by_cases hqn : q = np
    · subst hqn
      rw [hself.2.2] at hq
      cases hq
    rw [hof q hqn] at hq
    by_cases hqp : q = p
    · subst hqp
      obtain ⟨rfl, hxp⟩ := hf m (by simpa using hq)
      rw [hself.2.1, hxp]
    have hq : (t.proc q).fork = .adopted m := by simpa [hqp] using hq
    have hmn : m ≠ np := by
      rintro rfl
      exact hothers q hqp (.inr hq)
    rw [hof m hmn]
    exact h.adopted q m hq
  · by_cases hzn : z = np
    · rw [hzn, hself.1]
      exact hxz
    have hqn : q ≠ np := by
      rintro rfl
      exact hxs (hself.1.symm.trans hs)
    rw [hof q hqn] at hs hc
    rw [hof z hzn] at hz ⊢
    exact h.asleep q z hs hc hz

theorem claimed (hfk : t.Forking) (hc : (t.proc p).Claims np)
    (hx : x.state = .unused ∨ x.state = .embryo ∨
      x.state = .runnable ∧ x.parent = some p)
    (hparent : x.parent = (t.proc np).parent ∨ x.parent = some p)
    (hxf : x.fork = (t.proc np).fork)
    (hf : ∀ m, f = .adopted m → m = np ∧ x.parent = some p) :
    Family ((t.set np x).setFork p f) := by
  have he := hfk.embryo p np hc
  refine h.goOn (fun hpr => ?_) (hfk.live p np hc) hx hparent hxf hf
    (fun q hq hqc => hq (hfk.only q p np hqc hc)) (hfk.fork_of_not_live fun hl => hl.ne.2.1 he)
  rcases hpr with hl | hz
  · exact hl.ne.2.1 he
  · simp [he] at hz

theorem exit (hp : (t.proc p).Live) (hi : p ≠ t.initproc)
    (hf : (t.proc p).fork = .no) : Family (t.exit p) := by
  have he := exited t (.symm hi)
  have hlive : ∀ q, q ≠ p → (t.proc q).Live → ((t.exit p).proc q).Live := by
    intro q hq hl
    rcases he.state q hq with hs | ⟨-, hs⟩
    · rw [Proc.Live, hs]
      exact hl
    · exact .inl hs
  have hpar : ∀ q, (t.proc q).parent ≠ some p → ((t.exit p).proc q).parent = (t.proc q).parent := by
    intro q hq
    rw [he.parent, if_neg hq]
  refine ⟨?_, ?_, fun q hq hpr => ?_, fun q => ?_, fun q m hq => ?_, fun q z hs hc hz hzz => ?_⟩
  · rw [he.initproc]
    exact hlive _ (.symm hi) h.init
  · rw [he.initproc, hpar _ (by simp [h.initParent]), h.initParent]
  · rw [he.initproc] at hq
    have hold : (t.proc q).Present := by
      by_cases hqp : q = p
      · exact .inl (hqp ▸ hp)
      · rcases he.state q hqp with hs | ⟨hs, -⟩
        · rw [Proc.Present, Proc.Live, hs] at hpr
          exact hpr
        · exact .inl (.inr (.inr hs))
    obtain ⟨r, hr, hl⟩ := h.parents q hq hold
    by_cases hrp : r = p
    · subst hrp
      exact ⟨t.initproc, by rw [he.parent, if_pos hr], hlive _ (.symm hi) h.init⟩
    · refine ⟨r, ?_, hlive r hrp hl⟩
      rw [hpar q (by rw [hr]; exact fun hc => hrp (Option.some.inj hc)), hr]
  · rw [he.parent]
    split
    · rename_i hq
      intro hc
      have hqi : t.initproc = q := Option.some.inj hc
      rw [← hqi, h.initParent] at hq
      cases hq
    · exact h.noSelf q
  · rw [he.rest q] at hq
    have hq : (t.proc q).fork = .adopted m := hq
    have hm := h.adopted q m hq
    have hqp : q ≠ p := by
      rintro rfl
      rw [hf] at hq
      cases hq
    rw [hpar m (by rw [hm]; exact fun hc => hqp (Option.some.inj hc)), hm]
  · have hqp : q ≠ p := by
      rintro rfl
      rw [he.self] at hs
      cases hs
    rw [he.parent] at hz
    by_cases hzp : z = p
    · -- The process itself: its parent has been woken up.
      subst hzp
      rw [if_neg (h.noSelf z)] at hz
      exact he.wakesParent q q hz hs hc
    have hzt : (t.proc z).state = .zombie := by
      rcases he.state z hzp with hst | ⟨-, hst⟩
      · rw [← hst, hzz]
      · rw [hst] at hzz
        cases hzz
    split at hz
    · -- A zombie that has been passed to init.
      rename_i hzc
      obtain rfl : t.initproc = q := Option.some.inj hz
      exact he.wakesInit _ z hzc hzt hs hc
    have hst : (t.proc q).state = .sleeping := by
      rcases he.state q hqp with hst | ⟨hst, -⟩
      · rw [← hst, hs]
      · exact hst
    have hct : (t.proc q).chan = some (.proc q) := by
      rw [he.rest q] at hc
      exact hc
    exact h.asleep q z hst hct hz hzt

theorem reap {z : Slot} (hf : t.Forking) (hz : t.zombieChild p = some z) : Family (t.reap p z) := by
  obtain ⟨-, hzs⟩ := zombieChild_some hz
  have hof : ∀ q, q ≠ z → (t.reap p z).proc q = t.proc q := fun q hq => set_of_ne hq
  have hself : (t.reap p z).proc z =
      { t.proc z with state := .unused, pid := 0, parent := none, killed := false } := set_self
  have hne : ∀ q, (t.proc q).Live → q ≠ z := by
    rintro q hq rfl
    exact hq.ne.2.2 hzs
  have hin := hne _ h.init
  refine ⟨?_, ?_, fun q hq hpr => ?_, fun q => ?_, fun q m hq => ?_, fun q y hs hc hy => ?_⟩
  · show ((t.reap p z).proc t.initproc).Live
    rw [hof _ hin]
    exact h.init
  · show ((t.reap p z).proc t.initproc).parent = none
    rw [hof _ hin]
    exact h.initParent
  · have hqz : q ≠ z := by
      rintro rfl
      rw [hself] at hpr
      rcases hpr with hl | hz
      · exact hl.ne.1 rfl
      · cases hz
    rw [hof q hqz] at hpr ⊢
    obtain ⟨r, hr, hl⟩ := h.parents q hq hpr
    exact ⟨r, hr, by rwa [hof r (hne r hl)]⟩
  · by_cases hqz : q = z
    · rw [hqz, hself]
      simp
    · rw [hof q hqz]
      exact h.noSelf q
  · have hfork : (t.proc q).fork = .adopted m := by
      by_cases hqz : q = z
      · subst hqz
        rwa [hself] at hq
      · rwa [hof q hqz] at hq
    have hmz : m ≠ z := by
      rintro rfl
      have := hf.embryo q m (.inr hfork)
      simp [hzs] at this
    rw [hof m hmz]
    exact h.adopted q m hfork
  · by_cases hyz : y = z
    · rw [hyz, hself]
      simp
    have hqz : q ≠ z := by
      rintro rfl
      rw [hself] at hs
      cases hs
    rw [hof y hyz] at hy ⊢
    rw [hof q hqz] at hs hc
    exact h.asleep q y hs hc hy

theorem tune (hp : (t.proc p).Live) (hx : x.Live)
    (hsame : x = { t.proc p with state := x.state, chan := x.chan, resume := x.resume })
    (hwait : x.state = .sleeping → x.chan = some (.proc p) → t.zombieChild p = none) :
    Family (t.set p x) := by
  have hself : ∀ q, ∀ {β : Type} (g : Proc → β), g x = g (t.proc p) →
      g ((t.set p x).proc q) = g (t.proc q) := by
    intro q β g hg
    by_cases hq : q = p
    · rw [hq, set_self, hg]
    · rw [set_of_ne hq]
  refine h.same rfl (fun q => hself q (·.parent) (by rw [hsame])) (fun q => hself q (·.fork)
    (by rw [hsame])) (fun q => ?_) (fun q => ?_) fun q z hs hc hz => ?_
  · exact iff_of_eq (hself q Proc.Live (propext ⟨fun _ => hp, fun _ => hx⟩))
  · exact iff_of_eq (hself q (·.state = .zombie)
      (propext ⟨fun hz => absurd hz hx.ne.2.2, fun hz => absurd hz hp.ne.2.2⟩))
  by_cases hq : q = p
  · subst hq
    rw [set_self] at hs hc
    exact zombieChild_none (hwait hs hc) hz
  · rw [set_of_ne hq] at hs hc
    exact h.asleep q z hs hc hz

theorem wake (hi : u.initproc = t.initproc)
    (hproc : ∀ q, ∃ st k, u.proc q = { t.proc q with state := st, killed := k } ∧
      (st = (t.proc q).state ∨ (t.proc q).state = .sleeping ∧ st = .runnable)) : Family u := by
  refine h.same hi (fun q => ?_) (fun q => ?_) (fun q => ?_) (fun q => ?_) fun q z hs hc hz => ?_
  all_goals obtain ⟨st, k, hq, hst⟩ := hproc q
  · rw [hq]
  · rw [hq]
  · rw [hq, Proc.Live, Proc.Live]
    rcases hst with rfl | ⟨hs, rfl⟩
    · rfl
    · simp [hs]
  · rw [hq]
    rcases hst with rfl | ⟨hs, rfl⟩
    · rfl
    · simp [hs]
  · rw [hq] at hs hc
    rcases hst with rfl | ⟨-, rfl⟩
    · exact h.asleep q z hs hc hz
    · cases hs

theorem change (hf : t.Forking) (hc : Change ok t u) : Family u := by
  cases hc with
  | tune p x hp hx hsame hwait => exact h.tune hp hx hsame hwait
  | wakeup chan =>
    refine h.wake rfl fun q => ?_
    rw [wakeup1_proc]
    refine ⟨_, _, rfl, ?_⟩
    split
    · rename_i hq
      exact .inr ⟨hq.1, rfl⟩
    · exact .inl rfl
  | kill _ pid _ =>
    refine h.wake ?_ fun q => ?_
    · show (t.kill pid).1.initproc = t.initproc
      rw [kill_rest]
    show ∃ st k, (t.kill pid).1.proc q = _ ∧ _
    rw [kill_proc]
    split
    · refine ⟨_, _, rfl, ?_⟩
      split
      · exact .inr ⟨‹_›, rfl⟩
      · exact .inl rfl
    · exact ⟨_, _, rfl, .inl rfl⟩
  | exit p hp hi hfk => exact h.exit hp hi hfk
  | reap p z hp hz => exact h.reap hf hz
  | alloc p np hp hfk hnp =>
    have hun := findUnused_some hnp
    have hgo : Family ((t.set np { t.proc np with
        state := .embryo, pid := t.nextpid, resume := .forkret, born := t.births }).setFork p
        (.alloc np)) := by
      refine h.goOn (fun hpr => ?_) hp (.inr (.inl rfl)) (.inl rfl) rfl (fun m hm => by cases hm)
        (fun q _ hq => ?_) (hf.fork_of_not_live fun hl => hl.ne.1 hun)
      · rcases hpr with hl | hz
        · exact hl.ne.1 hun
        · simp [hun] at hz
      · have := hf.embryo q np hq
        simp [hun] at this
    exact hgo.congr rfl rfl
  | fail p np hfk _ =>
    exact h.claimed hf (.inl hfk) (.inl rfl) (.inl rfl) rfl fun m hm => by cases hm
  | adopt p np hfk =>
    refine h.claimed hf (.inl hfk) (.inr (.inl ?_)) (.inr rfl) rfl fun m hm => ?_
    · exact hf.embryo p np (.inl hfk)
    · cases hm
      exact ⟨rfl, rfl⟩
  | done p np hfk =>
    exact h.claimed hf (.inr hfk) (.inr (.inr ⟨rfl, h.adopted p np hfk⟩)) (.inl rfl) rfl
      fun m hm => by cases hm

end Family

def WaitsOnce (log : List Event) : Prop :=
  ∀ l₁ l₂ r b pid, log = l₁ ++ .wait r b pid :: l₂ →
    .exit b ∈ l₂ ∧ (∀ r' pid', .wait r' b pid' ∉ l₂) ∧
    ∃ f, .alloc f b pid ∈ l₂ ∧ (r = f ∨ r = 0 ∧ .exit f ∈ l₂)

structure History (t : Ptable) : Prop where
  init : (t.proc t.initproc).born = 0
  born : ∀ q, (t.proc q).state ≠ .unused → (t.proc q).born < t.births
  once : ∀ q r, (t.proc q).state ≠ .unused → (t.proc r).state ≠ .unused →
    (t.proc q).born = (t.proc r).born → q = r
  origin : ∀ q r, (t.proc q).Present → (t.proc q).parent = some r →
    ∃ f, .alloc f (t.proc q).born (t.proc q).pid ∈ t.log ∧
      (f = (t.proc r).born ∨ r = t.initproc ∧ .exit f ∈ t.log)
  claimed : ∀ p np, (t.proc p).Claims np →
    .alloc (t.proc p).born (t.proc np).born (t.proc np).pid ∈ t.log
  exited : ∀ q, (t.proc q).state = .zombie → .exit (t.proc q).born ∈ t.log
  waited : ∀ r b pid, .wait r b pid ∈ t.log →
    b < t.births ∧ ∀ q, (t.proc q).state ≠ .unused → (t.proc q).born ≠ b
  waits : WaitsOnce t.log

theorem WaitsOnce.cons {log : List Event} {e : Event} (h : WaitsOnce log)
    (he : ∀ r b pid, e ≠ .wait r b pid) : WaitsOnce (e :: log) := by
  intro l1 l2 r b pid heq
  cases l1 with
  | nil =>
    obtain ⟨rfl, -⟩ := List.cons_eq_cons.1 heq
    exact absurd rfl (he r b pid)
  | cons a l1 => exact h l1 l2 r b pid (List.cons_eq_cons.1 heq).2

namespace History

variable (h : History t)
include h

theorem same {e : List Event} (hi : u.initproc = t.initproc)
    (hb : u.births = t.births) (hlog : u.log = e ++ t.log) (hw : ∀ r b pid, .wait r b pid ∉ e)
    (hproc : ∀ q, (u.proc q).born = (t.proc q).born ∧ (u.proc q).pid = (t.proc q).pid ∧
      (u.proc q).fork = (t.proc q).fork ∧ ((u.proc q).Present → (t.proc q).Present) ∧
      ((u.proc q).state ≠ .unused → (t.proc q).state ≠ .unused))
    (hparent : ∀ q r, (t.proc q).Present → (u.proc q).parent = some r →
      (t.proc q).parent = some r ∨ r = t.initproc ∧
        ∃ p, (t.proc q).parent = some p ∧ p ≠ t.initproc ∧ .exit (t.proc p).born ∈ u.log)
    (hexit : ∀ q, (u.proc q).state = .zombie → (t.proc q).state = .zombie ∨
      .exit (t.proc q).born ∈ u.log) : History u := by
  have hmem : ∀ {ev}, ev ∈ t.log → ev ∈ u.log := by
    intro ev hev
    rw [hlog]
    exact List.mem_append_right e hev
  have hborn : ∀ q, (u.proc q).born = (t.proc q).born := fun q => (hproc q).1
  refine ⟨by rw [hi, hborn, h.init], fun q hq => ?_, fun q r hq hr he => ?_, fun q r hq hr => ?_,
    fun p np hc => ?_, fun q hq => ?_, fun r b pid hev => ?_, ?_⟩
  · rw [hborn, hb]
    exact h.born q ((hproc q).2.2.2.2 hq)
  · rw [hborn, hborn] at he
    exact h.once q r ((hproc q).2.2.2.2 hq) ((hproc r).2.2.2.2 hr) he
  · have hq := (hproc q).2.2.2.1 hq
    rw [hborn, (hproc q).2.1, hborn, hi]
    rcases hparent q r hq hr with hr | ⟨rfl, p, hp, hpi, hpe⟩
    · obtain ⟨f, hf, hor⟩ := h.origin q r hq hr
      exact ⟨f, hmem hf, hor.imp_right fun ho => ⟨ho.1, hmem ho.2⟩⟩
    obtain ⟨f, hf, hor⟩ := h.origin q p hq hp
    refine ⟨f, hmem hf, .inr ⟨rfl, ?_⟩⟩
    rcases hor with rfl | ⟨rfl, -⟩
    · exact hpe
    · exact absurd rfl hpi
  · rw [hborn, hborn, (hproc np).2.1]
    rw [Proc.Claims, (hproc p).2.2.1] at hc
    exact hmem (h.claimed p np hc)
  · rw [hborn]
    rcases hexit q hq with hq | hq
    · exact hmem (h.exited q hq)
    · exact hq
  · have hev : Event.wait r b pid ∈ t.log := by
      rw [hlog] at hev
      exact (List.mem_append.1 hev).resolve_left (hw r b pid)
    obtain ⟨hlt, hno⟩ := h.waited r b pid hev
    refine ⟨by rwa [hb], fun q hq => ?_⟩
    rw [hborn]
    exact hno q ((hproc q).2.2.2.2 hq)
  · rw [hlog]
    clear hlog hmem hparent hexit
    induction e with
    | nil => exact h.waits
    | cons a e ih =>
      refine .cons (ih fun r b pid hm => hw r b pid (List.mem_cons_of_mem a hm)) ?_
      rintro r b pid rfl
      exact hw r b pid (List.mem_cons_self ..)

theorem forkStep (hfk : t.Forking) (hc : (t.proc p).Claims np) (hborn : x.born = (t.proc np).born)
    (hpid : x.pid = (t.proc np).pid) (hxf : x.fork = (t.proc np).fork)
    (hx : x.state = .unused ∨ x.state = .embryo ∨ x.state = .runnable ∧ x.parent = some p)
    (hf : ∀ m, f = .alloc m ∨ f = .adopted m → m = np) : History ((t.set np x).setFork p f) := by
  have he := hfk.embryo p np hc
  have hproc : ∀ q, (((t.set np x).setFork p f).proc q).born = (t.proc q).born ∧
      (((t.set np x).setFork p f).proc q).pid = (t.proc q).pid := by
    intro q
    rw [forkStep_proc]
    by_cases hq : q = np
    · subst hq
      simp [hborn, hpid]
    · simp [hq]
  have hof : ∀ q, q ≠ np → (((t.set np x).setFork p f).proc q).state = (t.proc q).state ∧
      (((t.set np x).setFork p f).proc q).parent = (t.proc q).parent := by
    intro q hq
    rw [forkStep_proc]
    simp [hq]
  have hself : (((t.set np x).setFork p f).proc np).state = x.state ∧
      (((t.set np x).setFork p f).proc np).parent = x.parent := by
    rw [forkStep_proc]
    simp
  have hused : ∀ q, (((t.set np x).setFork p f).proc q).state ≠ .unused →
      (t.proc q).state ≠ .unused := by
    intro q hq
    by_cases hqn : q = np
    · subst hqn
      simp [he]
    · rwa [(hof q hqn).1] at hq
  refine ⟨(hproc _).1.trans h.init, fun q hq => ?_, fun q r hq hr heq => ?_, fun q r hq hr => ?_,
    fun q m hq => ?_, fun q hq => ?_, fun r b pid hev => ?_, h.waits⟩
  · rw [(hproc q).1]
    exact h.born q (hused q hq)
  · rw [(hproc q).1, (hproc r).1] at heq
    exact h.once q r (hused q hq) (hused r hr) heq
  · rw [(hproc q).1, (hproc q).2, (hproc r).1]
    by_cases hqn : q = np
    · subst hqn
      rw [Proc.Present, Proc.Live, hself.1] at hq
      rw [hself.2] at hr
      rcases hx with hx | hx | ⟨-, hxp⟩
      · simp [hx] at hq
      · simp [hx] at hq
      · obtain rfl : p = r := Option.some.inj (hxp.symm.trans hr)
        exact ⟨_, h.claimed p q hc, .inl rfl⟩
    · rw [Proc.Present, Proc.Live, (hof q hqn).1] at hq
      rw [(hof q hqn).2] at hr
      exact h.origin q r hq hr
  · rw [(hproc q).1, (hproc m).1, (hproc m).2]
    rw [Proc.Claims, forkStep_proc] at hq
    by_cases hqp : q = p
    · subst hqp
      simp only [↓reduceIte] at hq
      obtain rfl := hf m hq
      exact h.claimed q m hc
    have hqf : (t.proc q).Claims m := by
      by_cases hqn : q = np
      · subst hqn
        simpa [Proc.Claims, hqp, hxf] using hq
      · simpa [Proc.Claims, hqp, hqn] using hq
    exact h.claimed q m hqf
  · rw [(hproc q).1]
    by_cases hqn : q = np
    · subst hqn
      rw [hself.1] at hq
      rcases hx with hx | hx | ⟨hx, -⟩ <;> simp [hx] at hq
    · rw [(hof q hqn).1] at hq
      exact h.exited q hq
  · obtain ⟨hlt, hno⟩ := h.waited r b pid hev
    refine ⟨hlt, fun q hq => ?_⟩
    rw [(hproc q).1]
    exact hno q (hused q hq)

theorem alloc (hfk : t.Forking) (hfam : Family t) (hp : (t.proc p).Live)
    (hnp : t.findUnused = some np) : History ((t.allocproc p np).setFork p (.alloc np)) := by
  have hun := findUnused_some hnp
  have hpn : p ≠ np := by
    rintro rfl
    exact hp.ne.1 hun
  have hin : t.initproc ≠ np := by
    rintro rfl
    exact hfam.init.ne.1 hun
  have hproc : ∀ q, ((t.allocproc p np).setFork p (.alloc np)).proc q =
      { (if q = np then { t.proc np with
          state := .embryo, pid := t.nextpid, resume := .forkret, born := t.births }
        else t.proc q) with
        fork := if q = p then .alloc np else (t.proc q).fork } := by
    intro q
    refine (forkStep_proc q).trans ?_
    by_cases hq : q = np
    · simp [hq]
    · simp [hq]
  have hof : ∀ q, q ≠ np → ((t.allocproc p np).setFork p (.alloc np)).proc q =
      { t.proc q with fork := if q = p then .alloc np else (t.proc q).fork } := by
    intro q hq
    rw [hproc, if_neg hq]
  have hself : (((t.allocproc p np).setFork p (.alloc np)).proc np).born = t.births ∧
      (((t.allocproc p np).setFork p (.alloc np)).proc np).pid = t.nextpid ∧
      (((t.allocproc p np).setFork p (.alloc np)).proc np).state = .embryo := by
    rw [hproc]
    simp
  have hmem : ∀ {ev}, ev ∈ t.log → ev ∈ ((t.allocproc p np).setFork p (.alloc np)).log :=
    fun hev => List.mem_cons_of_mem _ hev
  refine ⟨?_, fun q hq => ?_, fun q r hq hr heq => ?_, fun q r hq hr => ?_, fun q m hq => ?_,
    fun q hq => ?_, fun r b pid hev => ?_, h.waits.cons (by simp)⟩
  · show (((t.allocproc p np).setFork p (.alloc np)).proc t.initproc).born = 0
    rw [hof _ hin]
    exact h.init
  · show _ < t.births + 1
    by_cases hqn : q = np
    · subst hqn
      rw [hself.1]
      omega
    · rw [hof q hqn] at hq ⊢
      exact Nat.lt_succ_of_lt (h.born q hq)
  · by_cases hqn : q = np <;> by_cases hrn : r = np
    · rw [hqn, hrn]
    · subst hqn
      rw [hself.1, hof r hrn] at heq
      rw [hof r hrn] at hr
      have := h.born r hr
      simp only at heq
      omega
    · subst hrn
      rw [hself.1, hof q hqn] at heq
      rw [hof q hqn] at hq
      have := h.born q hq
      simp only at heq
      omega
    · rw [hof q hqn] at hq heq
      rw [hof r hrn] at hr heq
      exact h.once q r hq hr heq
  · have hqn : q ≠ np := by
      rintro rfl
      rw [Proc.Present, Proc.Live, hself.2.2] at hq
      simp at hq
    rw [hof q hqn] at hq hr ⊢
    have hq : (t.proc q).Present := hq
    have hr : (t.proc q).parent = some r := hr
    obtain ⟨f, hfl, hor⟩ := h.origin q r hq hr
    have hrn : r ≠ np := by
      rintro rfl
      by_cases hqi : q = t.initproc
      · rw [hqi, hfam.initParent] at hr
        cases hr
      · obtain ⟨r', hr', hl⟩ := hfam.parents q hqi hq
        obtain rfl : r = r' := Option.some.inj (hr.symm.trans hr')
        exact hl.ne.1 hun
    rw [hof r hrn]
    exact ⟨f, hmem hfl, hor.imp_right fun ho => ⟨ho.1, hmem ho.2⟩⟩
  · by_cases hqp : q = p
    · subst hqp
      have hm : m = np := by
        rw [Proc.Claims, hproc] at hq
        rcases hq with hq | hq
        · simpa [eq_comm] using hq
        · simp at hq
      subst hm
      rw [hof q hpn, hself.1, hself.2.1]
      exact List.mem_cons_self ..
    · have hqc : (t.proc q).Claims m := by
        rw [Proc.Claims, hproc] at hq
        simpa [Proc.Claims, hqp] using hq
      have hqn : q ≠ np := by
        rintro rfl
        exact (hfk.live q m hqc).ne.1 hun
      have hmn : m ≠ np := by
        rintro rfl
        have := hfk.embryo q m hqc
        simp [hun] at this
      rw [hof q hqn, hof m hmn]
      exact hmem (h.claimed q m hqc)
  · have hqn : q ≠ np := by
      rintro rfl
      rw [hself.2.2] at hq
      cases hq
    rw [hof q hqn] at hq ⊢
    exact hmem (h.exited q hq)
  · have hev : Event.wait r b pid ∈ t.log := (List.mem_cons.1 hev).resolve_left (by simp)
    obtain ⟨hlt, hno⟩ := h.waited r b pid hev
    refine ⟨Nat.lt_succ_of_lt hlt, fun q hq => ?_⟩
    by_cases hqn : q = np
    · subst hqn
      rw [hself.1]
      omega
    · rw [hof q hqn] at hq ⊢
      exact hno q hq

theorem reap {z : Slot} (hfk : t.Forking) (hz : t.zombieChild p = some z) :
    History (t.reap p z) := by
  obtain ⟨hzp, hzs⟩ := zombieChild_some hz
  have hof : ∀ q, q ≠ z → (t.reap p z).proc q = t.proc q := fun q hq => set_of_ne hq
  have hself : (t.reap p z).proc z =
      { t.proc z with state := .unused, pid := 0, parent := none, killed := false } := set_self
  have hborn : ∀ q, ((t.reap p z).proc q).born = (t.proc q).born := by
    intro q
    by_cases hq : q = z
    · rw [hq, hself]
    · rw [hof q hq]
  have hused : ∀ q, ((t.reap p z).proc q).state ≠ .unused → q ≠ z := by
    rintro q hq rfl
    rw [hself] at hq
    exact hq rfl
  have hpresent : ∀ q, ((t.reap p z).proc q).Present → q ≠ z := by
    rintro q hq rfl
    rw [hself] at hq
    rcases hq with hq | hq
    · exact hq.ne.1 rfl
    · cases hq
  have hmem : ∀ {ev}, ev ∈ t.log → ev ∈ (t.reap p z).log := fun hev => List.mem_cons_of_mem _ hev
  have hzu : (t.proc z).state ≠ .unused := by simp [hzs]
  refine ⟨(hborn _).trans h.init, fun q hq => ?_, fun q r hq hr heq => ?_, fun q r hq hr => ?_,
    fun q m hq => ?_, fun q hq => ?_, fun r b pid hev => ?_, ?_⟩
  · rw [hborn]
    exact h.born q (by rwa [hof q (hused q hq)] at hq)
  · rw [hborn, hborn] at heq
    exact h.once q r (by rwa [hof q (hused q hq)] at hq) (by rwa [hof r (hused r hr)] at hr) heq
  · have hqz := hpresent q hq
    rw [hborn r]
    rw [hof q hqz] at hq hr ⊢
    obtain ⟨f, hfl, hor⟩ := h.origin q r hq hr
    exact ⟨f, hmem hfl, hor.imp_right fun ho => ⟨ho.1, hmem ho.2⟩⟩
  · have hqc : (t.proc q).Claims m := by
      by_cases hqz : q = z
      · subst hqz
        rwa [hself] at hq
      · rwa [hof q hqz] at hq
    have hmz : m ≠ z := by
      rintro rfl
      have := hfk.embryo q m hqc
      simp [hzs] at this
    rw [hborn q, hof m hmz]
    exact hmem (h.claimed q m hqc)
  · have hqz := hpresent q (.inr hq)
    rw [hof q hqz] at hq ⊢
    exact hmem (h.exited q hq)
  · rcases List.mem_cons.1 hev with hev | hev
    · cases hev
      refine ⟨h.born z hzu, fun q hq heq => ?_⟩
      have hqz := hused q hq
      rw [hof q hqz] at hq heq
      exact hqz (h.once q z hq hzu heq)
    · obtain ⟨hlt, hno⟩ := h.waited r b pid hev
      refine ⟨hlt, fun q hq => ?_⟩
      rw [hborn]
      exact hno q (by rwa [hof q (hused q hq)] at hq)
  · intro l1 l2 r b pid heq
    cases l1 with
    | cons a l1 => exact h.waits l1 l2 r b pid (List.cons_eq_cons.1 heq).2
    | nil =>
      obtain ⟨hev, rfl⟩ := List.cons_eq_cons.1 heq
      cases hev
      refine ⟨h.exited z hzs, fun r' pid' hev => ?_, ?_⟩
      · exact (h.waited r' _ pid' hev).2 z hzu rfl
      obtain ⟨f, hfl, hor⟩ := h.origin z p (.inr hzs) hzp
      refine ⟨f, hfl, ?_⟩
      rcases hor with rfl | ⟨rfl, hex⟩
      · exact .inl rfl
      · exact .inr ⟨h.init, hex⟩

theorem adjust {e : List Event} (hi : u.initproc = t.initproc)
    (hb : u.births = t.births) (hlog : u.log = e ++ t.log) (hw : ∀ r b pid, .wait r b pid ∉ e)
    (hproc : ∀ q, ∃ st ch k r, u.proc q = { t.proc q with
      state := st, chan := ch, killed := k, resume := r } ∧
      (st = (t.proc q).state ∨ (t.proc q).Live ∧ ({ t.proc q with state := st } : Proc).Live)) :
    History u := by
  refine h.same hi hb hlog hw (fun q => ?_) (fun q r _ hr => ?_) fun q hq => ?_
  · obtain ⟨st, ch, k, r, hq, hst⟩ := hproc q
    rw [hq]
    refine ⟨rfl, rfl, rfl, fun hpr => ?_, fun hu => ?_⟩
    · rcases hst with rfl | ⟨hl, -⟩
      · exact hpr
      · exact .inl hl
    · rcases hst with rfl | ⟨hl, -⟩
      · exact hu
      · exact hl.ne.1
  · obtain ⟨st, ch, k, r', hq, -⟩ := hproc q
    rw [hq] at hr
    exact .inl hr
  · obtain ⟨st, ch, k, r, hqu, hst⟩ := hproc q
    rw [hqu] at hq
    rcases hst with rfl | ⟨-, hl⟩
    · exact .inl hq
    · exact absurd hq hl.ne.2.2

theorem exit (hp : (t.proc p).Live) (hi : p ≠ t.initproc) : History (t.exit p) := by
  have he := Ptable.exited t (.symm hi)
  have hlog : (t.exit p).log = [.exit (t.proc p).born] ++ t.log := he.log
  have hmem : Event.exit (t.proc p).born ∈ (t.exit p).log := by simp [hlog]
  refine h.same he.initproc he.births hlog (by simp) (fun q => ?_) (fun q r _ hr => ?_)
    fun q hq => ?_
  · have hold : q ≠ p → ((t.exit p).proc q).state = (t.proc q).state ∨
        (t.proc q).state = .sleeping := fun hq => (he.state q hq).imp_right fun hs => hs.1
    refine ⟨by rw [he.rest q], by rw [he.rest q], by rw [he.rest q], fun hpr => ?_, fun hu => ?_⟩
    · by_cases hq : q = p
      · exact .inl (hq ▸ hp)
      · rcases hold hq with hs | hs
        · rwa [Proc.Present, Proc.Live, hs] at hpr
        · exact .inl (.inr (.inr hs))
    by_cases hq : q = p
    · exact hq ▸ hp.ne.1
    · rcases hold hq with hs | hs
      · rwa [hs] at hu
      · simp [hs]
  · rw [he.parent] at hr
    split at hr
    · rename_i hq
      exact .inr ⟨(Option.some.inj hr).symm, p, hq, hi, hmem⟩
    · exact .inl hr
  · by_cases hqp : q = p
    · rw [hqp]
      exact .inr hmem
    · rcases he.state q hqp with hs | ⟨-, hs⟩
      · exact .inl (hs.symm.trans hq)
      · rw [hs] at hq
        cases hq

theorem change (hfk : t.Forking) (hfam : Family t) (hc : Change ok t u) : History u := by
  cases hc with
  | tune p x hp hx hsame hwait =>
    refine h.adjust (e := []) rfl rfl rfl (by simp) fun q => ?_
    by_cases hq : q = p
    · subst hq
      refine ⟨x.state, x.chan, (t.proc q).killed, x.resume, ?_, .inr ⟨hp, hx⟩⟩
      rw [set_self]
      exact hsame
    · rw [set_of_ne hq]
      exact ⟨_, _, _, _, rfl, .inl rfl⟩
  | wakeup chan =>
    refine h.adjust (e := []) rfl rfl rfl (by simp) fun q => ?_
    rw [wakeup1_proc]
    refine ⟨_, _, _, _, rfl, ?_⟩
    split
    · rename_i hq
      exact .inr ⟨.inr (.inr hq.1), .inl rfl⟩
    · exact .inl rfl
  | kill _ pid _ =>
    refine h.adjust (e := [.kill pid]) ?_ ?_ ?_ (by simp) fun q => ?_
    · show (t.kill pid).1.initproc = t.initproc
      rw [kill_rest]
    · show (t.kill pid).1.births = t.births
      rw [kill_rest]
    · show .kill pid :: (t.kill pid).1.log = .kill pid :: t.log
      rw [kill_rest]
    show ∃ st ch k r, (t.kill pid).1.proc q = _ ∧ _
    rw [kill_proc]
    split
    · refine ⟨_, _, _, _, rfl, ?_⟩
      split
      · exact .inr ⟨.inr (.inr ‹_›), .inl rfl⟩
      · exact .inl rfl
    · exact ⟨_, _, _, _, rfl, .inl rfl⟩
  | exit p hp hi hf => exact h.exit hp hi
  | reap p z hp hz => exact h.reap hfk hz
  | alloc p np hp hf hnp => exact h.alloc hfk hfam hp hnp
  | fail p np hf _ =>
    exact h.forkStep hfk (.inl hf) rfl rfl rfl (.inl rfl) fun m hm => by simp at hm
  | adopt p np hf =>
    refine h.forkStep hfk (.inl hf) rfl rfl rfl (.inr (.inl ?_)) fun m hm => ?_
    · exact hfk.embryo p np (.inl hf)
    · simpa [eq_comm] using hm
  | done p np hf =>
    exact h.forkStep hfk (.inr hf) rfl rfl rfl (.inr (.inr ⟨rfl, hfam.adopted p np hf⟩))
      fun m hm => by simp at hm

end History

end Ptable

variable {C : Type}

theorem boot_proc (q : Slot) : (boot C).pt.proc q = { Proc.zero with
    state := if q = 0 then .runnable else .unused, pid := if q = 0 then 1 else 0 } := by
  by_cases hq : q = 0 <;> simp [boot, hq, Proc.zero]

theorem boot_present {q : Slot} (h : ((boot C).pt.proc q).state ≠ .unused) : q = 0 := by
  by_contra hq
  simp [boot_proc, hq] at h

theorem family_boot : (boot C).pt.Family where
  init := .inl (by simp [boot])
  initParent := by simp [boot_proc, Proc.zero]
  parents q hq hpr := by
    refine absurd (boot_present (C := C) ?_) hq
    rcases hpr with hl | hz
    · exact hl.ne.1
    · simp [hz]
  noSelf q := by simp [boot_proc, Proc.zero]
  adopted p np h := by simp [boot_proc, Proc.zero] at h
  asleep p z h := by
    rw [boot_proc] at h
    split at h <;> cases h

theorem history_boot : (boot C).pt.History where
  init := by simp [boot_proc, Proc.zero]
  born q _ := by
    rw [boot_proc]
    exact Nat.zero_lt_one
  once q r hq hr _ := (boot_present hq).trans (boot_present hr).symm
  origin q r _ hr := by simp [boot_proc, Proc.zero] at hr
  claimed p np h := by simp [boot_proc, Proc.zero, Proc.Claims] at h
  exited q h := by
    rw [boot_proc] at h
    split at h <;> cases h
  waited r b pid h := by simp [boot] at h
  waits l1 l2 r b pid h := by simp [boot] at h

variable [DecidableEq C]

theorem exit_wait_protocol (tr : List (C × Act)) :
    EveryState Kernel.step (boot C) (fun s => s.lock = none →
      (∀ p, p ≠ s.pt.initproc → (s.pt.proc p).state ∈
          [PState.runnable, .running, .sleeping, .zombie] →
        ∃ q, (s.pt.proc p).parent = some q ∧ (s.pt.proc q).state ≠ .unused ∧
          (s.pt.proc q).state ≠ .zombie) ∧
      (∀ p z, (s.pt.proc p).state = .sleeping → (s.pt.proc p).chan = some (.proc p) →
        (s.pt.proc z).parent = some p → (s.pt.proc z).state ≠ .zombie) ∧
      Ptable.WaitsOnce s.pt.log) tr := by
  intro tr' s _ hrun _
  obtain ⟨hfam, hhist⟩ : s.pt.Family ∧ s.pt.History := by
    refine table_invariant (I := fun t => t.Family ∧ t.History) ⟨family_boot, history_boot⟩ ?_
      hrun
    rintro t u hfk hc ⟨hf, hh⟩
    exact ⟨hf.change hfk hc, hh.change hfk hf hc⟩
  refine ⟨fun p hp hst => ?_, hfam.asleep, hhist.waits⟩
  have hpr : (s.pt.proc p).Present := by simpa [Proc.Present, Proc.Live, or_assoc] using hst
  obtain ⟨q, hq, hl⟩ := hfam.parents p hp hpr
  exact ⟨q, hq, hl.ne.1, hl.ne.2.2⟩

end Xv6.Procs
