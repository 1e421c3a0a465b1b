import Xv6.Procs.Machine

namespace Xv6.Procs

open Lib

def Proc.Live (x : Proc) : Prop := x.state = .runnable ∨ x.state = .running ∨ x.state = .sleeping

theorem Proc.Live.ne {x : Proc} (h : x.Live) :
    x.state ≠ .unused ∧ x.state ≠ .embryo ∧ x.state ≠ .zombie := by
  rcases h with h | h | h <;> simp [h]

def Proc.Claims (x : Proc) (np : Slot) : Prop := x.fork = .alloc np ∨ x.fork = .adopted np

namespace Ptable

variable {t : Ptable} {p q : Slot} {x : Proc}

@[simp] theorem set_self : (t.set p x).proc p = x := by simp [set]

theorem set_of_ne (h : q ≠ p) : (t.set p x).proc q = t.proc q := by simp [set, h]

theorem wakeup1_proc (t : Ptable) (chan : Option Chan) (q : Slot) :
    (t.wakeup1 chan).proc q = { t.proc q with
      state := if (t.proc q).state = .sleeping ∧ (t.proc q).chan = chan then .runnable
        else (t.proc q).state } := by
  unfold wakeup1
  split
  · rename_i h
    simp [h]
  · rename_i h
    simp [h]

structure Passed (cur : Slot) (t u : Ptable) : Prop where
  initproc : u.initproc = t.initproc
  nextpid : u.nextpid = t.nextpid
  births : u.births = t.births
  log : u.log = t.log
  rest : ∀ q, u.proc q = { t.proc q with state := (u.proc q).state, parent := (u.proc q).parent }
  parent : ∀ q, (u.proc q).parent = (t.proc q).parent ∨
    (t.proc q).parent = some cur ∧ (u.proc q).parent = some t.initproc
  state : ∀ q, (u.proc q).state = (t.proc q).state ∨ (t.proc q).state = .sleeping ∧
    (t.proc q).chan = some (.proc t.initproc) ∧ (u.proc q).state = .runnable

namespace Passed

variable {cur : Slot} {u v : Ptable}

theorem refl (t : Ptable) : Passed cur t t :=
  ⟨rfl, rfl, rfl, rfl, fun _ => rfl, fun _ => .inl rfl, fun _ => .inl rfl⟩

theorem trans (h1 : Passed cur t u) (h2 : Passed cur u v) : Passed cur t v where
  initproc := h2.initproc.trans h1.initproc
  nextpid := h2.nextpid.trans h1.nextpid
  births := h2.births.trans h1.births
  log := h2.log.trans h1.log
  rest q := by rw [h2.rest q, h1.rest q]
  parent q := by
    have hu := h1.parent q
    have hv := h2.parent q
    rw [h1.initproc] at hv
    rcases hv with hv | ⟨hv, hi⟩
    · rwa [hv]
    · refine .inr ⟨?_, hi⟩
      rcases hu with hu | hu
      · rwa [← hu]
      · exact hu.1
  state q := by
    have hu := h1.state q
    have hv := h2.state q
    have hc : (u.proc q).chan = (t.proc q).chan := by rw [h1.rest q]
    rw [h1.initproc, hc] at hv
    rcases hv with hv | ⟨hs, hch, hv⟩
    · rwa [hv]
    refine .inr ⟨?_, hch, hv⟩
    rcases hu with hu | ⟨-, -, hu⟩
    · rwa [← hu]
    · rw [hu] at hs
      cases hs

theorem wakeup (t : Ptable) : Passed cur t (t.wakeup1 (some (.proc t.initproc))) := by
  refine ⟨rfl, rfl, rfl, rfl, fun q => ?_, fun q => ?_, fun q => ?_⟩
  · rw [wakeup1_proc]
  · left
    rw [wakeup1_proc]
  · rw [wakeup1_proc]
    by_cases h : (t.proc q).state = .sleeping ∧ (t.proc q).chan = some (.proc t.initproc)
    · exact .inr ⟨h.1, h.2, if_pos h⟩
    · exact .inl (if_neg h)

theorem set (h : (t.proc p).parent = some cur) :
    Passed cur t (t.set p { t.proc p with parent := some t.initproc }) := by
  refine ⟨rfl, rfl, rfl, rfl, fun q => ?_, fun q => ?_, fun q => ?_⟩
  all_goals
    by_cases hq : q = p
    · subst hq
      simp [h]
    · simp [set_of_ne hq]

theorem passChild (t : Ptable) (cur p : Slot) : Passed cur t (Ptable.passChild cur t p) := by
  unfold Ptable.passChild
  split
  · rename_i hp
    dsimp only
    split
    · exact (set hp).trans (wakeup _)
    · exact set hp
  · exact refl t

theorem awake (h : Passed cur t u) (ht : ¬((t.proc q).state = .sleeping ∧
    (t.proc q).chan = some (.proc t.initproc))) :
    ¬((u.proc q).state = .sleeping ∧ (u.proc q).chan = some (.proc t.initproc)) := by
  rw [h.rest q]
  rintro ⟨hs, hc⟩
  rcases h.state q with hst | ⟨-, -, hst⟩
  · exact ht ⟨hst ▸ hs, hc⟩
  · rw [hst] at hs
    cases hs

theorem orphan (h : Passed cur t u) (hi : t.initproc ≠ cur)
    (ht : (t.proc q).parent ≠ some cur) : (u.proc q).parent ≠ some cur := by
  rcases h.parent q with hq | ⟨-, hq⟩
  · rwa [hq]
  · rw [hq]
    exact fun he => hi (Option.some.inj he)

end Passed

theorem passChild_self (cur p : Slot) (hi : t.initproc ≠ cur) :
    ((passChild cur t p).proc p).parent ≠ some cur := by
  unfold passChild
  split
  · dsimp only
    split
    · rw [wakeup1_proc, set_self]
      exact fun he => hi (Option.some.inj he)
    · rw [set_self]
      exact fun he => hi (Option.some.inj he)
  · assumption

theorem passChild_of_ne (cur : Slot) (h : q ≠ p) :
    ((passChild cur t p).proc q).parent = (t.proc q).parent := by
  unfold passChild
  split
  · dsimp only
    split
    · rw [wakeup1_proc, set_of_ne h]
    · rw [set_of_ne h]
  · rfl

variable {cur : Slot}

theorem passChild_zombie (hp : (t.proc p).parent = some cur)
    (hz : (t.proc p).state = .zombie) (q : Slot) :
    ¬(((passChild cur t p).proc q).state = .sleeping ∧
      ((passChild cur t p).proc q).chan = some (.proc t.initproc)) := by
  unfold passChild
  rw [if_pos hp]
  dsimp only
  rw [if_pos (by rw [set_self, hz]), wakeup1_proc]
  rintro ⟨hs, hc⟩
  by_cases h : ((t.set p { t.proc p with parent := some t.initproc }).proc q).state = .sleeping
  · rw [if_pos ⟨h, hc⟩] at hs
    cases hs
  · rw [if_neg fun hh => h hh.1] at hs
    exact h hs

theorem foldl_passChild (hi : t.initproc ≠ cur) (l : List Slot) :
    Passed cur t (l.foldl (passChild cur) t) ∧
    (∀ q ∈ l, ((l.foldl (passChild cur) t).proc q).parent ≠ some cur) ∧
    ∀ z ∈ l, (t.proc z).parent = some cur → (t.proc z).state = .zombie →
      ∀ q, ¬(((l.foldl (passChild cur) t).proc q).state = .sleeping ∧
        ((l.foldl (passChild cur) t).proc q).chan = some (.proc t.initproc)) := by
  induction l generalizing t with
  | nil => exact ⟨.refl t, by simp, by simp⟩
  | cons p l ih =>
    have h1 := Passed.passChild t cur p
    obtain ⟨h2, hpar, hwake⟩ := ih (t := passChild cur t p) (by rwa [h1.initproc])
    rw [h1.initproc] at hwake
    refine ⟨h1.trans h2, fun q hq => ?_, fun z hz hzp hzs => ?_⟩
    · rcases List.mem_cons.1 hq with rfl | hq
      · exact h2.orphan (by rwa [h1.initproc]) (passChild_self cur q hi)
      · exact hpar q hq
    by_cases hzq : z = p
    · subst hzq
      intro q
      have := h2.awake (q := q) (by rw [h1.initproc]; exact passChild_zombie hzp hzs q)
      rwa [h1.initproc] at this
    have hz := List.mem_of_ne_of_mem hzq hz
    refine hwake z hz ?_ ?_
    · rw [passChild_of_ne cur hzq, hzp]
    · rcases h1.state z with hst | ⟨hst, -⟩
      · rw [hst, hzs]
      · rw [hzs] at hst
        cases hst

structure Exited (cur : Slot) (t u : Ptable) : Prop where
  initproc : u.initproc = t.initproc
  nextpid : u.nextpid = t.nextpid
  births : u.births = t.births
  log : u.log = .exit (t.proc cur).born :: t.log
  rest : ∀ q, u.proc q = { t.proc q with state := (u.proc q).state, parent := (u.proc q).parent }
  parent : ∀ q, (u.proc q).parent =
    if (t.proc q).parent = some cur then some t.initproc else (t.proc q).parent
  self : (u.proc cur).state = .zombie
  state : ∀ q, q ≠ cur → (u.proc q).state = (t.proc q).state ∨
    (t.proc q).state = .sleeping ∧ (u.proc q).state = .runnable
  wakesParent : ∀ q r, (t.proc cur).parent = some r → (u.proc q).state = .sleeping →
    (u.proc q).chan ≠ some (.proc r)
  wakesInit : ∀ q z, (t.proc z).parent = some cur → (t.proc z).state = .zombie →
    (u.proc q).state = .sleeping → (u.proc q).chan ≠ some (.proc t.initproc)

theorem exited (t : Ptable) (hi : t.initproc ≠ cur) : Exited cur t (t.exit cur) := by
  have hi' : (t.wakeup1 ((t.proc cur).parent.map .proc)).initproc ≠ cur := hi
  obtain ⟨hp, hpar, hwake⟩ := foldl_passChild hi' (.finRange NPROC)
  change Passed cur _ ((t.wakeup1 ((t.proc cur).parent.map .proc)).passChildren cur) at hp
  generalize hu : (t.wakeup1 ((t.proc cur).parent.map .proc)).passChildren cur = u at hp
  have hu' : (List.finRange NPROC).foldl (passChild cur)
      (t.wakeup1 ((t.proc cur).parent.map .proc)) = u := hu
  rw [hu'] at hpar hwake
  have hrest : ∀ q, u.proc q =
      { t.proc q with state := (u.proc q).state, parent := (u.proc q).parent } := by
    intro q
    rw [hp.rest q, wakeup1_proc]
  have hexit : t.exit cur = (u.set cur { u.proc cur with state := .zombie }).record
      (.exit (u.proc cur).born) := by
    rw [← hu]
    rfl
  have hof : ∀ q, q ≠ cur → (t.exit cur).proc q = u.proc q := by
    intro q hq
    rw [hexit]
    exact set_of_ne hq
  have hself : (t.exit cur).proc cur = { u.proc cur with state := .zombie } := by
    rw [hexit]
    exact set_self
  have hstate : ∀ q, (u.proc q).state = (t.proc q).state ∨
      (t.proc q).state = .sleeping ∧ (u.proc q).state = .runnable := by
    intro q
    have h1 := hp.state q
    rw [wakeup1_proc] at h1
    grind
  refine ⟨?_, ?_, ?_, ?_, fun q => ?_, fun q => ?_, ?_, fun q hq => ?_, fun q r hr hs => ?_,
    fun q z hz hzs hs => ?_⟩
  · rw [hexit]
    exact hp.initproc
  · rw [hexit]
    exact hp.nextpid
  · rw [hexit]
    exact hp.births
  · rw [hexit, show (u.proc cur).born = (t.proc cur).born by rw [hrest cur]]
    exact congrArg _ hp.log
  · by_cases hq : q = cur
    · subst hq
      rw [hself, hrest q]
    · rw [hof q hq]
      exact hrest q
  · have hparq : (u.proc q).parent =
        if (t.proc q).parent = some cur then some t.initproc else (t.proc q).parent := by
      have h1 := hp.parent q
      have h2 := hpar q (List.mem_finRange q)
      rw [wakeup1_proc] at h1
      split
      · rename_i hc
        rcases h1 with h1 | h1
        · exact absurd (h1.trans hc) h2
        · exact h1.2
      · rename_i hc
        rcases h1 with h1 | h1
        · exact h1
        · exact absurd h1.1 hc
    by_cases hq : q = cur
    · subst hq
      rw [hself]
      exact hparq
    · rw [hof q hq]
      exact hparq
  · rw [hself]
  · rw [hof q hq]
    exact hstate q
  · by_cases hq : q = cur
    · subst hq
      rw [hself] at hs
      cases hs
    rw [hof q hq] at hs ⊢
    intro hc
    have hc' : (t.proc q).chan = some (.proc r) := by
      rw [hrest q] at hc
      exact hc
    have hw := hp.state q
    rw [wakeup1_proc, hr] at hw
    simp only [hc', Option.map_some, and_true, hs] at hw
    grind
  · by_cases hq : q = cur
    · subst hq
      rw [hself] at hs
      cases hs
    rw [hof q hq] at hs ⊢
    intro hc
    refine hwake z (List.mem_finRange z) ?_ ?_ q ⟨hs, hc⟩
    · rw [wakeup1_proc, hz]
    · rw [wakeup1_proc, hzs]
      simp

theorem zombieChild_some {z : Slot} (h : t.zombieChild p = some z) :
    (t.proc z).parent = some p ∧ (t.proc z).state = .zombie := by
  simpa using List.find?_some h

theorem zombieChild_none (h : t.zombieChild p = none) (hq : (t.proc q).parent = some p) :
    (t.proc q).state ≠ .zombie := by
  have := List.find?_eq_none.1 h q (List.mem_finRange q)
  simpa [hq] using this

theorem findUnused_some {np : Slot} (h : t.findUnused = some np) : (t.proc np).state = .unused := by
  simpa using List.find?_some h

inductive Change (ok : Ptable → Slot → Act → Prop) (t : Ptable) : Ptable → Prop
  | tune (p : Slot) (x : Proc) (hp : (t.proc p).Live) (hx : x.Live)
      (hsame : x = { t.proc p with state := x.state, chan := x.chan, resume := x.resume })
      (hwait : x.state = .sleeping → x.chan = some (.proc p) → t.zombieChild p = none) :
      Change ok t (t.set p x)
  | wakeup (chan : Option Chan) : Change ok t (t.wakeup1 chan)
  | kill (p : Slot) (pid : Int32) (hok : ok t p (.kill pid)) :
      Change ok t ((t.kill pid).1.record (.kill pid))
  | exit (p : Slot) (hp : (t.proc p).Live) (hi : p ≠ t.initproc) (hf : (t.proc p).fork = .no) :
      Change ok t (t.exit p)
  | reap (p z : Slot) (hp : (t.proc p).Live) (hz : t.zombieChild p = some z) :
      Change ok t (t.reap p z)
  | alloc (p np : Slot) (hp : (t.proc p).Live) (hf : (t.proc p).fork = .no)
      (hnp : t.findUnused = some np) :
      Change ok t ((t.allocproc p np).setFork p (.alloc np))
  | fail (p np : Slot) (hf : (t.proc p).fork = .alloc np) (hok : ok t p .fail) :
      Change ok t ((t.forkFail np).setFork p .no)
  | adopt (p np : Slot) (hf : (t.proc p).fork = .alloc np) :
      Change ok t ((t.adopt p np).setFork p (.adopted np))
  | done (p np : Slot) (hf : (t.proc p).fork = .adopted np) :
      Change ok t ((t.forkDone np).setFork p .no)

theorem setFork_self {f : Fork} : (t.setFork p f).proc p = { t.proc p with fork := f } := set_self

theorem setFork_of_ne {f : Fork} (h : q ≠ p) : (t.setFork p f).proc q = t.proc q := set_of_ne h

theorem setFork_proc (f : Fork) (q : Slot) : (t.setFork p f).proc q =
    { t.proc q with fork := if q = p then f else (t.proc q).fork } := by
  by_cases h : q = p
  · subst h
    simp [setFork_self]
  · simp [setFork_of_ne h, h]

theorem findPid_some {pid : Int32} (h : t.findPid pid = some p) : (t.proc p).pid = pid := by
  simpa using List.find?_some h

theorem kill_proc (t : Ptable) (pid : Int32) (q : Slot) : (t.kill pid).1.proc q =
    if t.findPid pid = some q then { t.proc q with
      killed := true
      state := if (t.proc q).state = .sleeping then .runnable else (t.proc q).state }
    else t.proc q := by
  unfold kill
  cases hf : t.findPid pid with
  | none => simp
  | some p =>
    by_cases hq : q = p
    · subst hq
      simp
    · simp [set_of_ne hq, Ne.symm hq]

theorem kill_rest (t : Ptable) (pid : Int32) :
    (t.kill pid).1 = { t with proc := (t.kill pid).1.proc } := by
  unfold kill
  split <;> rfl

structure Forking (t : Ptable) : Prop where
  embryo : ∀ p np, (t.proc p).Claims np → (t.proc np).state = .embryo
  only : ∀ p q np, (t.proc p).Claims np → (t.proc q).Claims np → p = q
  live : ∀ p np, (t.proc p).Claims np → (t.proc p).Live

namespace Forking

variable {u : Ptable} {np : Slot} {ok : Ptable → Slot → Act → Prop} (h : Forking t)
include h

theorem ne (hp : (t.proc p).Claims np) : p ≠ np := by
  rintro rfl
  exact (h.live p p hp).ne.2.1 (h.embryo p p hp)

theorem same (hf : ∀ q, (u.proc q).fork = (t.proc q).fork)
    (he : ∀ q, (t.proc q).state = .embryo → (u.proc q).state = .embryo)
    (hl : ∀ q, (t.proc q).Live → (t.proc q).fork ≠ .no → (u.proc q).Live) : Forking u := by
  have hc : ∀ p np, (u.proc p).Claims np ↔ (t.proc p).Claims np := by
    intro p np
    rw [Proc.Claims, Proc.Claims, hf]
  refine ⟨fun p np hp => ?_, fun p q np hp hq => ?_, fun p np hp => ?_⟩
  · exact he np (h.embryo p np ((hc p np).1 hp))
  · exact h.only p q np ((hc p np).1 hp) ((hc q np).1 hq)
  · have hp := (hc p np).1 hp
    refine hl p (h.live p np hp) ?_
    rcases hp with hp | hp <;> simp [hp]

theorem goOn {f : Fork} (hp : p ≠ np) (hlive : (t.proc p).Live)
    (hothers : ∀ q, q ≠ p → ¬(t.proc q).Claims np) (hf : ∀ q, (u.proc q).fork = (t.proc q).fork)
    (hstate : ∀ q, q ≠ np → (u.proc q).state = (t.proc q).state)
    (hnp : ∀ m, f = .alloc m ∨ f = .adopted m → m = np ∧ (u.proc np).state = .embryo)
    (hnpf : (t.proc np).fork = .no) : Forking (u.setFork p f) := by
  have hc : ∀ q m, ((u.setFork p f).proc q).Claims m →
      (q = p ∧ m = np ∧ (u.proc np).state = .embryo) ∨ (q ≠ p ∧ (t.proc q).Claims m) := by
    intro q m hq
    rw [Proc.Claims, setFork_proc] at hq
    by_cases hqp : q = p
    · subst hqp
      simp only [↓reduceIte] at hq
      exact .inl ⟨rfl, hnp m hq⟩
    · simp only [hqp, ↓reduceIte, hf] at hq
      exact .inr ⟨hqp, hq⟩
  have hst : ∀ q, ((u.setFork p f).proc q).state = (u.proc q).state := by
    intro q
    rw [setFork_proc]
  refine ⟨fun q m hq => ?_, fun q r m hq hr => ?_, fun q m hq => ?_⟩
  · rw [hst]
    rcases hc q m hq with ⟨-, rfl, he⟩ | ⟨hqp, hq⟩
    · exact he
    have hm : m ≠ np := by
      rintro rfl
      exact hothers q hqp hq
    rw [hstate m hm]
    exact h.embryo q m hq
  · rcases hc q m hq with ⟨rfl, rfl, -⟩ | ⟨hqp, hq⟩
    · rcases hc r m hr with ⟨rfl, -, -⟩ | ⟨hrp, hr⟩
      · rfl
      · exact absurd hr (hothers r hrp)
    · rcases hc r m hr with ⟨-, rfl, -⟩ | ⟨-, hr⟩
      · exact absurd ‹(t.proc q).Claims m› (hothers q hqp)
      · exact h.only q r m ‹(t.proc q).Claims m› hr
  · rw [Proc.Live, hst]
    rcases hc q m hq with ⟨rfl, -, -⟩ | ⟨-, hq⟩
    · rw [hstate q hp]
      exact hlive
    have hqn : q ≠ np := by
      rintro rfl
      rcases hq with hq | hq <;> simp [hnpf] at hq
    rw [hstate q hqn]
    exact h.live q m hq

theorem fork_of_not_live (hp : ¬(t.proc p).Live) : (t.proc p).fork = .no := by
  cases hf : (t.proc p).fork with
  | no => rfl
  | alloc np => exact absurd (h.live p np (.inl hf)) hp
  | adopted np => exact absurd (h.live p np (.inr hf)) hp

theorem claimed {f : Fork} {x : Proc} (hcl : (t.proc p).Claims np) (hxf : x.fork = (t.proc np).fork)
    (hf : ∀ m, f = .alloc m ∨ f = .adopted m → m = np ∧ x.state = .embryo) :
    Forking ((t.set np x).setFork p f) := by
  refine h.goOn (h.ne hcl) (h.live p np hcl) (fun q hq hqc => hq (h.only q p np hqc hcl))
    (fun q => ?_) (fun q hq => by rw [set_of_ne hq]) (fun m hm => ?_)
    (h.fork_of_not_live fun hl => hl.ne.2.1 (h.embryo p np hcl))
  · by_cases hq : q = np
    · subst hq
      rw [set_self, hxf]
    · rw [set_of_ne hq]
  · rw [set_self]
    exact hf m hm

theorem change (hc : Change ok t u) : Forking u := by
  cases hc with
  | tune p x hp hx hsame hwait =>
    refine h.same (fun q => ?_) (fun q hq => ?_) fun q hq _ => ?_
    · by_cases hqp : q = p
      · subst hqp
        rw [set_self, hsame]
      · rw [set_of_ne hqp]
    · have hqp : q ≠ p := by
        rintro rfl
        exact hp.ne.2.1 hq
      rwa [set_of_ne hqp]
    · by_cases hqp : q = p
      · subst hqp
        rwa [set_self]
      · rwa [set_of_ne hqp]
  | wakeup chan =>
    refine h.same (fun q => ?_) (fun q hq => ?_) fun q hq _ => ?_
    · rw [wakeup1_proc]
    · rw [wakeup1_proc]
      simp [hq]
    rw [wakeup1_proc, Proc.Live]
    dsimp only
    split
    · exact .inl rfl
    · exact hq
  | kill _ pid _ =>
    refine h.same (fun q => ?_) (fun q hq => ?_) fun q hq _ => ?_
    · show ((t.kill pid).1.proc q).fork = _
      rw [kill_proc]
      split <;> rfl
    · show ((t.kill pid).1.proc q).state = _
      rw [kill_proc]
      split
      · simp [hq]
      · exact hq
    show ((t.kill pid).1.proc q).Live
    rw [kill_proc]
    split
    · rw [Proc.Live]
      dsimp only
      split
      · exact .inl rfl
      · exact hq
    · exact hq
  | exit p hp hi hf =>
    have he := exited t (.symm hi)
    refine h.same (fun q => by rw [he.rest q]) (fun q hq => ?_) fun q hq hqf => ?_
    · have hqp : q ≠ p := by
        rintro rfl
        exact hp.ne.2.1 hq
      rcases he.state q hqp with hs | ⟨hs, -⟩
      · rw [hs, hq]
      · simp [hq] at hs
    · have hqp : q ≠ p := by
        rintro rfl
        exact hqf hf
      rw [Proc.Live]
      rcases he.state q hqp with hs | ⟨-, hs⟩
      · rw [hs]
        exact hq
      · exact .inl hs
  | reap p z hp hz =>
    obtain ⟨-, hzs⟩ := zombieChild_some hz
    have hof : ∀ q, q ≠ z → (t.reap p z).proc q = t.proc q := fun q hq => set_of_ne hq
    have hself : ((t.reap p z).proc z).fork = (t.proc z).fork := by
      show ((t.set z _).proc z).fork = _
      rw [set_self]
    refine h.same (fun q => ?_) (fun q hq => ?_) fun q hq _ => ?_
    · by_cases hqz : q = z
      · rw [hqz, hself]
      · rw [hof q hqz]
    · have hqz : q ≠ z := by
        rintro rfl
        simp [hzs] at hq
      rwa [hof q hqz]
    · have hqz : q ≠ z := by
        rintro rfl
        exact hq.ne.2.2 hzs
      rwa [hof q hqz]
  | alloc p np hp hf hnp =>
    have hun := findUnused_some hnp
    have hpn : p ≠ np := by
      rintro rfl
      exact hp.ne.1 hun
    have hof : ∀ q, q ≠ np → (t.allocproc p np).proc q = t.proc q := fun q hq => set_of_ne hq
    have hself : (t.allocproc p np).proc np = { t.proc np with
        state := .embryo, pid := t.nextpid, resume := .forkret, born := t.births } := set_self
    refine h.goOn hpn hp (fun q _ hq => ?_) (fun q => ?_) (fun q hq => by rw [hof q hq])
      (fun m hm => ?_) (h.fork_of_not_live fun hl => hl.ne.1 hun)
    · have := h.embryo q np hq
      simp [hun] at this
    · by_cases hq : q = np
      · rw [hq, hself]
      · rw [hof q hq]
    · rcases hm with hm | hm
      · cases hm
        exact ⟨rfl, by rw [hself]⟩
      · cases hm
  | fail p np hf _ => exact h.claimed (.inl hf) rfl fun m hm => by simp at hm
  | adopt p np hf =>
    refine h.claimed (.inl hf) rfl fun m hm => ⟨?_, h.embryo p np (.inl hf)⟩
    simpa [eq_comm] using hm
  | done p np hf => exact h.claimed (.inr hf) rfl fun m hm => by simp at hm

theorem any (hc : Change (fun _ _ _ => True) t u) : Forking u := h.change hc

end Forking

end Ptable

end Xv6.Procs
