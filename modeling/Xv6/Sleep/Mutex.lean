import Xv6.Sleep.Lock

open Function (update update_self update_of_ne)

namespace Xv6.Sleep

open Lib

namespace Pc

variable {P : Type}

def holdsLk : Pc P → Bool
  | test | sleepAcquire | sleepRelease | setLocked | setPid | acquireEnd => true
  | clearLocked | clearPid | wakeAcquire | wake | wakeRelease | releaseEnd => true
  | _ => false

def holdsPtable : Pc P → Bool
  | sleepRelease | setChan | setSleeping | sched | clearChan | wokenRelease => true
  | wake | wakeRelease | kill _ | killRelease => true
  | _ => false

def owns : Pc P → Bool
  | setPid | acquireEnd | held | releaseLk | clearLocked => true
  | _ => false

def waits : Pc P → Bool
  | sleepAcquire | sleepRelease | setChan | setSleeping => true
  | _ => false

def wakes : Pc P → Bool
  | clearPid | wakeAcquire | wake => true
  | _ => false

end Pc

variable {P : Type}

def Proc.Drowsy (x : Proc P) : Prop :=
  x.pc.waits = true ∨ x.state = .sleeping ∧ x.chan = true

structure Inv (s : Sys P) : Prop where
  lk : ∀ p, s.lk = some p ↔ (s.proc p).pc.holdsLk = true
  ptable : ∀ p, s.ptable = some (.proc p) ↔ (s.proc p).pc.holdsPtable = true
  cpu : ∀ p, (s.proc p).state = .running ∨ (s.proc p).pc = .off ∨ (s.proc p).pc = .sched
  owner : ∀ p, (s.proc p).pc.owns = true → s.locked = true
  one : ∀ p q, (s.proc p).pc.owns = true → (s.proc q).pc.owns = true → p = q
  free : ∀ p, (s.proc p).pc = .setLocked → s.locked = false
  waits : ∀ p, (s.proc p).Drowsy → s.locked = true ∨ ∃ q, (s.proc q).pc.wakes = true

inductive Passes {O : Type} (f : P → O) (p : P) : Option O → Option O → Bool → Bool → Prop
  | keep (o : Option O) (b : Bool) : Passes f p o o b b
  | take {o : Option O} (h : ∀ q, o ≠ some (f q)) : Passes f p o (some (f p)) false true
  | give {o o' : Option O} (h : ∀ q, o' ≠ some (f q)) : Passes f p o o' true false

theorem Passes.holder [DecidableEq P] {O : Type} {f : P → O} (hf : Function.Injective f) {p q : P}
    {o o' : Option O} {b b' : Bool} (h : Passes f p o o' b b') {c : P → Bool}
    (hc : ∀ r, o = some (f r) ↔ c r = true) (hb : c p = b) :
    o' = some (f q) ↔ (if q = p then b' else c q) = true := by
  split
  · rename_i hq
    subst hq
    cases h with
    | keep => exact hb ▸ hc q
    | take hno => simp
    | give hno => simp [hno q]
  · rename_i hq
    have hne : ∀ {o : Option O}, o = some (f p) → o ≠ some (f q) := by
      rintro _ rfl he
      exact hq (hf (Option.some.inj he)).symm
    rw [← hc q]
    cases h with
    | keep => exact .rfl
    | take hno => exact ⟨fun he => absurd he (hne rfl), fun he => absurd he (hno q)⟩
    | give hno => exact ⟨fun he => absurd he (hno q), fun he => absurd he (hne ((hc p).2 hb))⟩

section
variable [DecidableEq P] {s s' : Sys P} {p : P}

structure Pc.Next (pc pc' : Pc P) (b b' : Bool) : Prop where
  owns : pc'.owns = true → pc.owns = true ∧ b' = b ∨ b = false ∧ b' = true
  set : b' = true → b = true ∨ pc = .setLocked
  clear : b = true → b' = true ∨ pc.owns = true ∧ pc'.wakes = true
  free : pc' = .setLocked → b' = false

theorem Inv.move {pc : Pc P} {x : Proc P} (h : Inv s) (hp : (s.proc p).pc = pc)
    (hproc : s'.proc = update s.proc p x) (hlk : Passes id p s.lk s'.lk pc.holdsLk x.pc.holdsLk)
    (hpt : Passes Owner.proc p s.ptable s'.ptable pc.holdsPtable x.pc.holdsPtable)
    (hnext : pc.Next x.pc s.locked s'.locked)
    (hcpu : x.state = .running ∨ x.pc = .off ∨ x.pc = .sched)
    (hwakes : pc.wakes = true → x.pc.wakes = true ∨ ∀ q, ¬(s'.proc q).Drowsy)
    (hdrowsy : x.Drowsy → (s.proc p).Drowsy ∨ s'.locked = true) : Inv s' := by
  subst hp
  have hself : s'.proc p = x := by rw [hproc, update_self]
  have hother : ∀ q, q ≠ p → s'.proc q = s.proc q := fun q hq => by
    rw [hproc, update_of_ne hq]
  have hwake : ∀ r, (s'.proc r).Drowsy →
      (s.locked = true ∨ ∃ q, (s.proc q).pc.wakes = true) →
      s'.locked = true ∨ ∃ q, (s'.proc q).pc.wakes = true := by
    rintro r hr (hl | ⟨q, hq⟩)
    · rcases hnext.clear hl with hl | ⟨-, hx⟩
      · exact .inl hl
      · exact .inr ⟨p, by rwa [hself]⟩
    by_cases hqp : q = p
    · subst hqp
      rcases hwakes hq with hx | hno
      · exact .inr ⟨q, by rwa [hself]⟩
      · exact absurd hr (hno r)
    · exact .inr ⟨q, by rwa [hother q hqp]⟩
  have hlocked : ∀ q, q ≠ p → (s.proc q).pc.owns = true → s'.locked = true := by
    intro q hq ho
    rcases hnext.clear (h.owner q ho) with hl | ⟨hp, -⟩
    · exact hl
    · exact absurd (h.one q p ho hp) hq
  have hone : ∀ q, q ≠ p → (s.proc q).pc.owns = true → x.pc.owns = true → False := by
    intro q hq ho hx
    rcases hnext.owns hx with ⟨hp, -⟩ | ⟨hl, -⟩
    · exact hq (h.one q p ho hp)
    · rw [h.owner q ho] at hl
      exact absurd hl (by decide)
  have hpc : ∀ {β : Type} (g : Pc P → β) (q : P),
      g (s'.proc q).pc = if q = p then g x.pc else g (s.proc q).pc := by
    intro β g q
    split
    · rename_i hq
      rw [hq, hself]
    · rename_i hq
      rw [hother q hq]
  constructor
  · intro q
    rw [hpc Pc.holdsLk]
    exact hlk.holder Function.injective_id h.lk rfl
  · intro q
    rw [hpc Pc.holdsPtable]
    exact hpt.holder (fun _ _ he => Owner.proc.inj he) h.ptable rfl
  · intro q
    by_cases hq : q = p
    · subst hq
      rwa [hself]
    · rw [hother q hq]
      exact h.cpu q
  · intro q ho
    by_cases hq : q = p
    · subst hq
      rw [hself] at ho
      rcases hnext.owns ho with ⟨hq, hl⟩ | ⟨-, hl⟩
      · rw [hl, h.owner q hq]
      · exact hl
    · rw [hother q hq] at ho
      exact hlocked q hq ho
  · intro q r hq hr
    by_cases hqp : q = p <;> by_cases hrp : r = p
    · rw [hqp, hrp]
    · rw [hqp, hself] at hq
      rw [hother r hrp] at hr
      exact (hone r hrp hr hq).elim
    · rw [hother q hqp] at hq
      rw [hrp, hself] at hr
      exact (hone q hqp hq hr).elim
    · rw [hother q hqp] at hq
      rw [hother r hrp] at hr
      exact h.one q r hq hr
  · intro q hfree
    by_cases hq : q = p
    · subst hq
      rw [hself] at hfree
      exact hnext.free hfree
    rw [hother q hq] at hfree
    have hl := h.free q hfree
    refine Bool.eq_false_iff.2 fun hl' => ?_
    rcases hnext.set hl' with hl' | hp
    · rw [hl] at hl'
      exact absurd hl' (by decide)
    have hlkq := (h.lk q).2 (by rw [hfree]; rfl)
    have hlkp := (h.lk p).2 (by rw [hp]; rfl)
    rw [hlkq] at hlkp
    exact hq (Option.some.inj hlkp)
  · intro q hd
    refine (Decidable.em (s'.locked = true)).elim .inl fun hl => hwake q hd (h.waits q ?_)
    by_cases hq : q = p
    · subst hq
      rw [hself] at hd
      exact (hdrowsy hd).resolve_right hl
    · rwa [hother q hq] at hd

omit [DecidableEq P] in
theorem Inv.rouse (h : Inv s) (hlk : s'.lk = s.lk) (hpt : s'.ptable = s.ptable)
    (hl : s'.locked = s.locked) (hpc : ∀ q, (s'.proc q).pc = (s.proc q).pc)
    (hchan : ∀ q, (s'.proc q).chan = (s.proc q).chan)
    (hst : ∀ q, (s'.proc q).state = (s.proc q).state ∨
      (s.proc q).state = .sleeping ∧ (s'.proc q).state = .runnable) : Inv s' where
  lk q := by rw [hlk, hpc, h.lk]
  ptable q := by rw [hpt, hpc, h.ptable]
  cpu q := by
    rw [hpc]
    rcases hst q with he | ⟨he, -⟩
    · rw [he]
      exact h.cpu q
    · refine .inr ((h.cpu q).resolve_left ?_)
      rw [he]
      decide
  owner q hq := by
    rw [hl]
    exact h.owner q (by rwa [← hpc])
  one q r hq hr := h.one q r (by rwa [← hpc]) (by rwa [← hpc])
  free q hq := by
    rw [hl]
    exact h.free q (by rwa [← hpc])
  waits q hq := by
    have hd : (s.proc q).Drowsy := by
      refine hq.imp (fun hw => by rwa [← hpc]) fun ⟨hs, hc⟩ => ⟨?_, by rwa [← hchan]⟩
      rcases hst q with he | ⟨-, he⟩
      · rwa [← he]
      · rw [he] at hs
        exact absurd hs (by decide)
    rw [hl]
    simpa only [hpc] using h.waits q hd

omit [DecidableEq P] in
theorem wakeup_pc (s : Sys P) (q : P) : (s.wakeup.proc q).pc = (s.proc q).pc := by
  unfold Sys.wakeup
  dsimp only
  split <;> rfl

theorem killProc_pc (s : Sys P) (q r : P) : ((s.killProc q).proc r).pc = (s.proc r).pc := by
  unfold Sys.killProc Sys.set
  by_cases hr : r = q
  · subst hr
    dsimp only
    rw [update_self]
  · dsimp only
    rw [update_of_ne hr]

omit [DecidableEq P] in
theorem Inv.wakeup (h : Inv s) : Inv s.wakeup := by
  refine h.rouse rfl rfl rfl (wakeup_pc s) (fun q => ?_) fun q => ?_
  all_goals
    unfold Sys.wakeup
    dsimp only
    split
  · rfl
  · rfl
  · exact .inr ⟨(‹_ ∧ _›).1, rfl⟩
  · exact .inl rfl

theorem Inv.killProc (h : Inv s) (q : P) : Inv (s.killProc q) := by
  have hcases : ∀ r, (s.killProc q).proc r = s.proc r ∨
      r = q ∧ (s.killProc q).proc r = { s.proc r with
        killed := true
        state := if (s.proc r).state = .sleeping then .runnable else (s.proc r).state } := by
    intro r
    by_cases hr : r = q
    · subst hr
      exact .inr ⟨rfl, update_self ..⟩
    · exact .inl (update_of_ne hr _ _)
  refine h.rouse rfl rfl rfl (killProc_pc s q) (fun r => ?_) fun r => ?_
  all_goals rcases hcases r with he | ⟨-, he⟩ <;> rw [he]
  · exact .inl rfl
  · dsimp only
    split
    · exact .inr ⟨‹_›, rfl⟩
    · exact .inl rfl

omit [DecidableEq P] in
theorem Inv.no_drowsy (h : Inv s) (hp : (s.proc p).pc = .wake) (q : P) :
    ¬(s.wakeup.proc q).Drowsy := by
  have hlk := (h.lk p).2 (by rw [hp]; rfl)
  have hpt := (h.ptable p).2 (by rw [hp]; rfl)
  have hq : (s.proc q).pc.waits = true → q = p := by
    intro hw
    have hholds : (s.proc q).pc.holdsLk = true ∨ (s.proc q).pc.holdsPtable = true := by
      revert hw
      cases (s.proc q).pc <;> simp [Pc.waits, Pc.holdsLk, Pc.holdsPtable]
    rcases hholds with hh | hh
    · have := (h.lk q).2 hh
      rw [hlk] at this
      exact (Option.some.inj this).symm
    · have := (h.ptable q).2 hh
      rw [hpt] at this
      exact (Owner.proc.inj (Option.some.inj this)).symm
  rintro (hw | ⟨hs, hc⟩)
  · rw [wakeup_pc] at hw
    have := hq hw
    subst this
    rw [hp] at hw
    exact absurd hw Bool.false_ne_true
  unfold Sys.wakeup at hs hc
  dsimp only at hs hc
  split at hs
  · exact State.noConfusion hs
  · rename_i hn
    rw [if_neg hn] at hc
    exact hn ⟨hs, hc⟩

structure Pc.Calm (pc pc' : Pc P) : Prop where
  on : pc ≠ .off ∧ pc ≠ .sched
  owns : pc'.owns = true → pc.owns = true
  free : pc' ≠ .setLocked
  wakes : pc.wakes = true → pc'.wakes = true
  waits : pc'.waits = true → pc.waits = true

variable {pc pc' : Pc P}

section
variable (h : Inv s) (hp : (s.proc p).pc = pc)
include h hp

theorem Inv.walk (hcalm : pc.Calm pc') (hproc : s'.proc = (s.goto p pc').proc)
    (hl : s'.locked = s.locked) (hlk : Passes id p s.lk s'.lk pc.holdsLk pc'.holdsLk)
    (hpt : Passes Owner.proc p s.ptable s'.ptable pc.holdsPtable pc'.holdsPtable) : Inv s' := by
  have hrun : (s.proc p).state = .running := by
    rcases h.cpu p with h | h | h
    · exact h
    · exact absurd (hp ▸ h) hcalm.on.1
    · exact absurd (hp ▸ h) hcalm.on.2
  refine h.move hp hproc hlk hpt ⟨?_, ?_, ?_, ?_⟩ (.inl hrun) (fun hw => .inl (hcalm.wakes hw)) ?_
  · exact fun ho => .inl ⟨hcalm.owns ho, hl⟩
  · exact fun hb => .inl (hl ▸ hb)
  · exact fun hb => .inl (hl ▸ hb)
  · exact fun hf => absurd hf hcalm.free
  · rintro (hw | ⟨hs, -⟩)
    · exact .inl (.inl (hp ▸ hcalm.waits hw))
    · exact absurd (hrun.symm.trans hs) State.noConfusion

theorem Inv.takeLk (hstep : s.takeLk p pc' = some s') (hcalm : pc.Calm pc')
    (hno : pc.holdsLk = false)
    (hyes : pc'.holdsLk = true) (hsame : pc.holdsPtable = pc'.holdsPtable) : Inv s' := by
  unfold Sys.takeLk at hstep
  split at hstep
  · rename_i hfree
    cases hstep
    refine h.walk hp hcalm rfl rfl ?_ (hsame ▸ .keep _ _)
    rw [hno, hyes]
    exact .take fun q hq => absurd (hfree.symm.trans hq) (Option.some_ne_none _).symm
  · cases hstep

theorem Inv.takePtable
    (hstep : s.takePtable p pc' = some s') (hcalm : pc.Calm pc') (hno : pc.holdsPtable = false)
    (hyes : pc'.holdsPtable = true) (hsame : pc.holdsLk = pc'.holdsLk) : Inv s' := by
  unfold Sys.takePtable at hstep
  split at hstep
  · rename_i hfree
    cases hstep
    refine h.walk hp hcalm rfl rfl (hsame ▸ .keep _ _) ?_
    rw [hno, hyes]
    exact .take fun q hq => absurd (hfree.symm.trans hq) (Option.some_ne_none _).symm
  · cases hstep

end

omit [DecidableEq P] in
theorem not_drowsy {x : Proc P} (hrun : x.state = .running) (hw : x.pc.waits = false) :
    ¬x.Drowsy := by
  rintro (h | ⟨h, -⟩)
  · exact absurd (hw.symm.trans h) Bool.false_ne_true
  · exact absurd (hrun.symm.trans h) State.noConfusion

theorem Inv.go (h : Inv s) (hstep : s.go p = some s') : Inv s' := by
  have hrun : (s.proc p).pc ≠ .off ∧ (s.proc p).pc ≠ .sched → (s.proc p).state = .running :=
    fun hon => (h.cpu p).resolve_right fun hc => hc.elim hon.1 hon.2
  unfold Sys.go at hstep
  cases hpc : (s.proc p).pc <;> rw [hpc] at hstep hrun <;> dsimp only at hstep
  case idle | held | off => cases hstep
  case acquireLk | releaseLk =>
    exact h.takeLk hpc hstep (by constructor <;> simp [Pc.owns, Pc.wakes, Pc.waits]) rfl rfl rfl
  case sleepAcquire | wakeAcquire | killAcquire =>
    exact h.takePtable hpc hstep (by constructor <;> simp [Pc.owns, Pc.wakes, Pc.waits]) rfl rfl rfl
  all_goals cases hstep
  case test =>
    replace hrun := hrun (by simp)
    cases hl : s.locked with
    | true =>
      rw [if_pos rfl]
      exact h.move hpc rfl (.keep _ _) (.keep _ _) ⟨nofun, .inl, .inl, nofun⟩ (.inl hrun) nofun
        fun _ => .inr hl
    | false =>
      rw [if_neg Bool.false_ne_true]
      exact h.move hpc rfl (.keep _ _) (.keep _ _) ⟨nofun, .inl, .inl, fun _ => hl⟩ (.inl hrun)
        nofun fun hd => absurd hd (not_drowsy hrun rfl)
  case sleepRelease | acquireEnd | releaseEnd =>
    exact h.walk hpc (by constructor <;> simp [Pc.owns, Pc.wakes, Pc.waits]) rfl rfl (.give nofun)
      (.keep _ _)
  case wokenRelease | wakeRelease | killRelease =>
    exact h.walk hpc (by constructor <;> simp [Pc.owns, Pc.wakes, Pc.waits]) rfl rfl (.keep _ _)
      (.give nofun)
  case setPid | clearPid =>
    exact h.walk hpc (by constructor <;> simp [Pc.owns, Pc.wakes, Pc.waits]) rfl rfl (.keep _ _)
      (.keep _ _)
  case setChan =>
    exact h.move hpc rfl (.keep _ _) (.keep _ _) ⟨nofun, .inl, .inl, nofun⟩ (.inl (hrun (by simp)))
      nofun fun _ => .inl (.inl (by rw [hpc]; rfl))
  case setSleeping =>
    exact h.move hpc rfl (.keep _ _) (.keep _ _) ⟨nofun, .inl, .inl, nofun⟩ (.inr (.inr rfl))
      nofun fun _ => .inl (.inl (by rw [hpc]; rfl))
  case sched =>
    refine h.move hpc rfl (.keep _ _) (.give nofun) ⟨nofun, .inl, .inl, nofun⟩ (.inr (.inl rfl))
      nofun ?_
    rintro (hw | hs)
    · exact absurd hw Bool.false_ne_true
    · exact .inl (.inr hs)
  case clearChan =>
    replace hrun := hrun (by simp)
    exact h.move hpc rfl (.keep _ _) (.keep _ _) ⟨nofun, .inl, .inl, nofun⟩ (.inl hrun) nofun
      fun hd => absurd hd (not_drowsy hrun rfl)
  case setLocked =>
    replace hrun := hrun (by simp)
    exact h.move hpc rfl (.keep _ _) (.keep _ _)
      ⟨fun _ => .inr ⟨h.free p hpc, rfl⟩, fun _ => .inr rfl, fun _ => .inl rfl, nofun⟩ (.inl hrun)
      nofun fun hd => absurd hd (not_drowsy hrun rfl)
  case clearLocked =>
    replace hrun := hrun (by simp)
    exact h.move hpc rfl (.keep _ _) (.keep _ _) ⟨nofun, nofun, fun _ => .inr ⟨rfl, rfl⟩, nofun⟩
      (.inl hrun) nofun fun hd => absurd hd (not_drowsy hrun rfl)
  case wake =>
    have hpc' := (wakeup_pc s p).trans hpc
    have hrun' : (s.wakeup.proc p).state = .running := by
      refine (h.wakeup.cpu p).resolve_right ?_
      rw [hpc']
      simp
    have hno : ∀ q, ¬((s.wakeup.goto p .wakeRelease).proc q).Drowsy := by
      intro q
      unfold Sys.goto Sys.set
      by_cases hq : q = p
      · subst hq
        dsimp only
        rw [update_self]
        exact not_drowsy hrun' rfl
      · dsimp only
        rw [update_of_ne hq]
        exact h.no_drowsy hpc q
    exact h.wakeup.move hpc' rfl (.keep _ _) (.keep _ _) ⟨nofun, .inl, .inl, nofun⟩ (.inl hrun')
      (fun _ => .inr hno) fun hd => absurd hd (not_drowsy hrun' rfl)
  case kill q =>
    exact (h.killProc q).walk ((killProc_pc s q p).trans hpc)
      (by constructor <;> simp [Pc.owns, Pc.wakes, Pc.waits]) rfl rfl (.keep _ _) (.keep _ _)

omit [DecidableEq P] in
theorem Inv.scheduler {o : Option (Owner P)} (h : Inv s) (hs : ∀ p, s.ptable ≠ some (.proc p))
    (ho : ∀ p, o ≠ some (.proc p)) : Inv { s with ptable := o } where
  lk := h.lk
  ptable q := by
    rw [← h.ptable q]
    exact ⟨fun he => absurd he (ho q), fun he => absurd he (hs q)⟩
  cpu := h.cpu
  owner := h.owner
  one := h.one
  free := h.free
  waits := h.waits

theorem Inv.step {a : Act P} (h : Inv s) (hstep : s.step a = some s') : Inv s' := by
  cases a with
  | go p => exact h.go hstep
  | acquiresleep p | releasesleep p | kill p q =>
    simp only [Sys.step] at hstep
    split at hstep
    · rename_i hpc
      cases hstep
      exact h.walk hpc (by constructor <;> simp [Pc.owns, Pc.wakes, Pc.waits]) rfl rfl
        (.keep _ _) (.keep _ _)
    · cases hstep
  | enter =>
    simp only [Sys.step] at hstep
    split at hstep
    · rename_i hfree
      cases hstep
      refine h.scheduler (fun p => ?_) nofun
      rw [hfree]
      exact nofun
    · cases hstep
  | leave =>
    simp only [Sys.step] at hstep
    split at hstep
    · rename_i hsched
      cases hstep
      refine h.scheduler (fun p => ?_) nofun
      rw [hsched]
      exact nofun
    · cases hstep
  | dispatch p =>
    simp only [Sys.step] at hstep
    split at hstep
    · rename_i hc
      obtain ⟨hsched, hst⟩ := hc
      cases hstep
      have hpc : (s.proc p).pc = .off := by
        rcases h.cpu p with hrun | hoff | hs
        · exact absurd (hst.symm.trans hrun) State.noConfusion
        · exact hoff
        · have := (h.ptable p).2 (by rw [hs]; rfl)
          rw [hsched] at this
          exact nomatch Option.some.inj this
      refine h.move hpc rfl (.keep _ _) (.take fun q => ?_) ⟨nofun, .inl, .inl, nofun⟩ (.inl rfl)
        nofun fun hd => absurd hd (not_drowsy rfl rfl)
      rw [hsched]
      exact nofun
    · cases hstep

omit [DecidableEq P] in
theorem inv_start : Inv (start P) where
  lk _ := ⟨nofun, nofun⟩
  ptable _ := ⟨nofun, nofun⟩
  cpu _ := .inl rfl
  owner _ := nofun
  one _ _ := nofun
  free _ := nofun
  waits _ hd := absurd hd (not_drowsy rfl rfl)

theorem sleeplock_safe {tr : List (Act P)} (h : exec Sys.step (start P) tr = some s) :
    (∀ p q, (s.proc p).pc = .held → (s.proc q).pc = .held → p = q) ∧
      (s.lk = none → s.ptable = none → ∀ p, (s.proc p).state = .sleeping →
        (s.proc p).chan = true → s.locked = true) := by
  have hinv : Inv s := exec_invariant Inv inv_start (fun _ _ _ h hs => h.step hs) h
  refine ⟨fun p q hp hq => hinv.one p q (by rw [hp]; rfl) (by rw [hq]; rfl), ?_⟩
  intro hlk _ p hs hc
  refine (hinv.waits p (.inr ⟨hs, hc⟩)).resolve_right fun ⟨q, hq⟩ => ?_
  have hholds : (s.proc q).pc.holdsLk = true := by
    revert hq
    cases (s.proc q).pc <;> simp [Pc.wakes, Pc.holdsLk]
  rw [(hinv.lk q).2 hholds] at hlk
  exact absurd hlk (Option.some_ne_none q)

end

theorem sleeplock_safe_contended :
    ∃ s, exec Sys.step (start (Fin 2))
        (.acquiresleep 0 :: List.replicate 5 (.go 0) ++
          .acquiresleep 1 :: List.replicate 7 (.go 1) ++ [.leave]) = some s ∧
      (s.lk = none ∧ s.ptable = none ∧ (s.proc 1).state = .sleeping ∧ (s.proc 1).chan = true) ∧
      s.locked = true := by
  obtain ⟨s, hs, hlk, hpt, hsleep, hchan⟩ := exec_exists Sys.step (start (Fin 2))
    (.acquiresleep 0 :: List.replicate 5 (.go 0) ++
      .acquiresleep 1 :: List.replicate 7 (.go 1) ++ [.leave])
    (fun s => s.lk = none ∧ s.ptable = none ∧ (s.proc 1).state = .sleeping ∧
      (s.proc 1).chan = true) (by decide +kernel)
  exact ⟨s, hs, ⟨hlk, hpt, hsleep, hchan⟩, (sleeplock_safe hs).2 hlk hpt 1 hsleep hchan⟩

end Xv6.Sleep
