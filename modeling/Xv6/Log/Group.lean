import Xv6.Lib.Transition
import Xv6.Log.Header
import Mathlib.Algebra.Order.BigOperators.Group.Finset

namespace Xv6.Log

open Lib Function

inductive Panic
  | committing
  | tooBig
  | outsideTrans
  deriving DecidableEq, Repr

def Panic.message : Panic → String
  | .committing => "log.committing"
  | .tooBig => "too big a transaction"
  | .outsideTrans => "log_write outside of trans"

inductive CommitPc
  | start
  | writeLog (tail : ℕ)
  | writeHead
  | install (tail : ℕ)
  | clear
  | eraseHead
  | finished
  deriving DecidableEq, Repr

inductive Pc
  | idle
  | begin
  | sleeping
  | inOp (epoch : ℕ) (wrote : List ℕ)
  | tested (epoch : ℕ) (wrote : List ℕ) (b : ℕ)
  | committing (c : CommitPc)
  deriving DecidableEq, Repr

structure State (P : Type) where
  outstanding : ℤ
  committing : Bool
  lh : List ℕ
  pc : P → Pc
  panicked : Option Panic
  calls : List ℕ
  commits : List (List ℕ)
  ended : List (ℕ × List ℕ)

def init (P : Type) : State P := ⟨0, false, [], fun _ => .idle, none, [], [], []⟩

inductive Act
  | beginOp
  | logWrite (b : ℕ)
  | endOp
  | run
  | kill
  deriving DecidableEq, Repr

section
variable {P : Type}

def State.panic (s : State P) (e : Panic) : State P := { s with panicked := some e }

def State.wakeup (s : State P) : State P :=
  { s with pc := fun q => if s.pc q = .sleeping then .begin else s.pc q }

def State.MustWait (s : State P) : Prop :=
  s.committing = true ∨ s.lh.length + (s.outstanding + 1) * MAXOPBLOCKS > (LOGSIZE : ℤ)

instance (s : State P) : Decidable s.MustWait := inferInstanceAs (Decidable (_ ∨ _))

theorem wakeup_pc (s : State P) (q : P) :
    s.wakeup.pc q = s.pc q ∨ s.pc q = .sleeping ∧ s.wakeup.pc q = .begin := by
  by_cases hq : s.pc q = .sleeping <;> simp [State.wakeup, hq]

variable [DecidableEq P]

def State.goto (s : State P) (p : P) (c : Pc) : State P :=
  { s with pc := update s.pc p c }

def beginOp (s : State P) (p : P) : State P :=
  if s.MustWait then s.goto p .sleeping
  else { s with outstanding := s.outstanding + 1 }.goto p (.inOp s.commits.length [])

def logTest (size : ℕ) (s : State P) (p : P) (epoch : ℕ) (wrote : List ℕ) (b : ℕ) : State P :=
  if s.lh.length ≥ LOGSIZE ∨ s.lh.length ≥ size - 1 then s.panic .tooBig
  else if s.outstanding < 1 then s.panic .outsideTrans
  else s.goto p (.tested epoch wrote b)

def logAppend (s : State P) (p : P) (epoch : ℕ) (wrote : List ℕ) (b : ℕ) : State P :=
  { s with lh := absorb s.lh b, calls := b :: s.calls }.goto p (.inOp epoch (absorb wrote b))

def endOp (s : State P) (p : P) (epoch : ℕ) (wrote : List ℕ) : State P :=
  let s := { s with outstanding := s.outstanding - 1, ended := (epoch, wrote) :: s.ended }
  if s.committing then s.panic .committing
  else if s.outstanding = 0 then { s with committing := true }.goto p (.committing .start)
  else s.wakeup.goto p .idle

def endCommit (s : State P) (p : P) : State P :=
  { s with committing := false }.wakeup.goto p .idle

def nextCommit (n : ℕ) : CommitPc → Option CommitPc
  | .start => some (if 0 < n then .writeLog 0 else .finished)
  | .writeLog tail => some (if tail < n then .writeLog (tail + 1) else .writeHead)
  | .writeHead => some (.install 0)
  | .install tail => some (if tail < n then .install (tail + 1) else .clear)
  | .clear => none
  | .eraseHead => some .finished
  | .finished => none

def clearLh (s : State P) (p : P) : State P :=
  { s with lh := [], calls := [], commits := s.commits ++ [s.lh] }.goto p (.committing .eraseHead)

def commitStep (s : State P) (p : P) (c : CommitPc) : State P :=
  match nextCommit s.lh.length c with
  | some c' => s.goto p (.committing c')
  | none => if c = .clear then clearLh s p else endCommit s p

def step (size : ℕ) (s : State P) (l : P × Act) : Option (State P) :=
  if s.panicked.isSome then none
  else match l.2, s.pc l.1 with
    | .beginOp, .idle => some (s.goto l.1 .begin)
    | .run, .begin => some (beginOp s l.1)
    | .kill, .sleeping => some (s.goto l.1 .begin)
    | .logWrite b, .inOp e w => some (logTest size s l.1 e w b)
    | .run, .tested e w b => some (logAppend s l.1 e w b)
    | .endOp, .inOp e w => some (endOp s l.1 e w)
    | .run, .committing c => some (commitStep s l.1 c)
    | _, _ => none

@[simp] theorem goto_pc_self (s : State P) (p : P) (c : Pc) : (s.goto p c).pc p = c :=
  update_self ..

variable {p : P}

theorem goto_pc_of_ne (s : State P) {q : P} (c : Pc) (h : q ≠ p) :
    (s.goto p c).pc q = s.pc q := update_of_ne h ..

variable {s : State P}

theorem forall_goto {c : Pc} {Q : P → Pc → Prop} (hp : Q p c) (hq : ∀ q, q ≠ p → Q q (s.pc q))
    (q : P) : Q q ((s.goto p c).pc q) := by
  by_cases h : q = p
  · subst h
    rwa [goto_pc_self]
  · rw [goto_pc_of_ne s c h]
    exact hq q h

inductive Move (size : ℕ) (s : State P) (p : P) : Act → State P → Prop
  | call : s.pc p = .idle → Move size s p .beginOp (s.goto p .begin)
  | wake : s.pc p = .sleeping → Move size s p .kill (s.goto p .begin)
  | sleep : s.pc p = .begin → s.MustWait → Move size s p .run (s.goto p .sleeping)
  | enter : s.pc p = .begin → ¬s.MustWait →
      Move size s p .run ({ s with outstanding := s.outstanding + 1 }.goto p
        (.inOp s.commits.length []))
  | tooBig (e : ℕ) (w : List ℕ) (b : ℕ) : s.pc p = .inOp e w →
      s.lh.length ≥ LOGSIZE ∨ s.lh.length ≥ size - 1 →
      Move size s p (.logWrite b) (s.panic .tooBig)
  | outside (e : ℕ) (w : List ℕ) (b : ℕ) : s.pc p = .inOp e w →
      ¬(s.lh.length ≥ LOGSIZE ∨ s.lh.length ≥ size - 1) → s.outstanding < 1 →
      Move size s p (.logWrite b) (s.panic .outsideTrans)
  | test (e : ℕ) (w : List ℕ) (b : ℕ) : s.pc p = .inOp e w →
      ¬(s.lh.length ≥ LOGSIZE ∨ s.lh.length ≥ size - 1) → ¬s.outstanding < 1 →
      Move size s p (.logWrite b) (s.goto p (.tested e w b))
  | append (e : ℕ) (w : List ℕ) (b : ℕ) : s.pc p = .tested e w b →
      Move size s p .run (logAppend s p e w b)
  | endPanic (e : ℕ) (w : List ℕ) : s.pc p = .inOp e w → s.committing = true →
      Move size s p .endOp ({ s with outstanding := s.outstanding - 1,
                                     ended := (e, w) :: s.ended }.panic .committing)
  | endLast (e : ℕ) (w : List ℕ) : s.pc p = .inOp e w → s.committing = false →
      s.outstanding - 1 = 0 →
      Move size s p .endOp ({ s with outstanding := s.outstanding - 1, ended := (e, w) :: s.ended,
                                     committing := true }.goto p (.committing .start))
  | endMore (e : ℕ) (w : List ℕ) : s.pc p = .inOp e w → s.committing = false →
      s.outstanding - 1 ≠ 0 →
      Move size s p .endOp ({ s with outstanding := s.outstanding - 1,
                                     ended := (e, w) :: s.ended }.wakeup.goto p .idle)
  | commit (c c' : CommitPc) : s.pc p = .committing c → nextCommit s.lh.length c = some c' →
      Move size s p .run (s.goto p (.committing c'))
  | clear : s.pc p = .committing .clear → Move size s p .run (clearLh s p)
  | finish : s.pc p = .committing .finished → Move size s p .run (endCommit s p)

variable {size : ℕ} {t : State P} {a : Act}

theorem Move.others {q : P} (h : Move size s p a t) (hq : q ≠ p) :
    t.pc q = s.pc q ∨ s.pc q = .sleeping ∧ t.pc q = .begin := by
  cases h with
  | tooBig => exact .inl rfl
  | outside => exact .inl rfl
  | endPanic => exact .inl rfl
  | endMore =>
    rw [goto_pc_of_ne _ _ hq]
    exact wakeup_pc _ q
  | finish =>
    rw [endCommit, goto_pc_of_ne _ _ hq]
    exact wakeup_pc _ q
  | _ => exact .inl (goto_pc_of_ne _ _ hq)

theorem Move.outside_commit (h : Move size s p a t) (hc : ∀ c, s.pc p ≠ .committing c)
    (ht : ∀ e w b, s.pc p ≠ .tested e w b) (ha : ∀ b, a ≠ .logWrite b) :
    t.lh = s.lh ∧ (t.committing = false → s.committing = false) ∧
      ∀ c, t.pc p = .committing c → c = .start ∧ s.committing = false := by
  cases h with
  | append e w b hp => exact absurd hp (ht e w b)
  | commit c c' hp _ => exact absurd hp (hc c)
  | clear hp => exact absurd hp (hc _)
  | finish hp => exact absurd hp (hc _)
  | tooBig e w b => exact absurd rfl (ha b)
  | outside e w b => exact absurd rfl (ha b)
  | test e w b => exact absurd rfl (ha b)
  | endPanic e w hp _ => exact ⟨rfl, id, fun c hpc => absurd hpc (hc c)⟩
  | endLast e w hp hnc _ =>
    refine ⟨rfl, fun _ => hnc, fun c hpc => ?_⟩
    rw [goto_pc_self] at hpc
    cases hpc
    exact ⟨rfl, hnc⟩
  | _ =>
    refine ⟨rfl, id, fun c hpc => ?_⟩
    rw [goto_pc_self] at hpc
    cases hpc

variable {e : ℕ} {w : List ℕ}

theorem Move.of_tested {b : ℕ} (h : Move size s p a t) (hp : s.pc p = .tested e w b) :
    t = logAppend s p e w b := by
  cases h <;> simp_all

theorem move_beginOp (hp : s.pc p = .begin) : Move size s p .run (beginOp s p) := by
  unfold beginOp
  split
  · exact .sleep hp ‹_›
  · exact .enter hp ‹_›

theorem move_logTest (b : ℕ) (hp : s.pc p = .inOp e w) :
    Move size s p (.logWrite b) (logTest size s p e w b) := by
  unfold logTest
  split
  · exact .tooBig e w b hp ‹_›
  · split
    · exact .outside e w b hp ‹_› ‹_›
    · exact .test e w b hp ‹_› ‹_›

theorem move_endOp (hp : s.pc p = .inOp e w) : Move size s p .endOp (endOp s p e w) := by
  unfold endOp
  simp only
  split
  · exact .endPanic e w hp ‹_›
  rename_i hc
  rw [Bool.not_eq_true] at hc
  split
  · exact .endLast e w hp hc ‹_›
  · exact .endMore e w hp hc ‹_›

theorem move_commitStep {c : CommitPc} (hp : s.pc p = .committing c) :
    Move size s p .run (commitStep s p c) := by
  unfold commitStep
  split
  · exact .commit c _ hp ‹_›
  rename_i hnone
  split
  · rename_i hc
    subst hc
    exact .clear hp
  · cases c <;> simp_all [nextCommit]
    exact .finish hp

theorem step_move {l : P × Act} (h : step size s l = some t) :
    s.panicked = none ∧ Move size s l.1 l.2 t := by
  obtain ⟨p, a⟩ := l
  unfold step at h
  split at h
  · cases h
  rename_i hpan
  refine ⟨by simpa using hpan, ?_⟩
  simp only at h ⊢
  split at h
  all_goals cases h
  · exact .call ‹_›
  · exact move_beginOp ‹_›
  · exact .wake ‹_›
  · exact move_logTest _ ‹_›
  · exact .append _ _ _ ‹_›
  · exact move_endOp ‹_›
  · exact move_commitStep ‹_›

end

def Pc.op : Pc → Option (ℕ × List ℕ)
  | .inOp e w => some (e, w)
  | .tested e w _ => some (e, w)
  | _ => none

def Pc.ops : Pc → ℤ
  | .inOp _ _ => 1
  | .tested _ _ _ => 1
  | _ => 0

def Pc.commits : Pc → ℤ
  | .committing _ => 1
  | _ => 0

def Whole {P : Type} (s : State P) (e : ℕ) (w : List ℕ) : Prop :=
  e = s.commits.length ∧ w ⊆ s.lh ∨ ∃ l, s.commits[e]? = some l ∧ w ⊆ l

def Local {P : Type} (s : State P) : Pc → Prop
  | .sleeping => s.MustWait
  | .inOp e w => e = s.commits.length ∧ w ⊆ s.lh
  | .tested e w _ => e = s.commits.length ∧ w ⊆ s.lh
  | .committing c => c = .eraseHead ∨ c = .finished → s.lh = []
  | _ => True

structure Inv {P : Type} [Fintype P] (s : State P) : Prop where
  opCount : ∑ p, (s.pc p).ops = s.outstanding
  commitCount : ∑ p, (s.pc p).commits = if s.committing then 1 else 0
  quiet : s.committing = true → s.outstanding = 0
  drained : s.outstanding = 0 → s.committing = false → s.lh = []
  nodup : s.lh.Nodup
  logged : ∀ b, b ∈ s.calls ↔ b ∈ s.lh
  locals : ∀ p, Local s (s.pc p)
  past : ∀ o ∈ s.ended, Whole s o.1 o.2
  calm : s.panicked ≠ some .committing

theorem inv_init (P : Type) [Fintype P] : Inv (init P) where
  opCount := by simp [init, Pc.ops]
  commitCount := by simp [init, Pc.commits]
  quiet := by simp [init]
  drained := by simp [init]
  nodup := List.nodup_nil
  logged := by simp [init]
  locals := by simp [init, Local]
  past := by simp [init]
  calm := by simp [init]

theorem Pc.ops_nonneg (c : Pc) : 0 ≤ c.ops := by cases c <;> simp [Pc.ops]

theorem Pc.commits_nonneg (c : Pc) : 0 ≤ c.commits := by cases c <;> simp [Pc.commits]

theorem Pc.ops_of_op {c : Pc} {o : ℕ × List ℕ} (h : c.op = some o) : c.ops = 1 := by
  cases c <;> first | rfl | cases h

section
variable {P : Type} [Fintype P] {s : State P} {p : P} (h : Inv s)
include h

theorem Inv.ops_le (p : P) : (s.pc p).ops ≤ s.outstanding := by
  rw [← h.opCount]
  exact Finset.single_le_sum (f := fun q => (s.pc q).ops) (fun q _ => (s.pc q).ops_nonneg)
    (Finset.mem_univ p)

theorem Inv.outstanding_nonneg : 0 ≤ s.outstanding := by
  rw [← h.opCount]
  exact Finset.sum_nonneg fun q _ => (s.pc q).ops_nonneg

theorem Inv.flag {c : CommitPc} (hp : s.pc p = .committing c) : s.committing = true := by
  have hle := Finset.single_le_sum (f := fun q => (s.pc q).commits)
    (fun q _ => (s.pc q).commits_nonneg) (Finset.mem_univ p)
  have hsum := h.commitCount
  simp only [hp, Pc.commits] at hle
  by_contra hc
  rw [if_neg hc] at hsum
  simp only [Pc.commits] at hsum
  omega

theorem Inv.committer (hc : s.committing = true) : ∃ p c, s.pc p = .committing c := by
  by_contra hno
  have hzero : ∑ p, (s.pc p).commits = 0 := by
    apply Finset.sum_eq_zero
    intro p _
    cases hp : s.pc p with
    | committing c => exact absurd ⟨p, c, hp⟩ hno
    | _ => rfl
  rw [h.commitCount, if_pos hc] at hzero
  cases hzero

theorem Inv.committer_unique [DecidableEq P] {q : P} {c c' : CommitPc}
    (hp : s.pc p = .committing c) (hq : s.pc q = .committing c') : p = q := by
  by_contra hne
  have hle := Finset.sum_le_sum_of_subset_of_nonneg (f := fun r => (s.pc r).commits)
    (Finset.subset_univ {p, q}) fun r _ _ => (s.pc r).commits_nonneg
  rw [Finset.sum_pair hne, hp, hq, h.commitCount, if_pos (h.flag hp)] at hle
  simp [Pc.commits] at hle

theorem Inv.ops_eq_zero (hc : s.committing = true) (p : P) : (s.pc p).ops = 0 := by
  have hle := h.ops_le p
  have hnn := (s.pc p).ops_nonneg
  rw [h.quiet hc] at hle
  omega

theorem Inv.op_eq_none (hc : s.committing = true) (p : P) : (s.pc p).op = none := by
  cases hp : (s.pc p).op with
  | none => rfl
  | some o =>
    have := h.ops_eq_zero hc p
    rw [Pc.ops_of_op hp] at this
    omega

theorem Inv.waker (hw : s.MustWait) : 0 < s.outstanding ∨ ∃ q c, s.pc q = .committing c := by
  rcases hw with hc | hsp
  · exact .inr (h.committer hc)
  by_cases hc : s.committing = true
  · exact .inr (h.committer hc)
  · -- With nothing outstanding and no commit the log is empty, and one operation fits.
    refine .inl (lt_of_le_of_ne h.outstanding_nonneg fun h0 => ?_)
    rw [h.drained h0.symm (by simpa using hc), ← h0] at hsp
    exact absurd hsp (by decide)

theorem Inv.past_cons {e : ℕ} {w : List ℕ} (hp : s.pc p = .inOp e w) :
    ∀ o ∈ (e, w) :: s.ended, Whole s o.1 o.2 := by
  have hloc := h.locals p
  rw [hp] at hloc
  intro o ho
  rcases List.mem_cons.1 ho with rfl | ho
  · exact .inl hloc
  · exact h.past o ho

end

section
variable {P : Type}

theorem wakeup_map {A : Type} (f : Pc → A) (hf : f .begin = f .sleeping) (s : State P) (q : P) :
    f (s.wakeup.pc q) = f (s.pc q) := by
  by_cases hq : s.pc q = .sleeping <;> simp [State.wakeup, hq, hf]

variable {s : State P}

theorem local_wakeup {q : P} (h : s.pc q ≠ .sleeping → Local s (s.pc q)) :
    Local s.wakeup (s.wakeup.pc q) := by
  by_cases hq : s.pc q = .sleeping
  · simp [State.wakeup, hq, Local]
  · have hpc : s.wakeup.pc q = s.pc q := by simp [State.wakeup, hq]
    rw [hpc]
    exact h hq

theorem local_nextCommit {c c' : CommitPc} (h : Local s (.committing c))
    (hn : nextCommit s.lh.length c = some c') : Local s (.committing c') := by
  intro hc'
  cases c with
  | start =>
    cases hn
    split at hc'
    · simp at hc'
    · exact List.length_eq_zero_iff.1 (by omega)
  | writeLog tail =>
    cases hn
    split at hc' <;> simp at hc'
  | install tail =>
    cases hn
    split at hc' <;> simp at hc'
  | writeHead =>
    cases hn
    simp at hc'
  | eraseHead => exact h (.inl rfl)
  | clear => cases hn
  | finished => cases hn

theorem Inv.panic [Fintype P] (h : Inv s) {e : Panic} (he : e ≠ .committing) : Inv (s.panic e) :=
  { h with calm := fun hs => he (Option.some.inj hs) }

end

section
variable {P : Type} [DecidableEq P] [Fintype P] {s s' : State P} {p : P}

theorem Inv.of_goto (h : Inv s) {c : Pc}
    (hpc : ∀ q, (s'.pc q).ops = (s.pc q).ops ∧ (s'.pc q).commits = (s.pc q).commits)
    (hops : s'.outstanding = s.outstanding - (s.pc p).ops + c.ops)
    (hcom : (if s'.committing then 1 else 0 : ℤ) =
      (if s.committing then 1 else 0) - (s.pc p).commits + c.commits)
    (hquiet : s'.committing = true → s'.outstanding = 0)
    (hdrained : s'.outstanding = 0 → s'.committing = false → s'.lh = [])
    (hnodup : s'.lh.Nodup) (hlogged : ∀ b, b ∈ s'.calls ↔ b ∈ s'.lh) (hlocal : Local s' c)
    (hframe : ∀ q, q ≠ p → Local s' (s'.pc q))
    (hpast : ∀ o ∈ s'.ended, Whole s' o.1 o.2) (hcalm : s'.panicked ≠ some .committing) :
    Inv (s'.goto p c) where
  opCount := by
    have hsum := sum_update s'.pc Pc.ops p c
    rw [(hpc p).1, Finset.sum_congr rfl fun q _ => (hpc q).1, h.opCount, ← hops] at hsum
    exact hsum
  commitCount := by
    have hsum := sum_update s'.pc Pc.commits p c
    rw [(hpc p).2, Finset.sum_congr rfl fun q _ => (hpc q).2, h.commitCount, ← hcom] at hsum
    exact hsum
  quiet := hquiet
  drained := hdrained
  nodup := hnodup
  logged := hlogged
  locals := forall_goto (Q := fun _ => Local s') hlocal hframe
  past := hpast
  calm := hcalm

theorem Inv.goto (h : Inv s) {c : Pc} (hops : c.ops = (s.pc p).ops)
    (hcom : c.commits = (s.pc p).commits) (hlocal : Local s c) : Inv (s.goto p c) :=
  h.of_goto (fun _ => ⟨rfl, rfl⟩) (by omega) (by omega) h.quiet h.drained h.nodup h.logged hlocal
    (fun q _ => h.locals q) h.past h.calm

theorem Inv.enter (h : Inv s) (hp : s.pc p = .begin) (hw : ¬s.MustWait) :
    Inv ({ s with outstanding := s.outstanding + 1 }.goto p (.inOp s.commits.length [])) := by
  have hnc : s.committing = false := by
    simpa using fun hc => hw (.inl hc)
  have hnn := h.outstanding_nonneg
  refine h.of_goto (fun _ => ⟨rfl, rfl⟩) ?_ ?_ ?_ ?_ h.nodup h.logged ⟨rfl, List.nil_subset _⟩ ?_
    h.past h.calm
  · simp [hp, Pc.ops]
  · simp [hp, Pc.commits]
  · intro hc
    exact absurd hc (by simp [hnc])
  · intro h0
    exact absurd h0 (by show s.outstanding + 1 ≠ 0; omega)
  intro q _
  have hq := h.locals q
  cases hpc : s.pc q with
  | sleeping =>
    rw [hpc] at hq
    rcases hq with hc | hsp
    · exact .inl hc
    · refine .inr ?_
      simp only [MAXOPBLOCKS] at hsp ⊢
      omega
  | _ => simp_all [Local]

variable {e : ℕ} {w : List ℕ}

section
variable (h : Inv s)
include h

theorem Inv.append {b : ℕ} (hp : s.pc p = .tested e w b) : Inv (logAppend s p e w b) := by
  have hloc := h.locals p
  rw [hp] at hloc
  have hnc : s.committing = false := by
    by_contra hc
    have := h.op_eq_none (by simpa using hc) p
    simp [hp, Pc.op] at this
  have hout := h.ops_le p
  simp only [hp, Pc.ops] at hout
  have hsub := subset_absorb s.lh b
  refine h.of_goto (fun _ => ⟨rfl, rfl⟩) ?_ ?_ h.quiet ?_ (absorb_nodup h.nodup b) ?_
    ⟨hloc.1, ?_⟩ ?_ ?_ h.calm
  · simp [hp, Pc.ops]
  · simp [hp, Pc.commits]
  · intro h0
    exact absurd h0 (by show s.outstanding ≠ 0; omega)
  · intro c
    change c ∈ b :: s.calls ↔ c ∈ absorb s.lh b
    rw [mem_absorb, List.mem_cons, h.logged, or_comm]
  · intro x hx
    rcases mem_absorb.1 hx with hx | rfl
    · exact hsub (hloc.2 hx)
    · exact mem_absorb.2 (.inr rfl)
  · intro q _
    have hq := h.locals q
    cases hpc : s.pc q with
    | sleeping =>
      rw [hpc] at hq
      have hlen := length_le_absorb s.lh b
      rcases hq with hc | hsp
      · exact .inl hc
      · refine .inr (lt_of_lt_of_le hsp ?_)
        simpa using hlen
    | inOp e w =>
      rw [hpc] at hq
      exact ⟨hq.1, fun x hx => hsub (hq.2 hx)⟩
    | tested e w b =>
      rw [hpc] at hq
      exact ⟨hq.1, fun x hx => hsub (hq.2 hx)⟩
    | committing c =>
      have := h.flag hpc
      simp [hnc] at this
    | _ => trivial
  · rintro o ho
    rcases h.past o ho with ⟨he, hw⟩ | hpast
    · exact .inl ⟨he, fun x hx => hsub (hw hx)⟩
    · exact .inr hpast

theorem Inv.endLast (hp : s.pc p = .inOp e w) (hnc : s.committing = false)
    (hout : s.outstanding - 1 = 0) :
    Inv ({ s with outstanding := s.outstanding - 1, ended := (e, w) :: s.ended,
                  committing := true }.goto p (.committing .start)) := by
  refine h.of_goto (fun _ => ⟨rfl, rfl⟩) ?_ ?_ (fun _ => hout) ?_ h.nodup h.logged ?_ ?_
    (h.past_cons hp) h.calm
  · simp [hp, Pc.ops]
  · simp [hp, Pc.commits, hnc]
  · simp
  · simp [Local]
  intro q _
  have hq := h.locals q
  cases hpc : s.pc q with
  | sleeping => exact .inl rfl
  | _ => simp_all [Local]

theorem Inv.endMore (hp : s.pc p = .inOp e w) (hnc : s.committing = false)
    (hout : s.outstanding - 1 ≠ 0) :
    Inv ({ s with outstanding := s.outstanding - 1,
                  ended := (e, w) :: s.ended }.wakeup.goto p .idle) := by
  refine h.of_goto (fun q => ⟨wakeup_map Pc.ops rfl _ q, wakeup_map Pc.commits rfl _ q⟩) ?_ ?_ ?_ ?_
    h.nodup h.logged trivial ?_ (h.past_cons hp) h.calm
  · simp [hp, Pc.ops, State.wakeup]
  · simp [hp, Pc.commits, State.wakeup]
  · exact fun hc => absurd hc (by simp [State.wakeup, hnc])
  · exact fun h0 => absurd h0 hout
  · intro q _
    refine local_wakeup fun hns => ?_
    have hq := h.locals q
    cases hpc : s.pc q <;> simp_all [Local]

theorem Inv.clear (hp : s.pc p = .committing .clear) : Inv (clearLh s p) := by
  have hc := h.flag hp
  refine h.of_goto (fun _ => ⟨rfl, rfl⟩) ?_ ?_ h.quiet (fun _ _ => rfl) List.nodup_nil
    (by simp) (fun _ => rfl) ?_ ?_ h.calm
  · simp [hp, Pc.ops]
  · simp [hp, Pc.commits]
  · intro q _
    have hnone := h.op_eq_none hc q
    cases hpc : s.pc q with
    | sleeping => exact .inl hc
    | committing c => exact fun _ => rfl
    | inOp e w => simp [hpc, Pc.op] at hnone
    | tested e w b => simp [hpc, Pc.op] at hnone
    | _ => trivial
  · -- The operations of this epoch now have their blocks in the header just committed.
    intro o ho
    rcases h.past o ho with ⟨he, hw⟩ | ⟨l, hl, hw⟩
    · exact .inr ⟨s.lh, by simp [he], hw⟩
    · refine .inr ⟨l, ?_, hw⟩
      have hlt := (List.getElem?_eq_some_iff.1 hl).1
      rw [← hl]
      exact List.getElem?_append_left hlt

theorem Inv.finish (hp : s.pc p = .committing .finished) : Inv (endCommit s p) := by
  have hc := h.flag hp
  have hloc := h.locals p
  rw [hp] at hloc
  refine h.of_goto (fun q => ⟨wakeup_map Pc.ops rfl _ q, wakeup_map Pc.commits rfl _ q⟩) ?_ ?_
    ?_ (fun _ _ => hloc (.inr rfl)) h.nodup h.logged trivial ?_ h.past h.calm
  · simp [hp, Pc.ops, State.wakeup]
  · simp [hp, Pc.commits, State.wakeup, hc]
  · simp [State.wakeup]
  · intro q _
    refine local_wakeup fun hns => ?_
    have hq := h.locals q
    cases hpc : s.pc q <;> simp_all [Local]

end

variable {size : ℕ} {t : State P}

theorem Inv.move {a : Act} (h : Inv s) (hm : Move size s p a t) : Inv t := by
  cases hm with
  | call hp => exact h.goto (by rw [hp]; rfl) (by rw [hp]; rfl) trivial
  | wake hp => exact h.goto (by rw [hp]; rfl) (by rw [hp]; rfl) trivial
  | sleep hp hw => exact h.goto (by rw [hp]; rfl) (by rw [hp]; rfl) hw
  | enter hp hw => exact h.enter hp hw
  | tooBig e w b hp hn => exact h.panic (by decide)
  | outside e w b hp hn ho => exact h.panic (by decide)
  | test e w b hp hn ho =>
    have hloc := h.locals p
    rw [hp] at hloc
    exact h.goto (by rw [hp]; rfl) (by rw [hp]; rfl) hloc
  | append e w b hp => exact h.append hp
  | endPanic e w hp hc =>
    have hnone := h.op_eq_none hc p
    simp [hp, Pc.op] at hnone
  | endLast e w hp hnc hout => exact h.endLast hp hnc hout
  | endMore e w hp hnc hout => exact h.endMore hp hnc hout
  | commit c c' hp hn =>
    have hloc := h.locals p
    rw [hp] at hloc
    exact h.goto (by rw [hp]; rfl) (by rw [hp]; rfl) (local_nextCommit hloc hn)
  | clear hp => exact h.clear hp
  | finish hp => exact h.finish hp

theorem inv_step {l : P × Act} (h : Inv s) (hs : step size s l = some t) :
    Inv t := h.move (step_move hs).2

theorem inv_exec {tr : List (P × Act)} (h : Inv s) (hr : exec (step size) s tr = some t) : Inv t :=
  exec_invariant Inv h (fun _ _ _ => inv_step) hr

theorem Inv.move_op_eq_none {a : Act} (h : Inv s) (hc : s.committing = true)
    (hm : Move size s p a t) : (t.pc p).op = none := by
  have hnone := h.op_eq_none hc p
  cases hm with
  | enter hp hw => exact absurd (.inl hc) hw
  | append e w b hp => simp [hp, Pc.op] at hnone
  | test e w b hp => simp [hp, Pc.op] at hnone
  | tooBig e w b hp => exact hnone
  | outside e w b hp => exact hnone
  | endPanic e w hp => exact hnone
  | _ => simp [clearLh, endCommit, Pc.op]

end

structure GroupCommit {P : Type} [DecidableEq P] (size : ℕ) (s : State P) : Prop where
  exclusive : ∀ p c, s.pc p = .committing c → s.outstanding = 0 ∧ s.committing = true
  closed : s.committing = true → ∀ p, (s.pc p).op = none
  noAdmission : s.committing = true → ∀ p a t, step size s (p, a) = some t →
    (t.pc p).op = none
  noLogWrite : s.committing = true → ∀ p b, step size s (p, .logWrite b) = none
  noPanic : s.panicked ≠ some .committing
  nodup : s.lh.Nodup
  running : ∀ p e w, (s.pc p).op = some (e, w) → e = s.commits.length ∧ w ⊆ s.lh
  ended : ∀ e w, (e, w) ∈ s.ended → Whole s e w
  waiting : ∀ p, s.pc p = .sleeping → s.MustWait
  woken : ∀ p, s.pc p = .sleeping → 0 < s.outstanding ∨ ∃ q c, s.pc q = .committing c

theorem Inv.groupCommit {P : Type} [DecidableEq P] [Fintype P] {s : State P} (h : Inv s)
    (size : ℕ) : GroupCommit size s where
  exclusive := fun p c hp => ⟨h.quiet (h.flag hp), h.flag hp⟩
  closed := h.op_eq_none
  noAdmission := fun hc p a t hs => h.move_op_eq_none hc (step_move hs).2
  noLogWrite := by
    intro hc p b
    have hnone := h.op_eq_none hc p
    unfold step
    split
    · rfl
    · cases hp : s.pc p <;> simp_all [Pc.op]
  noPanic := h.calm
  nodup := h.nodup
  running := by
    intro p e w ho
    have hloc := h.locals p
    cases hp : s.pc p <;> simp_all [Pc.op, Local]
  ended := fun e w ho => h.past (e, w) ho
  waiting := by
    intro p hp
    have hloc := h.locals p
    rwa [hp] at hloc
  woken := by
    intro p hp
    have hloc := h.locals p
    rw [hp] at hloc
    exact h.waker hloc

theorem group_commit {P : Type} [DecidableEq P] [Fintype P] {size : ℕ} {s : State P}
    {tr : List (P × Act)} (hr : exec (step size) (init P) tr = some s) : GroupCommit size s :=
  (inv_exec (inv_init P) hr).groupCommit size

def commitRace : List (Fin 2 × Act) :=
  [(0, .beginOp), (0, .run), (1, .beginOp), (0, .logWrite 60), (0, .run), (0, .logWrite 61),
    (0, .run), (0, .logWrite 60), (0, .run), (0, .endOp), (0, .run), (1, .run), (0, .run)]

theorem group_commit_commitRace :
    ∃ s, exec (step LOGSIZE) (init (Fin 2)) commitRace = some s ∧
      (s.lh = [60, 61] ∧ s.pc 0 = .committing (.writeLog 1) ∧ s.pc 1 = .sleeping) ∧
      GroupCommit LOGSIZE s := by
  obtain ⟨s, hs, hend⟩ := exec_exists (step LOGSIZE) (init (Fin 2)) commitRace
    (fun s => s.lh = [60, 61] ∧ s.pc 0 = .committing (.writeLog 1) ∧ s.pc 1 = .sleeping) (by decide)
  exact ⟨s, hs, hend, group_commit hs⟩

end Xv6.Log
