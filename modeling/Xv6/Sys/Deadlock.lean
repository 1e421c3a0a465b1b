import Xv6.Sys.FileLocks

/-!
When the file-system calls do not deadlock on inode locks.

Three things can lead to processes that wait for each other for ever, or
to a process that waits for itself.

`sys_link` hands its new name to `dirlink`. If that name is `"."`,
`dirlink` finds the directory itself, which is locked, and puts it; with
`".."` it puts the parent while it holds the child.

`create` and `sys_unlink` give back the lock of the directory and put it,
which takes the lock once more, while they hold the lock of an inode in
it. Another process that has locked the directory in between may want
that inode.

An entry that is left behind for an inode that has been freed and
allocated again leads anywhere, upwards too.

In runs in which none of the three occurs, nobody waits in a circle.
-/

namespace Xv6.Sys

open Lib

variable {P : Type}

abbrev Machine (P : Type) := Conf P Site ℕ Panic (Fs P) Int

def NewName : Call → Prop
  | .link _ (some new) => ∀ name ∈ (elems new).getLast?, name ≠ dot ∧ name ≠ dotdot
  | _ => True

section
variable [DecidableEq P]

def machineStep (sb : Super) : Machine P → P × Move Call → Option (Machine P) :=
  Conf.step (body sb) fun p s => decide (s.cwd p ≠ 0)

end

section
variable [Fintype P]

structure Booted (cf : Machine P) : Prop where
  lock : ∀ i, cf.lock i = none
  prog : ∀ p, cf.prog p = none
  tree : ∃ depth, Law depth cf.st.claims cf.st

variable [DecidableEq P]

theorem keeps_body {depth : ℕ → ℕ} {sb : Super} {p : P} {call : Call} {s : Fs P}
    (hname : NewName call) (hcwd : s.cwd p ≠ 0) :
    Keeps depth p (Over p) (body sb p call) none (s.claims p) [] s := by
  cases call with
  | link old new =>
    refine keeps_sysLink hcwd ?_
    rintro path rfl name hlast
    exact hname name hlast
  | unlink path => exact keeps_sysUnlink hcwd
  | «open» path omode => exact keeps_sysOpen hcwd
  | mkdir path => exact keeps_sysMkdir hcwd
  | mknod path major minor => exact keeps_sysMknod hcwd
  | chdir path => exact keeps_sysChdir hcwd
  | read fd n avail => exact keeps_sysRead
  | write fd n => exact keeps_sysWrite
  | close fd => exact keeps_sysClose
  | dup fd => exact keeps_sysDup
  | fstat fd => exact keeps_sysFstat
  | exit => exact keeps_exit hcwd

variable {sb : Super} {cf cf' : Machine P} {depth : ℕ → ℕ}

def Machine.Disciplined (depth : ℕ → ℕ) (cf : Machine P) : Prop :=
  ∃ l H, Sound (discipline depth) (fun p c s => c = s.claims p) .putParent cf l H

theorem Booted.disciplined (h : Booted cf) : ∃ depth, Machine.Disciplined depth cf := by
  obtain ⟨depth, hlaw⟩ := h.tree
  refine ⟨depth, cf.st.claims, fun _ => [], hlaw, fun p i => ?_, fun _ => List.nodup_nil,
    fun p _ => ⟨rfl, rfl⟩, fun p x hx => ?_⟩
  · simp [h.lock]
  · simp [h.prog] at hx

theorem Machine.Disciplined.step (h : Machine.Disciplined depth cf) {l : P × Move Call}
    (hclear : Clear Fs.Allow NewName .putParent cf l) (hs : machineStep sb cf l = some cf') :
    Machine.Disciplined depth cf' := by
  obtain ⟨c, H, h⟩ := h
  refine h.step (fun p c s s' hi hr => ?_) (fun _ _ _ _ h => h)
    (fun p call c s hname hlive hi _ => ?_) hclear hs
  · rw [hi]
    exact hr.claims.symm
  · subst hi
    exact keeps_body hname (by simpa using hlive)

theorem Machine.Disciplined.no_cycle (h : Machine.Disciplined depth cf) (p : P) :
    ¬ Relation.TransGen cf.WaitsFor p p := by
  obtain ⟨c, H, h⟩ := h
  refine h.no_cycle (fun s i => (s.inode i).type = .dir) (fun s => s.Older depth)
    (fun _ _ _ _ h => h) ?_ (fun _ _ => Fs.Older.irrefl) (fun _ _ _ _ => .trans) p
  rintro H last t i s ht ho j hj
  cases t with
  | putParent => exact absurd rfl ht
  | ilock => exact ho j hj
  | iput => exact ho j hj

theorem no_deadlock (sb : Super) (cf : Machine P) (hboot : Booted cf) (tr : List (P × Move Call))
    (hclear : EveryStep (machineStep sb) cf (Clear Fs.Allow NewName .putParent) tr) :
    EveryState (machineStep sb) cf (fun cf => ∀ p, ¬ Relation.TransGen cf.WaitsFor p p) tr := by
  intro tr' cf' hpre hrun
  obtain ⟨depth, h⟩ := hboot.disciplined
  have h' := exec_guarded (Machine.Disciplined depth) h
    (fun _ _ _ h hclear hs => h.step hclear hs) hrun (hclear.of_prefix hpre)
  exact h'.no_cycle

end

/-! ### Small runs -/

def twoNames : ℕ → Inode
  | 1 => ⟨.dir, 0, 0, 1, 0, [⟨1, dot⟩, ⟨1, dotdot⟩, ⟨2, [97]⟩, ⟨2, [98]⟩]⟩
  | 2 => ⟨.file, 0, 0, 2, 0, []⟩
  | _ => ⟨.free, 0, 0, 0, 0, []⟩

def twoProcs : Machine (Fin 2) where
  st :=
    { inode := twoNames
      ref := fun i => if i = 1 then 2 else 0
      valid := fun _ => false
      file := fun _ => ⟨.none, 0, false, false, 0, 0⟩
      ofile := fun _ _ => none
      cwd := fun _ => 1
      outstanding := 0
      hist := [] }
  lock := fun _ => none
  prog := fun _ => none
  halted := false

theorem twoNames_dir {d : ℕ} (h : (twoNames d).type = .dir) : d = 1 := by
  unfold twoNames at h
  split at h
  · rfl
  · cases h
  · cases h

theorem twoProcs_claims (p : Fin 2) : twoProcs.st.claims p =
    (⟨fun _ => 0, fun _ => 0, fun _ => 0, none⟩ : Claims).take 1 := by
  rw [Fs.claims_cwd (by simp [twoProcs])]
  simp [Fs.fileClaims, twoProcs]

theorem booted_twoProcs : Booted twoProcs := by
  refine ⟨fun _ => rfl, fun _ => rfl, fun _ => 0, ⟨fun d hd e he hz h1 h2 hi => ?_,
    fun d hd e he hz => ?_, by decide, fun f hf => (by cases hf), fun f _ => rfl⟩, fun i => ?_,
    fun f => ?_, fun p i hi => ?_, fun p i hi => ?_⟩
  · obtain rfl := twoNames_dir hd
    have hi := twoNames_dir hi
    simp only [twoProcs, twoNames, List.mem_cons, List.not_mem_nil, or_false] at he
    rcases he with rfl | rfl | rfl | rfl
    · exact absurd rfl h1
    · exact absurd rfl h2
    · cases hi
    · cases hi
  · obtain rfl := twoNames_dir hd
    simp only [twoProcs, twoNames, List.mem_cons, List.not_mem_nil, or_false] at he
    rcases he with rfl | rfl | rfl | rfl <;> decide
  · have hopen : twoProcs.st.openCount i = 0 := Finset.sum_eq_zero fun f _ => rfl
    simp only [twoProcs_claims, Claims.take_held, Claims.take_going, hopen]
    by_cases hi : i = 1 <;> simp [hi, twoProcs]
  · simp [twoProcs_claims]
  · rw [twoProcs_claims, Claims.take_held] at hi
    obtain rfl : i = 1 := by
      by_contra hne
      simp [hne] at hi
    decide
  · simp [twoProcs_claims] at hi

def starts (p : Fin 2) (call : Call) (n : ℕ) : List (Fin 2 × Move Call) :=
  (p, .call call) :: List.replicate n (p, .step)

theorem clear_of_types {cf : Machine P} {p : P}
    (hgap : ∀ q, (cf.wants q).map Prod.fst ≠ some .putParent)
    (htype : ∀ f k, cf.prog p = some (.act f k) →
      ∀ i, ((f cf.st).inode i).type = (cf.st.inode i).type) :
    Clear Fs.Allow NewName .putParent cf (p, .step) := by
  refine ⟨fun t i _ q _ hq => hgap q ?_, fun f k hf i hi hi' => absurd ?_ hi⟩
  · rw [hq]
    rfl
  · rw [← htype f k hf i]
    exact hi'

def openRace : List (Fin 2 × Move Call) :=
  starts ⟨0, Nat.two_pos⟩ (.open (some [47]) 0) 4 ++
    starts ⟨1, Nat.one_lt_two⟩ (.open (some [47]) 0) 3

theorem openRace_clear : EveryStep (machineStep small) twoProcs
    (Clear Fs.Allow NewName .putParent) openRace := by
  refine .cons (.cons (.cons (.cons (.cons (.cons (.cons (.cons (.cons everyStep_nil
    rfl ?_) rfl ?_) rfl ?_) rfl trivial) rfl ?_) rfl ?_) rfl ?_) rfl ?_) rfl trivial
  all_goals
    refine clear_of_types (by decide +kernel) fun f k hf i => ?_
    cases hf <;> rfl

theorem no_deadlock_openRace :
    (∃ cf, exec (machineStep small) twoProcs openRace = some cf ∧ cf.WaitsFor 1 0) ∧
      EveryState (machineStep small) twoProcs
        (fun cf => ∀ p, ¬ Relation.TransGen cf.WaitsFor p p) openRace :=
  ⟨exec_exists _ _ _ _ (by decide +kernel),
    no_deadlock small twoProcs booted_twoProcs openRace openRace_clear⟩

theorem link_dot_deadlock : Booted twoProcs ∧ ¬ EveryState (machineStep small) twoProcs
    (fun cf => ∀ p, ¬ Relation.TransGen cf.WaitsFor p p)
    (starts 0 (.link (some [47, 97]) (some [47, 46])) 36) := by
  refine ⟨booted_twoProcs, fun h => ?_⟩
  obtain ⟨cf, hrun, hwait⟩ := exec_exists (machineStep small) twoProcs
    (starts 0 (.link (some [47, 97]) (some [47, 46])) 36) (fun cf => cf.WaitsFor 0 0)
    (by decide +kernel)
  exact h _ cf (List.prefix_refl _) hrun 0 (.single hwait)

example : ∃ cf, exec (machineStep small) twoProcs (starts 0 (.unlink (some [47, 97])) 23 ++
    starts 1 (.unlink (some [47, 98])) 15) = some cf ∧ cf.WaitsFor 0 1 ∧ cf.WaitsFor 1 0 :=
  exec_exists _ _ _ _ (by decide +kernel)

end Xv6.Sys
