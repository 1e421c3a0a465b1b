import Xv6.Sys.SeqFiles

/-!
Names over runs of completed calls.

Each call runs to its end before the next one starts. Two things can go
wrong with names in such a run.

A name can be lost. `sys_unlink` removes an empty directory, but a process
that has it as its current directory can still create files there; the
names of these are gone when the directory is freed, and their link
counts stay.

A name can dangle. A removed directory that is still somebody's current
directory has a `".."`, which counts no link of the parent any more. When
the parent is removed as well, it is freed, and `".."` leads to a free
inode; `ilock` panics there.

A run in which nothing is created in a removed directory loses no name,
and if moreover no directory is removed that is the parent of another
one, no name dangles.
-/

namespace Xv6.Sys

open Lib
open Option (all_eq_true)

variable {P : Type}

abbrev Between (P : Type) := Except Panic (Fs P)

section
variable [DecidableEq P]

def callStep (sb : Super) : Between P → P × Call → Option (Between P)
  | .error _, _ => none
  | .ok s, (p, call) =>
    if s.cwd p = 0 then none
    else
      match (body sb p call).run p (fun _ => none) s with
      | .done _ _ s' => some (.ok s')
      | .panicked m => some (.error m)
      | .blocked _ => none

end

def Call.enters : Call → Option Path
  | .link _ new => new
  | .open path omode => if omode &&& O_CREATE ≠ 0 then path else none
  | .mkdir path => path
  | .mknod path _ _ => path
  | _ => none

def Call.removes : Call → Option Path
  | .unlink path => path
  | _ => none

def InNamed : Between P → P × Call → Prop
  | .ok s, (p, call) => ∀ path ∈ call.enters, NotRemoved s p path
  | .error _, _ => True

def KeepsParents : Between P → P × Call → Prop
  | .ok s, (p, call) => ∀ path ∈ call.removes, NoOrphans s p path
  | .error _, _ => True

inductive InUse (s : Fs P) : ℕ → Prop
  | root : InUse s ROOTINO
  | cwd (p : P) (h : s.cwd p ≠ 0) : InUse s (s.cwd p)
  | opened (f : Fin NFILE) (h : (s.file f).type = .inode) : InUse s (s.file f).ip
  | entry {d : ℕ} (e : Dirent) (hd : InUse s d) (h : (s.inode d).type = .dir)
      (he : e ∈ (s.inode d).entries) (hz : e.inum ≠ 0) : InUse s e.inum

def NoDangling : Between P → Prop
  | .ok s => ∀ d, InUse s d → (s.inode d).type = .dir → ∀ e ∈ (s.inode d).entries, e.inum ≠ 0 →
      (s.inode e.inum).type ≠ .free
  | .error m => m ≠ .noType

def NoLoss : Between P → Prop
  | .ok s => ∀ i x, Event.free i x ∈ s.hist → x.type = .dir → ∀ e ∈ x.entries, e.inum ≠ 0 →
      e.name = dot ∨ e.name = dotdot
  | .error _ => True

section
variable [Fintype P] [DecidableEq P] {sb : Super} {up : Prop} {s : Fs P} {b b' : Between P}

theorem seq_body {p : P} {call : Call} (h : Orderly sb up 0 0 s) (hcwd : s.cwd p ≠ 0)
    (hin : InNamed (.ok s) (p, call)) (hkeep : up → KeepsParents (.ok s) (p, call)) :
    Ordered sb up 0 (body sb p call) s := by
  cases call with
  | link old new => exact seq_sysLink h hcwd hin
  | unlink path => exact seq_sysUnlink h hcwd hkeep
  | «open» path omode =>
    refine seq_sysOpen h hcwd (fun hc q hq => hin q ?_)
    rwa [Call.enters, if_pos hc]
  | mkdir path => exact seq_mknod h hcwd (by decide) hin
  | mknod path major minor => exact seq_mknod h hcwd (by decide) hin
  | chdir path => exact seq_sysChdir h hcwd
  | read fd n avail => exact seq_sysRead h
  | write fd n => exact seq_sysWrite h
  | close fd => exact seq_sysClose h
  | dup fd => exact seq_sysDup h
  | fstat fd => exact seq_sysFstat h
  | exit => exact seq_exit h hcwd

def Settled (sb : Super) (up : Prop) : Between P → Prop
  | .ok s => Orderly sb up 0 0 s
  | .error m => May up m

theorem Settled.step {l : P × Call} (h : Settled sb up b) (hin : InNamed b l)
    (hkeep : up → KeepsParents b l) (hs : callStep sb b l = some b') : Settled sb up b' := by
  obtain ⟨p, call⟩ := l
  cases b with
  | error m => cases hs
  | ok s =>
    simp only [callStep] at hs
    split at hs
    · cases hs
    rename_i hcwd
    have hrun := Prog.run_of_wp p (fun _ => none) (seq_body h hcwd hin hkeep)
    cases hr : (body sb p call).run p (fun _ => none) s with
    | done r lock s' =>
      rw [hr] at hs hrun
      cases hs
      exact hrun
    | panicked m =>
      rw [hr] at hs hrun
      cases hs
      exact hrun
    | blocked i =>
      rw [hr] at hs
      cases hs

theorem Settled.run {tr : List (P × Call)} (h : Settled sb up b)
    (hin : EveryStep (callStep sb) b InNamed tr)
    (hkeep : up → EveryStep (callStep sb) b KeepsParents tr)
    (hrun : exec (callStep sb) b tr = some b') : Settled sb up b' :=
  exec_guarded (G := fun b l => InNamed b l ∧ (up → KeepsParents b l)) (Settled sb up) h
    (fun _ _ _ h hG hs => h.step hG.1 hG.2 hs) hrun
    fun tr' l t hpre ht => ⟨hin tr' l t hpre ht, fun hup => hkeep hup tr' l t hpre ht⟩

omit [DecidableEq P] in
theorem Settled.noDangling (h : Settled sb True b) : NoDangling b := by
  cases b with
  | error m => exact h.2 trivial
  | ok s => exact fun d _ hd e he hz => h.tree.entry_live trivial hd he hz

omit [DecidableEq P] in
theorem Settled.noLoss (h : Settled sb up b) : NoLoss b := by
  cases b with
  | error m => trivial
  | ok s => exact h.clean

theorem Tree.nlink_of_names {t : Table} {i : ℕ} (h : Tree sb up 0 t) (hz : names sb t i = 0)
    (hi : i ≠ ROOTINO) : (t i).nlink = 0 := by
  have hs : subdirs t i = 0 := by
    by_cases hd : (t i).type = .dir
    · exact Inode.count_of_empty (h.removed i hd hi hz) _
    · exact Inode.count_of_type hd _
  have hl := h.links i
  rw [hz, hs, if_neg hi] at hl
  exact Int16.toInt_inj.1 hl

theorem Tree.nlink_pos {t : Table} {i : ℕ} (h : Tree sb up 0 t) (hn : 0 < names sb t i) :
    0 < (t i).nlink.toInt := by
  have hl := h.links i
  omega

theorem no_dangling (sb : Super) (s : Fs P) (hs : Orderly sb True 0 0 s)
    (tr : List (P × Call)) (hin : EveryStep (callStep sb) (.ok s) InNamed tr)
    (hkeep : EveryStep (callStep sb) (.ok s) KeepsParents tr) :
    EveryState (callStep sb) (.ok s) NoDangling tr := by
  intro tr' b hpre hrun
  have h : Settled sb True (.ok s) := hs
  exact (h.run (hin.of_prefix hpre) (fun _ => hkeep.of_prefix hpre) hrun).noDangling

theorem no_loss (sb : Super) (s : Fs P) (hs : Orderly sb False 0 0 s) (tr : List (P × Call))
    (hin : EveryStep (callStep sb) (.ok s) InNamed tr) :
    EveryState (callStep sb) (.ok s) NoLoss tr ∧
      EveryStep (callStep sb) (.ok s) (fun b l => ∀ t u, b = .ok t →
        callStep sb b l = some (.ok u) → ∀ i, 0 < names sb t.inode i → names sb u.inode i = 0 →
          (u.inode i).nlink.toInt < (t.inode i).nlink.toInt) tr := by
  have h : Settled sb False (.ok s) := hs
  constructor
  · intro tr' b hpre hrun
    exact (h.run (hin.of_prefix hpre) False.elim hrun).noLoss
  rintro tr' l b hpre hrun t u rfl hstep i hn hz
  have hin' := hin.of_prefix hpre
  have ht := h.run (hin'.of_prefix (List.prefix_append _ _)) False.elim hrun
  have hu := h.run hin' False.elim (exec_concat hrun hstep)
  have hroot : i ≠ ROOTINO := by
    rintro rfl
    rw [ht.tree.top] at hn
    omega
  rw [hu.tree.nlink_of_names hz hroot]
  exact ht.tree.nlink_pos hn

end

/-! ### Small runs -/

def bareTable : Table
  | 1 => ⟨.dir, 0, 0, 1, 0, [⟨1, dot⟩, ⟨1, dotdot⟩]⟩
  | _ => ⟨.free, 0, 0, 0, 0, []⟩

def only : Fin 1 := Fin.last 0

def bare : Fs (Fin 1) where
  inode := bareTable
  ref := fun i => if i = 1 then 1 else 0
  valid := fun _ => false
  file := fun _ => ⟨.none, 0, false, false, 0, 0⟩
  ofile := fun _ _ => none
  cwd := fun _ => 1
  outstanding := 0
  hist := []

theorem bareTable_of_ne {i : ℕ} (h : i ≠ 1) : bareTable i = ⟨.free, 0, 0, 0, 0, []⟩ := by
  unfold bareTable
  split
  · exact absurd rfl h
  · rfl

theorem bareTable_live {i : ℕ} (h : (bareTable i).type ≠ .free) : i = 1 := by
  by_contra hne
  rw [bareTable_of_ne hne] at h
  exact h rfl

theorem bareTable_dir {d : ℕ} (h : (bareTable d).type = .dir) : d = 1 :=
  bareTable_live (by simp [h])

theorem bareTable_count (i : ℕ) (q : ℕ → Bool) : (bareTable i).count q = 0 := by
  by_cases hi : i = 1
  · subst hi
    rfl
  · rw [bareTable_of_ne hi]
    rfl

theorem tree_bare : Tree small True 0 bareTable := by
  have hnames : ∀ i, names small bareTable i = 0 :=
    fun i => Finset.sum_eq_zero fun d _ => bareTable_count d _
  have hdrop : ∀ d, (bareTable d).type = .dir → (bareTable d).entries.drop 2 = [] := by
    intro d hd
    obtain rfl := bareTable_dir hd
    rfl
  refine ⟨rfl, fun i hi => ?_, by decide, fun i => ?_, fun d hd => ?_, fun d hd => ?_,
    fun d hd => ?_, fun i _ => by simp [hnames], hnames _, fun d hd => ?_, fun _ d hd => ?_⟩
  · obtain rfl := bareTable_live hi
    decide
  · rw [hnames, subdirs, bareTable_count]
    by_cases hi : i = 1
    · subst hi
      rfl
    · rw [bareTable_of_ne hi, if_neg hi]
      rfl
  · obtain rfl := bareTable_dir hd
    exact ⟨1, by decide, rfl⟩
  · simp [hdrop d hd]
  · simp [hdrop d hd]
  · simp [hdrop d hd]
  · obtain rfl := bareTable_dir hd
    exact .inl rfl

theorem orderly_bare : Orderly small True 0 0 bare := by
  have hopen : ∀ i, bare.openCount i = 0 := fun i => Finset.sum_eq_zero fun f _ => rfl
  refine ⟨tree_bare, fun i hi => ?_, fun p _ => rfl, fun f hf => (by cases hf), fun i hi hz => ?_,
    fun i _ => .inl rfl, fun i x hx => (by cases hx)⟩
  · rw [hopen]
    by_cases h1 : i = 1
    · subst h1
      decide
    · simp [bare, h1, Ne.symm h1]
  · obtain rfl := bareTable_live hi
    cases hz

def inNamedB : Between P → P × Call → Bool
  | .ok s, (p, call) => call.enters.all fun path =>
    (s.resolve p path true).all fun dn => decide ((s.inode dn.1).nlink ≠ 0)
  | .error _, _ => true

theorem inNamed_of_check (b : Between P) (l : P × Call) (h : inNamedB b l = true) :
    InNamed b l := by
  cases b with
  | error m => trivial
  | ok s =>
    intro path hpath dp name hres
    have := (all_eq_true _ _).1 h path hpath
    simpa using (all_eq_true _ _).1 this _ hres

def unlinksFilesB : Between P → P × Call → Bool
  | .ok s, (p, call) => call.removes.all fun path =>
    (s.resolve p path true).all fun dn => (lookup (s.inode dn.1) dn.2).all fun ip =>
      decide ((s.inode ip).type ≠ .dir)
  | .error _, _ => true

theorem keepsParents_of_check (b : Between P) (l : P × Call) (h : unlinksFilesB b l = true) :
    KeepsParents b l := by
  cases b with
  | error m => trivial
  | ok s =>
    intro path hpath dp name ip hres hl hd
    have h1 := (all_eq_true _ _).1 h path hpath
    have h2 := (all_eq_true _ _).1 h1 _ hres
    have h3 := (all_eq_true _ _).1 h2 _ hl
    exact absurd hd (by simpa using h3)

def tidyRun : List (Fin 1 × Call) :=
  [(only, .mkdir (some [47, 97])), (only, .chdir (some [47, 97])),
    (only, .open (some [120]) O_CREATE), (only, .unlink (some [120])),
    (only, .open (some [46, 46]) 0)]

theorem no_dangling_tidyRun :
    (∃ b, exec (callStep small) (.ok bare) tidyRun = some b ∧ NoDangling b) ∧
      EveryState (callStep small) (.ok bare) NoDangling tidyRun := by
  have h := no_dangling small bare orderly_bare tidyRun
    (.of_check inNamed_of_check (by decide +kernel))
    (.of_check keepsParents_of_check (by decide +kernel))
  obtain ⟨b, hb, -⟩ := exec_exists (callStep small) (.ok bare) tidyRun (fun _ => True)
    (by decide +kernel)
  exact ⟨⟨b, hb, h tidyRun b (List.prefix_refl _) hb⟩, h⟩

def Between.panicked : Between P → Option Panic
  | .error m => some m
  | .ok _ => none

def orphanRun : List (Fin 1 × Call) :=
  [(only, .mkdir (some [47, 97])), (only, .mkdir (some [47, 97, 47, 98])),
    (only, .chdir (some [47, 97, 47, 98])), (only, .unlink (some [47, 97, 47, 98])),
    (only, .unlink (some [47, 97])), (only, .open (some [46, 46]) 0)]

theorem orphanRun_dangles : Orderly small True 0 0 bare ∧
    ¬ EveryState (callStep small) (.ok bare) NoDangling orphanRun := by
  refine ⟨orderly_bare, fun h => ?_⟩
  obtain ⟨b, hrun, hb⟩ := exec_exists (callStep small) (.ok bare) orphanRun
    (fun b => b.panicked = some .noType) (by decide +kernel)
  have hnot := h _ b (List.prefix_refl _) hrun
  cases b with
  | error m => exact hnot (Option.some.inj hb)
  | ok s => cases hb

theorem no_loss_tidyRun : EveryState (callStep small) (.ok bare) NoLoss tidyRun ∧
    EveryStep (callStep small) (.ok bare) (fun b l => ∀ t u, b = .ok t →
      callStep small b l = some (.ok u) → ∀ i, 0 < names small t.inode i →
        names small u.inode i = 0 → (u.inode i).nlink.toInt < (t.inode i).nlink.toInt) tidyRun :=
  no_loss small bare { orderly_bare with tree := tree_bare.weaken } tidyRun
    (.of_check inNamed_of_check (by decide +kernel))

def lossRun : List (Fin 1 × Call) :=
  [(only, .mkdir (some [47, 100])), (only, .chdir (some [47, 100])),
    (only, .unlink (some [47, 100])), (only, .open (some [120]) O_CREATE), (only, .close 0),
    (only, .chdir (some [47]))]

def lossyB : Between P → Bool
  | .ok s => s.hist.any fun
      | .free _ x => decide (x.type = .dir) && x.entries.any fun e =>
        decide (e.inum ≠ 0 ∧ e.name ≠ dot ∧ e.name ≠ dotdot)
      | .alloc _ => false
  | .error _ => false

theorem not_noLoss_of_check {b : Between P} (h : lossyB b = true) : ¬ NoLoss b := by
  cases b with
  | error m => cases h
  | ok s =>
    intro hno
    obtain ⟨ev, hev, hx⟩ := List.any_eq_true.1 h
    cases ev with
    | alloc i => cases hx
    | free i x =>
      simp only [Bool.and_eq_true, decide_eq_true_eq, List.any_eq_true] at hx
      obtain ⟨hd, e, he, hz, h1, h2⟩ := hx
      exact (hno i x hev hd e he hz).elim h1 h2

theorem lossRun_loses : Orderly small True 0 0 bare ∧
    ¬ EveryState (callStep small) (.ok bare) NoLoss lossRun := by
  refine ⟨orderly_bare, fun h => ?_⟩
  obtain ⟨b, hrun, hb⟩ := exec_exists (callStep small) (.ok bare) lossRun
    (fun b => lossyB b = true) (by decide +kernel)
  exact not_noLoss_of_check hb (h _ b (List.prefix_refl _) hrun)

end Xv6.Sys
