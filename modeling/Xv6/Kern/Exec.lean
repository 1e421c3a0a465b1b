import Xv6.Sys.Names
import Xv6.Sys.Refs
import Xv6.Vm.Fork
import Xv6.Vm.Program

namespace Xv6.Kern

open Lib Vm Function
open Multiset (card card_zero mem_of_le nodup_of_le)

structure Proc where
  pgdir : ℕ
  sz : ℕ
  eip : ℕ
  esp : ℕ
  name : List UInt8

structure State (P : Type) where
  fs : Sys.Fs P
  phys : Phys
  proc : P → Proc
  data : ℕ → List UInt8

variable {P α : Type}

abbrev Op (P α : Type) := Prog Sys.Site ℕ (Sys.Panic ⊕ Vm.Panic) (State P) α

def fsPart : Part (State P) (Sys.Fs P) where
  get := State.fs
  set S s := { S with fs := s }
  get_set _ _ := rfl
  set_get _ := rfl
  set_set _ _ _ := rfl

def physPart : Part (State P) Phys where
  get := State.phys
  set S s := { S with phys := s }
  get_set _ _ := rfl
  set_get _ := rfl
  set_set _ _ _ := rfl

def fs (x : Sys.Op P α) : Op P α := x.zoom fsPart id id .inl

@[irreducible] def vm (x : Vm.Op α) : Op P α := x.zoom physPart Empty.elim Empty.elim .inr

def lastElem : Sys.Path → Sys.Path → Sys.Path
  | last, [] => last
  | last, c :: s => if c = Sys.slash then lastElem s s else lastElem last s

section
variable [DecidableEq P] (sb : Sys.Super) (k : Layout) (null : Vm.Op (Option ℕ))

def commit (p : P) (path : Sys.Path) (img : Image) : Op P Unit := do
  let oldpgdir ← .read fun S => (S.proc p).pgdir
  .modify fun S => { S with
    proc := update S.proc p
      ⟨img.pgdir, img.sz, img.eip, img.esp, (lastElem path path).take 15⟩ }
  vm (freevm k oldpgdir)

def enter (p : P) (path : Sys.Path) (argv : List (List UInt8)) (im : Loaded) : Op P Int := do
  match ← vm (stackImage k null im argv) with
  | none => pure (-1)
  | some img => do
      commit k p path img
      pure 0

def exec (p : P) (path : Sys.Path) (argv : List (List UInt8)) : Op P Int := do
  fs Sys.beginOp
  match ← fs (Sys.namei sb p path) with
  | none => do
      fs Sys.endOp
      pure (-1)
  | some ip => do
      fs (Sys.ilock ip)
      let c ← .read fun S => S.data ip
      match ← vm (loadImage k c) with
      | none => do
          fs (Sys.iunlockput .iput ip)
          fs Sys.endOp
          pure (-1)
      | some im => do
          fs (Sys.iunlockput .iput ip)
          fs Sys.endOp
          enter k null p path argv im

end

section
variable {β : Type} {S : State P} {E : Sys.Panic ⊕ Vm.Panic → Prop} {Q : α → State P → Prop}

def OfFs (e : Sys.Panic ⊕ Vm.Panic) : Prop := e.isLeft = true

theorem wp_fs {x : Sys.Op P α} (h : Sys.Seq False x (fun a s => Q a { S with fs := s }) S.fs) :
    (fs x).wp OfFs Q S :=
  Prog.wp_zoom (Prog.wp_error_mono h fun _ _ => rfl)

theorem wp_vm {x : Vm.Op α} {a : α} {t : Phys} (hx : x.result S.phys = (.ok a, t))
    (h : Q a { S with phys := t }) : (vm x : Op P α).wp E Q S := by
  unfold vm
  refine Prog.wp_zoom (Prog.wp_of_result ?_)
  show Prog.Ends _ _ (x.result S.phys)
  rw [hx]
  exact h

theorem locks_vm {x : Vm.Op α} {Q : α → Finset ℕ → Prop} {H : Finset ℕ} (h : ∀ a, Q a H) :
    (vm x : Op P α).Locks Q H := by
  unfold vm
  exact Prog.locks_zoom_empty h

theorem run_vm_bind [DecidableEq P] {x : Vm.Op β} {y : β → Op P α} {p : P} {b : β}
    {s t : Phys} {lock : ℕ → Option P} {fs : Sys.Fs P} {proc : P → Proc} {data : ℕ → List UInt8}
    (hx : x.result s = (.ok b, t)) :
    ((vm x : Op P β) >>= y).run p lock ⟨fs, s, proc, data⟩ =
      (y b).run p lock ⟨fs, t, proc, data⟩ := by
  unfold vm
  show ((x.zoom physPart _ _ _).bind y).run p lock _ = _
  induction x generalizing s with
  | pure a =>
    cases hx
    rfl
  | panic e => cases hx
  | acquire t i k ih => exact i.elim
  | release i k ih => exact i.elim
  | holding i k ih => exact i.elim
  | act f k ih => exact ih s hx

theorem wp_bind {x : Op P β} {y : β → Op P α}
    (h : x.wp E (fun b S => (y b).wp E Q S) S) : (x >>= y).wp E Q S :=
  (Prog.wp_bind x y).2 h

end

section
variable {k : Layout} {M : Finset ℕ} {Y : Multiset ℕ} {s s₂ : Phys} {d0 d : ℕ} {l : List ℕ}
  {T : ℕ → Option ℕ} {P : ℕ → ℕ} {C : ℕ → Bytes PGSIZE}

theorem freevm_old (hok : ∀ f ∈ M, k.Ok f) (h : Owns M d0 Y s) (hl : s.Free l)
    (h2 : Holds True (l : Multiset ℕ) s.mem d T P C 0 s₂) :
    ∃ s3, (freevm k d0).result s₂ = (.ok (), s3) ∧ Agree (pagesOf s₂ d) s₂.mem s3 := by
  have hsum := h.free_eq hl
  have hdisj := (Multiset.nodup_add.1 (hsum ▸ M.nodup)).2.2
  have hold : ∀ f ∈ pagesOf s d0, f ∉ l := fun f hf hfl =>
    Multiset.disjoint_left.1 hdisj (Multiset.mem_coe.2 hfl) (Multiset.mem_add.2 (.inl hf))
  have hpages : pagesOf s₂ d0 = pagesOf s d0 :=
    pagesOf_of_agree fun f hf => h2.work.rest f (hold f hf)
  obtain ⟨l2, hl2, hsum2⟩ := h2.work.free
  rw [add_zero] at hsum2
  have hle : (l2 : Multiset ℕ) + pagesOf s d0 ≤ M.val := by
    rw [← hsum, ← hsum2, ← add_assoc]
    refine (add_le_add_left ?_ _).trans (Multiset.le_add_right _ _)
    exact Multiset.le_add_right _ _
  have hnd := nodup_of_le hle M.nodup
  have hhas : Has True ((l2 : Multiset ℕ) + pagesOf s d0) s₂.mem d0 (tab s₂.mem d0)
      (pte s₂.mem d0) 0 s₂ := by
    refine ⟨⟨⟨l2, hl2, ?_⟩, fun _ _ => rfl, fun h => absurd trivial h⟩, rfl, rfl⟩
    rw [add_zero, ← hpages]
    rfl
  obtain ⟨_, s3, hr, hs3⟩ :=
    (freevm_spec hnd fun f hf => hok f (mem_of_le hle hf)).returns hhas
  refine ⟨s3, hr, fun f hf => hs3.rest f fun hmem => ?_⟩
  have hnew : f ∈ dirPages d T P := by
    rwa [pagesOf, h2.tab, h2.pte] at hf
  have hndl : ((l2 : Multiset ℕ) + dirPages d T P).Nodup := by
    rw [hsum2]
    refine nodup_of_le ?_ M.nodup
    rw [← hsum]
    exact Multiset.le_add_right _ _
  rcases Multiset.mem_add.1 hmem with hfree | hf0
  · exact Multiset.disjoint_left.1 (Multiset.nodup_add.1 hndl).2.2 hfree hnew
  · refine hold f hf0 (Multiset.mem_coe.1 ?_)
    rw [← hsum2]
    exact Multiset.mem_add.2 (.inr hnew)

structure Entered (im : Loaded) (s₁ : Phys) (argv : List (List UInt8)) (pr : Proc) (s : Phys) :
    Prop where
  pgdir : pr.pgdir = im.pgdir
  sz : pr.sz = (roundUp im.sz + 2) * PGSIZE
  eip : pr.eip = im.eip
  args : ∃ ptrs, ArgsAt (flat (content s.mem pr.pgdir)) argv pr.sz pr.esp ptrs
  fits : stackBytes argv ≤ PGSIZE
  stack : Usable (pte s.mem pr.pgdir (roundUp im.sz + 1))
  guard : Present (pte s.mem pr.pgdir (roundUp im.sz)) ∧
    ¬User (pte s.mem pr.pgdir (roundUp im.sz))
  zero : content s.mem pr.pgdir (roundUp im.sz) = zeros
  below : ∀ v < roundUp im.sz, SamePage pr.pgdir s₁ s v

theorem Entered.of_stacked {im : Loaded} {s1 s3 : Phys} {m0 : Mem} {L : Multiset ℕ}
    {T' : ℕ → Option ℕ} {P' : ℕ → ℕ} {C' : ℕ → Bytes PGSIZE} {argv : List (List UInt8)} {pr : Proc}
    (hok : ∀ f ∈ L, k.Ok f) (hd : pr.pgdir = im.pgdir) (hsz : pr.sz = (roundUp im.sz + 2) * PGSIZE)
    (heip : pr.eip = im.eip) (hspace : Space True k P im.sz)
    (h1 : Holds True L m0 im.pgdir T P C 0 s1) (h2 : Holds True L m0 pr.pgdir T' P' C' 0 s₂)
    (hst : Stacked k P C (roundUp im.sz + 2) argv P' C' pr.esp)
    (h3 : Agree (pagesOf s₂ pr.pgdir) s₂.mem s3) : Entered im s1 argv pr s3 := by
  have hle := hst.guarded.le
  have hpres : ∀ v < roundUp im.sz + 2, Present (P' v) := fun v hv =>
    hst.space.full trivial v (Nat.mul_lt_mul_of_pos_right hv (by decide))
  have hpte : pte s3.mem pr.pgdir = P' := (dir_of_agree h3).2.trans h2.pte
  have hdata : ∀ v < roundUp im.sz + 2, content s3.mem pr.pgdir v = C' v := by
    intro v hv
    have hp := hpres v hv
    unfold content
    rw [hpte, ← h2.data v (hv.trans_le hle) hp]
    refine h3 _ ?_
    rw [pagesOf, h2.tab, h2.pte]
    exact mem_dirPages_user (hv.trans_le hle) hp
  refine ⟨hd, hsz, heip, ⟨((argPieces argv pr.sz).map Prod.fst), ?_⟩, hst.fits, ?_, ⟨?_, ?_⟩, ?_,
    ?_⟩
  · have hargs := argsAt_stackPieces (φ := flat (zeroed C (roundUp im.sz + 2 - 2)
      (roundUp im.sz + 2))) hst.fits (Nat.le_mul_of_pos_left PGSIZE (Nat.succ_pos _))
      hst.guarded.size_le (by simp only [PGSIZE]; omega)
    rw [← hst.bytes, ← hst.sp_eq, ← hsz] at hargs
    refine hargs.congr fun a hlo hhi => ?_
    have hpage : a / PGSIZE < roundUp im.sz + 2 :=
      Nat.div_lt_of_lt_mul (by rwa [Nat.mul_comm, ← hsz])
    unfold flat
    rw [hdata _ hpage]
  · rw [hpte]
    exact h2.toHas.usable hok ((Nat.lt_succ_self _).trans_le hle) (hpres _ (by omega)) hst.user
  · rw [hpte]
    exact hpres _ (by omega)
  · rw [hpte]
    intro huser
    have huse := h2.toHas.usable hok (by omega) (hpres (roundUp im.sz) (by omega)) huser
    exact (hst.guarded.usable _ huse).2 rfl
  · rw [hdata _ (by omega), hst.page (by omega), zeroed, if_pos ⟨le_rfl, by omega⟩]
  · intro v hv
    have hp : Present (P v) := hspace.full trivial v (lt_roundUp.1 hv)
    refine ⟨?_, ?_⟩
    · rw [hpte, hst.below v (by omega), hd, h1.pte]
    · rw [hdata v (by omega), hst.page (by omega), zeroed, if_neg (by omega)]
      unfold content
      rw [hd, h1.pte, h1.data v (by omega) hp]

end

structure Unchanged (S S' : State P) : Prop where
  proc : S'.proc = S.proc
  use : Sys.SameUse S.fs S'.fs
  ref : S'.fs.ref = S.fs.ref
  free : ∀ l, S.phys.Free l → ∃ l', S'.phys.Free l' ∧ l'.Perm l
  pages : ∀ l, S.phys.Free l → ∀ f ∉ l, S'.phys.mem f = S.phys.mem f

section
variable [DecidableEq P] {sb : Sys.Super} {k : Layout} {M : Finset ℕ} {Y : Multiset ℕ}
  {S : State P} {p : P} {path : Sys.Path} {argv : List (List UInt8)}

omit [DecidableEq P] in
theorem Unchanged.of_ended {l : List ℕ} {s : Sys.Fs P} {t : Phys} (hl : S.phys.Free l)
    (huse : Sys.SameUse { S.fs with outstanding := S.fs.outstanding + 1 } s)
    (href : s.ref = S.fs.ref) (ht : Work True (l : Multiset ℕ) S.phys.mem 0 t) :
    Unchanged S { S with fs := { s with outstanding := s.outstanding - 1 }, phys := t } where
  proc := rfl
  use := by
    refine ⟨huse.file, huse.ofile, huse.cwd, ?_⟩
    show s.outstanding - 1 = S.fs.outstanding
    rw [huse.outstanding]
    exact Nat.add_sub_cancel _ 1
  ref := href
  free l1 hl1 := by
    obtain ⟨l', hl', hsum⟩ := ht.free
    rw [add_zero] at hsum
    rw [hl1.unique hl kva_ne_zero kva_injective]
    exact ⟨l', hl', Multiset.coe_eq_coe.1 hsum⟩
  pages l1 hl1 f hf := by
    rw [hl1.unique hl kva_ne_zero kva_injective] at hf
    exact ht.rest f hf

def Finished (k : Layout) (p : P) (argv : List (List UInt8)) (S : State P) (r : Int)
    (S' : State P) : Prop :=
  r = -1 ∧ Unchanged S S' ∨
  r = 0 ∧ ∃ ip im s₁, (loadImage k (S.data ip)).result S.phys = (.ok (some im), s₁) ∧
    Entered im s₁ argv (S'.proc p) S'.phys

theorem enter_wp {l : List ℕ} {ip : ℕ} {im : Loaded} {s : Sys.Fs P} {s1 : Phys}
    {T : ℕ → Option ℕ} {Q : ℕ → ℕ} {C : ℕ → Bytes PGSIZE} (hok : ∀ f ∈ M, k.Ok f)
    (h : Owns M (S.proc p).pgdir Y S.phys) (hl : S.phys.Free l)
    (huse : Sys.SameUse { S.fs with outstanding := S.fs.outstanding + 1 } s)
    (href : s.ref = S.fs.ref)
    (hr : (loadImage k (S.data ip)).result S.phys = (.ok (some im), s1))
    (hspace : Space True k Q im.sz)
    (h1 : Holds True (l : Multiset ℕ) S.phys.mem im.pgdir T Q C 0 s1) :
    (enter k (pure none) p path argv im).wp OfFs (Finished k p argv S)
      { S with fs := { s with outstanding := s.outstanding - 1 }, phys := s1 } := by
  have hle : (l : Multiset ℕ) ≤ M.val := by
    rw [← h.free_eq hl]
    exact Multiset.le_add_right _ _
  have hokl : ∀ f ∈ (l : Multiset ℕ), k.Ok f := fun f hf => hok f (mem_of_le hle hf)
  obtain ⟨r2, s₂, hr2, hs2⟩ :=
    stackImage_returns (nodup_of_le hle M.nodup) hokl im argv hspace h1
  refine wp_bind (wp_vm hr2 ?_)
  cases r2 with
  | none => exact .inl ⟨rfl, .of_ended hl huse href hs2.1⟩
  | some img =>
    obtain ⟨hd, heip, hsz, T', P', C', h2, hst⟩ := hs2
    obtain ⟨s3, hr3, h3⟩ := freevm_old hok h hl h2
    refine wp_bind (wp_bind (wp_bind (wp_vm hr3 (.inr ⟨rfl, ip, im, s1, hr, ?_⟩))))
    show Entered im s1 argv (update S.proc p _ p) s3
    rw [update_self]
    exact .of_stacked hokl hd hsz heip hspace h1 h2 hst h3

theorem exec_wp (hok : ∀ f ∈ M, k.Ok f) (h : Owns M (S.proc p).pgdir Y S.phys) :
    (exec sb k (pure none) p path argv).wp OfFs (Finished k p argv S) S := by
  obtain ⟨l, hl, hle, -, hw⟩ := h.work
  have hnd : (l : Multiset ℕ).Nodup := nodup_of_le hle M.nodup
  have hokl : ∀ f ∈ (l : Multiset ℕ), k.Ok f := fun f hf => hok f (mem_of_le hle hf)
  refine wp_bind (wp_fs ?_)
  refine wp_bind (wp_fs (Prog.wp_mono Sys.seq_namei_refs ?_))
  rintro (_ | ip) s ⟨huse, href⟩
  · exact wp_bind (wp_fs (.inl ⟨rfl, .of_ended hl huse href hw⟩))
  refine wp_bind (wp_fs (Sys.seq_ilock_any ?_))
  have hput := huse.trans ((Sys.sameUse_load s ip).trans (Sys.sameUse_put (s.load ip) ip))
  have hback : (((s.load ip).reap ip).drop ip).ref = S.fs.ref := Sys.Fs.ref_put href
  obtain ⟨r, s1, hr, hs1⟩ := (loadImage_spec hnd hokl (c := S.data ip)).returns hw
  refine wp_bind (wp_bind (wp_vm hr ?_))
  cases r with
  | none =>
    exact wp_bind (wp_fs (Sys.seq_iunlockput (wp_bind (wp_fs
      (.inl ⟨rfl, .of_ended hl hput hback hs1.1⟩)))))
  | some im =>
    obtain ⟨T, Q, C, elf, hs, h1, -, hprog⟩ := hs1
    exact wp_bind (wp_fs (Sys.seq_iunlockput (wp_bind (wp_fs
      (enter_wp hok h hl hput hback hr hprog.segs.space h1)))))

theorem exec_locks {null : Vm.Op (Option ℕ)} :
    (exec sb k null p path argv).Locks (fun _ H => H = ∅) ∅ := by
  have henter : ∀ im, (enter k null p path argv im).Locks (fun _ H => H = ∅) ∅ := by
    intro im
    refine locks_bind (locks_vm fun r => ?_)
    cases r with
    | none => rfl
    | some img =>
      exact locks_bind (locks_bind fun _ => locks_bind fun _ =>
        locks_vm fun _ => rfl)
  refine locks_bind (Prog.locks_zoom fun _ => ?_)
  refine locks_bind (Prog.locks_zoom (Sys.locks_namei fun r => ?_))
  cases r with
  | none => exact locks_bind (Prog.locks_zoom fun _ => rfl)
  | some ip =>
    refine locks_bind (Prog.locks_zoom (Sys.locks_ilock ?_))
    refine locks_bind fun _ => locks_bind (locks_vm fun r => ?_)
    cases r with
    | none =>
      exact locks_bind (Prog.locks_zoom (Sys.locks_iunlockput
        (locks_bind (Prog.locks_zoom fun _ => rfl))))
    | some im =>
      exact locks_bind (Prog.locks_zoom (Sys.locks_iunlockput
        (locks_bind (Prog.locks_zoom fun _ => henter im))))

theorem exec_run (sb : Sys.Super) (path : Sys.Path) (argv : List (List UInt8))
    (hok : ∀ f ∈ M, k.Ok f) (h : Owns M (S.proc p).pgdir Y S.phys) :
    match (exec sb k (pure none) p path argv).run p (fun _ => none) S with
    | .blocked _ => False
    | .panicked e => OfFs e
    | .done r lock S' => (lock = fun _ => none) ∧ Finished k p argv S r S' := by
  have hlocks : Prog.Outcome.Frees p (fun _ H => H = ∅)
      ((exec sb k (pure none) p path argv).run p (fun _ => none) S) :=
    Prog.run_of_locks (fun _ => (if_neg (Finset.notMem_empty _)).symm) exec_locks
  have hends : Prog.Outcome.Meets OfFs (Finished k p argv S)
      ((exec sb k (pure none) p path argv).run p (fun _ => none) S) :=
    Prog.run_of_wp p (fun _ => none) (exec_wp hok h)
  cases hrun : (exec sb k (pure none) p path argv).run p (fun _ => none) S with
  | blocked i =>
    rw [hrun] at hlocks
    exact hlocks
  | panicked e =>
    rw [hrun] at hends
    exact hends
  | done r lock S' =>
    rw [hrun] at hlocks hends
    obtain ⟨_, rfl, hlock⟩ := hlocks
    refine ⟨funext fun i => ?_, hends⟩
    rw [hlock i, if_neg (Finset.notMem_empty i)]

theorem exec_fails_cleanly (sb : Sys.Super) (path : Sys.Path) (argv : List (List UInt8))
    (hok : ∀ f ∈ M, k.Ok f) (h : Owns M (S.proc p).pgdir Y S.phys) :
    match (exec sb k (pure none) p path argv).run p (fun _ => none) S with
    | .blocked _ => False
    | .panicked e => OfFs e
    | .done r lock S' => r = -1 → (lock = fun _ => none) ∧ Unchanged S S' ∧
        pte S'.phys.mem (S.proc p).pgdir = pte S.phys.mem (S.proc p).pgdir ∧
        SameView (S.proc p).pgdir S'.phys S.phys := by
  have hrun := exec_run sb path argv hok h
  revert hrun
  cases (exec sb k (pure none) p path argv).run p (fun _ => none) S with
  | blocked i => exact id
  | panicked e => exact id
  | done r lock S' =>
    rintro ⟨hlock, hfin⟩ rfl
    have hsame : Unchanged S S' := by
      rcases hfin with ⟨-, hsame⟩ | ⟨h0, -⟩
      · exact hsame
      · exact absurd h0 (by decide)
    obtain ⟨l, hl, -, hnot, -⟩ := h.work
    have hagree : Agree (pagesOf S.phys (S.proc p).pgdir) S.phys.mem S'.phys := fun f hf =>
      hsame.pages l hl f (hnot f hf)
    exact ⟨hlock, hsame, (dir_of_agree hagree).2, sameView_of_agree hagree⟩

theorem exec_passes_arguments (sb : Sys.Super) (path : Sys.Path) (argv : List (List UInt8))
    (hok : ∀ f ∈ M, k.Ok f) (h : Owns M (S.proc p).pgdir Y S.phys) :
    match (exec sb k (pure none) p path argv).run p (fun _ => none) S with
    | .blocked _ => False
    | .panicked e => OfFs e
    | .done r _ S' => (PGSIZE < stackBytes argv → r = -1) ∧
        (r ≠ -1 → r = 0 ∧ ∃ ip im s₁,
          (loadImage k (S.data ip)).result S.phys = (.ok (some im), s₁) ∧
          Entered im s₁ argv (S'.proc p) S'.phys) := by
  have hrun := exec_run sb path argv hok h
  revert hrun
  cases (exec sb k (pure none) p path argv).run p (fun _ => none) S with
  | blocked i => exact id
  | panicked e => exact id
  | done r lock S' =>
    rintro ⟨-, ⟨rfl, -⟩ | ⟨rfl, ip, im, s₁, hload, hent⟩⟩
    · exact ⟨fun _ => rfl, fun hne => absurd rfl hne⟩
    · exact ⟨fun hbig => absurd hent.fits (not_le.2 hbig), fun _ => ⟨rfl, ip, im, s₁, hload, hent⟩⟩

end

def boot (d : ℕ) (s : Phys) (c : List UInt8) : State (Fin 1) where
  fs := Sys.bare
  phys := s
  proc := fun _ => ⟨d, 0, 0, 0, []⟩
  data := fun _ => c

def cutElf : List UInt8 :=
  ([ELF_MAGIC, 0, 0, 0, 0, 0, 0, 52, 0, 0, 0, 1, 0] ++
    [ELF_PROG_LOAD, 84, 0, 0, 4, 4, 0, 0]).flatMap (digits 4)

theorem cutElf_headers : (readHeader cutElf 0 52).map Elfhdr.ofBytes = some ⟨ELF_MAGIC, 0, 52, 1⟩ ∧
    progHeaders cutElf 1 52 = some [⟨ELF_PROG_LOAD, 84, 0, 4, 4⟩] := by
  decide +kernel

theorem loadImage_cutElf {k : Layout} {l : List ℕ} {s : Phys} (hl : s.Free l) (hnd : l.Nodup)
    (hok : ∀ f ∈ l, k.Ok f) : ∃ s', (loadImage k cutElf).result s = (.ok none, s') := by
  obtain ⟨r, s', hr, hs'⟩ :=
    (loadImage_spec (Multiset.coe_nodup.2 hnd) hok (c := cutElf)).returns hl.work
  cases r with
  | none => exact ⟨s', hr⟩
  | some im =>
    obtain ⟨T, Q, C, elf, hs, -, -, hprog⟩ := hs'
    obtain rfl := Option.some.inj (hprog.header.symm.trans cutElf_headers.1)
    obtain rfl := Option.some.inj (hprog.segs.headers.symm.trans cutElf_headers.2)
    have hfile := (hprog.segs.fits _ List.mem_cons_self).file
    exact absurd hfile (by decide +kernel)

theorem exec_fails_cleanly_boot : ∃ (d : ℕ) (s : Phys) (lock : ℕ → Option (Fin 1))
    (S' : State (Fin 1)), Owns stock d {0x103} s ∧
    (exec Sys.small smallKernel (pure none) 0 [Sys.slash] []).run (0 : Fin 1) (fun _ => none)
      (boot d s cutElf) = .done (-1) lock S' ∧ (lock = fun _ => none) ∧
    Unchanged (boot d s cutElf) S' := by
  obtain ⟨d, s, hs, -⟩ := boot_proper
  obtain ⟨l, hl, hle, -, -⟩ := hs.owns.work
  obtain ⟨s', hload⟩ := loadImage_cutElf hl (Multiset.coe_nodup.1 (nodup_of_le hle stock.nodup))
    fun f hf => stock_ok f (mem_of_le hle hf)
  have hrun : ∃ lock S', (exec Sys.small smallKernel (pure none) 0 [Sys.slash] []).run (0 : Fin 1)
      (fun _ => none) (boot d s cutElf) = .done (-1) lock S' := by
    apply Exists.intro
    apply Exists.intro
    exact (run_vm_bind hload).trans rfl
  obtain ⟨lock, S', hrun⟩ := hrun
  have hend := exec_fails_cleanly (S := boot d s cutElf) (p := 0) Sys.small [Sys.slash] []
    stock_ok hs.owns
  rw [hrun] at hend
  exact ⟨d, s, lock, S', hs.owns, hrun, (hend rfl).1, (hend rfl).2.1⟩

theorem run_exec_root {d : ℕ} {s s1 s₂ s3 : Phys} {c : List UInt8} {argv : List (List UInt8)}
    {im : Loaded} {img : Image} {k : Layout}
    (hload : (loadImage k c).result s = (.ok (some im), s1))
    (hstack : (stackImage k (pure none) im argv).result s1 = (.ok (some img), s₂))
    (hfree : (freevm k d).result s₂ = (.ok (), s3)) :
    ∃ lock S', (exec Sys.small k (pure none) 0 [Sys.slash] argv).run (0 : Fin 1) (fun _ => none)
      (boot d s c) = .done 0 lock S' := by
  apply Exists.intro
  apply Exists.intro
  refine (run_vm_bind hload).trans ?_
  refine (run_vm_bind hstack).trans ?_
  exact (run_vm_bind hfree).trans rfl

theorem boot_image : ∃ (d d' : ℕ) (s s1 s₂ : Phys) (img : Image), Owns stock d {0x103} s ∧
    (loadImage smallKernel tinyElf).result s = (.ok (some ⟨d', 0, 0⟩), s1) ∧
    (stackImage smallKernel (pure none) ⟨d', 0, 0⟩ [[97]]).result s1 = (.ok (some img), s₂) := by
  obtain ⟨-, -, s, d, T, -, -, -, hs⟩ := boot_setupkvm
  have hcard : card (dirPages d T (kernelMap smallKernel) + {0x103}) ≤ 1026 := by
    have hdir := card_dirPages (d := d) (T := T) (P := kernelMap smallKernel)
    rw [userPages_kernelMap, card_zero] at hdir
    rw [Multiset.card_add, Multiset.card_singleton]
    omega
  obtain ⟨r, s1, hr, hs1⟩ := (setupkvm_spec stock.nodup stock_ok).returns hs.work
  cases r with
  | none =>
    have hshort := hs1.2.resolve_left not_false
    rw [stock_card] at hshort
    omega
  | some d' =>
    obtain ⟨T', -, hs1⟩ := hs1
    have hspace : Space True smallKernel (kernelMap smallKernel) 0 := .zero _
    obtain ⟨r2, s₂, hr2, hs2⟩ :=
      stackImage_returns stock.nodup stock_ok ⟨d', 0, 0⟩ [[97]] hspace hs1.holds
    cases r2 with
    | none =>
      exfalso
      rcases hs2.2 with h | h | h | h
      · have hlarge : ¬KERNBASE ≤ (roundUp 0 + 2) * PGSIZE := by decide
        exact hlarge h
      · have hshort := h.resolve_left not_false
        rw [stock_card, userPages_kernelMap, card_zero] at hshort
        omega
      · exact absurd h (by decide)
      · exact absurd h (by decide)
    | some img => exact ⟨d, d', s, s1, s₂, img, hs.owns, loadImage_tinyElf hr, hr2⟩

theorem exec_passes_arguments_boot : ∃ (d : ℕ) (s : Phys) (lock : ℕ → Option (Fin 1))
    (S' : State (Fin 1)) (im : Loaded) (s₁ : Phys), Owns stock d {0x103} s ∧
    (exec Sys.small smallKernel (pure none) 0 [Sys.slash] [[97]]).run (0 : Fin 1) (fun _ => none)
      (boot d s tinyElf) = .done 0 lock S' ∧ Entered im s₁ [[97]] (S'.proc 0) S'.phys := by
  obtain ⟨d, d', s, s₁, s₂, img, hown, hload, hstack⟩ := boot_image
  obtain ⟨l, hl, hle, -, hw⟩ := hown.work
  have hnd : (l : Multiset ℕ).Nodup := Multiset.nodup_of_le hle stock.nodup
  have hok : ∀ f ∈ (l : Multiset ℕ), smallKernel.Ok f := fun f hf =>
    stock_ok f (Multiset.mem_of_le hle hf)
  have hnull : NullKnown (pure none) := .inl rfl
  obtain ⟨T, Q, C, elf, hs, h₁, -, hprog⟩ := (loadImage_spec hnd hok).of_ok hw hload
  obtain ⟨-, -, -, T', Q', C', h₂, -⟩ :=
    (stackImage_spec hnd hok hnull hprog.segs.space).of_ok h₁ hstack
  obtain ⟨s₃, hfree, -⟩ := freevm_old stock_ok hown hl h₂
  obtain ⟨lock, S', hrun⟩ := run_exec_root hload hstack hfree
  have hend := exec_passes_arguments (S := boot d s tinyElf) (p := 0) Sys.small [Sys.slash] [[97]]
    stock_ok hown
  rw [hrun] at hend
  obtain ⟨-, ip, im, t, -, hent⟩ := hend.2 (by decide)
  exact ⟨d, s, lock, S', im, t, hown, hrun, hent⟩

end Xv6.Kern
