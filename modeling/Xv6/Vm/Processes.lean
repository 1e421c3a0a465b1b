import Xv6.Vm.Fork
import Xv6.Vm.Stack

namespace Xv6.Vm

open Lib

structure Proc where
  kstack : ℕ
  pgdir : ℕ
  sz : ℕ

inductive Call where
  | fork
  | sbrk (n : ℤ)
  | exec (file : List UInt8) (argv : List (List UInt8))
  | wait

section
variable (k : Layout)

def fork (full : Bool) (p : Proc) : Op (Option Proc) :=
  if full then pure none
  else do
    match ← kalloc k with
    | none => pure none
    | some kstack => do
        match ← copyuvm k p.pgdir p.sz with
        | none => do
            kfree k kstack
            pure none
        | some d => pure (some ⟨kstack, d, p.sz⟩)

def Call.run (full : Bool) (p : Proc) : Call → Op (List Proc)
  | .fork => do
      let q ← Vm.fork k full p
      pure (p :: q.toList)
  | .sbrk n => do
      let sz ← growproc k p.pgdir p.sz n
      pure [{ p with sz := sz.getD p.sz }]
  | .exec file argv => do
      match ← buildImage k (.panic .null) file argv with
      | none => pure [p]
      | some img => do
          freevm k p.pgdir
          pure [⟨p.kstack, img.pgdir, img.sz⟩]
  | .wait => do
      kfree k p.kstack
      freevm k p.pgdir
      pure []

def Call.allowed (p : Proc) : Call → Bool
  | .sbrk n => decide (n < 0 → addInt p.sz n ≠ 0)
  | .exec _ argv => decide (∀ arg ∈ argv, arg.length + 1 ≤ MAXSTR)
  | _ => true

structure Machine where
  phys : Phys
  procs : List Proc

def Machine.step (S : Machine) (l : ℕ × Call) : Option Machine :=
  match S.procs[l.1]? with
  | none => none
  | some p =>
    if l.2.allowed p then
      match (l.2.run k (decide (NPROC ≤ S.procs.length)) p).result S.phys with
      | (.ok qs, s) => some ⟨s, qs ++ S.procs.eraseIdx l.1⟩
      | (.error _, _) => none
    else none

end

def Proc.pages (s : Phys) (p : Proc) : Multiset ℕ := pagesOf s p.pgdir + {p.kstack}

structure Settled (k : Layout) (ps : List Proc) (X : Multiset ℕ) (s : Phys) : Prop where
  pages : (ps.map (Proc.pages s)).sum = X
  space : ∀ p ∈ ps, Space True k (pte s.mem p.pgdir) p.sz

def Machine.Accounted (k : Layout) (M : Finset ℕ) (S : Machine) : Prop :=
  ∃ l : List ℕ, ∃ X, S.phys.Free l ∧ (l : Multiset ℕ) + X = M.val ∧ Settled k S.procs X S.phys

section
variable {k : Layout} {P P' : ℕ → ℕ} {sz newsz : ℕ}

theorem Space.shrink (h : Space True k P sz) (hlt : newsz < sz) :
    Space True k (unmap P (roundUp newsz) (roundUp sz)) newsz where
  le := hlt.le.trans h.le
  clean v hv := by
    unfold unmap
    split
    · exact .inr rfl
    · exact h.clean v hv
  above v hv hge := by
    have hlo : roundUp newsz ≤ v := not_lt.1 fun hc => absurd (lt_roundUp.1 hc) (by omega)
    unfold unmap
    split
    · rfl
    rename_i hout
    refine (h.clean v hv).resolve_left fun hp => hout ⟨hlo, lt_roundUp.2 ?_, hp⟩
    by_contra hsz
    rw [h.above v hv (not_lt.1 hsz)] at hp
    exact absurd hp Nat.zero_ne_one
  full _ v hv := by
    have hlo := lt_roundUp.2 hv
    rw [unmap, if_neg (by omega)]
    exact h.full trivial v (hv.trans hlt)
  kern v hv := by
    have hup := roundUp_le_KERNPAGE h.le
    rw [unmap, if_neg (by omega)]
    exact h.kern v hv

theorem Copied.space (hc : Copied P (kernelMap k) P' (roundUp sz)) (h : Space True k P sz) :
    Space True k P' sz where
  le := h.le
  clean v hv := by
    have hx := hc v
    split at hx
    · obtain ⟨f, hf⟩ := hx
      exact .inl (hf ▸ present_mkPte ..)
    · exact .inr (hx.trans (kernelMap_user hv))
  above v hv hge := by
    have hx := hc v
    rw [if_neg fun hlt => absurd (lt_roundUp.1 hlt) (by omega)] at hx
    exact hx.trans (kernelMap_user hv)
  full _ v hv := by
    have hx := hc v
    rw [if_pos (lt_roundUp.2 hv)] at hx
    obtain ⟨f, hf⟩ := hx
    exact hf ▸ present_mkPte ..
  kern v hv := by
    have hup := roundUp_le_KERNPAGE h.le
    have hx := hc v
    rwa [if_neg (by omega)] at hx

end

section
variable {k : Layout} {F : Prop} {L X Z : Multiset ℕ} {m : Mem} {s s' : Phys}

theorem Work.frame (h : Work F L m X s) (Z : Multiset ℕ) : Work F (L + Z) m (X + Z) s := by
  obtain ⟨l, hl, hsum⟩ := h.free
  refine ⟨⟨l, hl, by rw [← add_assoc, hsum]⟩, fun f hf => ?_, h.calm⟩
  exact h.rest f fun hL => hf (Multiset.mem_add.2 (.inl hL))

variable {d sz : ℕ} {T : ℕ → Option ℕ} {P : ℕ → ℕ} {C : ℕ → Bytes PGSIZE} {n : ℤ}

theorem growproc_space (hL : L.Nodup) (hok : ∀ f ∈ L, k.Ok f) (h : Space True k P sz)
    (hn : n < 0 → addInt sz n ≠ 0) :
    Triple (Holds F L m d T P C X) (growproc k d sz n)
      (fun r s => ∃ T' P' C', Holds F L m d T' P' C' X s ∧ Space True k P' (r.getD sz))
      Never := by
  unfold growproc
  refine .ite (fun _ => ?_) fun _ => .ite (fun hneg => ?_) fun _ => .pure fun s hs =>
    ⟨T, P, C, hs, h⟩
  · refine .bind (allocuvm_space hL hok h _) fun r => .of_exists fun T' => ?_
    refine .ite (fun h0 => .pure fun s hs => ?_) fun h0 => .pure fun s hs => ?_
    · rw [if_pos h0] at hs
      exact ⟨T', P, C, hs.2.2.1, h⟩
    · rw [if_neg h0] at hs
      obtain ⟨-, -, P', hs⟩ := hs
      exact ⟨T', P', _, hs.holds, hs.space⟩
  · by_cases hge : sz ≤ addInt sz n
    · unfold deallocuvm
      rw [if_pos hge]
      refine .ite (fun h0 => .pure fun s hs => ⟨T, P, C, hs, h⟩) fun h0 => .pure fun s hs =>
        ⟨T, P, C, hs, h⟩
    · refine .bind (deallocuvm_holds hL hok h.le (not_le.1 hge)) fun r => .of_and fun hr => ?_
      rw [hr, if_neg (hn hneg)]
      exact .pure fun s hs => ⟨T, _, C, hs, h.shrink (not_le.1 hge)⟩

theorem Has.settled {p : Proc} (h : Has F L m p.pgdir T P X s) (hsp : Space True k P p.sz) :
    Settled k [p] (dirPages p.pgdir T P + {p.kstack}) s where
  pages := by rw [List.map_singleton, List.sum_singleton, Proc.pages, pagesOf, h.tab, h.pte]
  space := List.forall_mem_singleton.2 (by rwa [h.pte])

namespace Settled

variable {ps qs : List Proc}

theorem nil : Settled k [] 0 s := ⟨rfl, fun _ hq => absurd hq List.not_mem_nil⟩

theorem append (hp : Settled k ps X s) (hq : Settled k qs Z s) :
    Settled k (ps ++ qs) (X + Z) s where
  pages := by rw [List.map_append, List.sum_append, hp.pages, hq.pages]
  space p h := (List.mem_append.1 h).elim (hp.space p) (hq.space p)

theorem keep (h : Settled k ps X s) (hX : Agree X s.mem s') : Settled k ps X s' := by
  induction ps generalizing X with
  | nil =>
    rw [← h.pages, List.map_nil, List.sum_nil]
    exact nil
  | cons q ps ih =>
    obtain ⟨hpages, hspace⟩ := h
    rw [List.map_cons, List.sum_cons] at hpages
    have hq : Agree (pagesOf s q.pgdir) s.mem s' := fun f hf =>
      hX f (hpages ▸ Multiset.mem_add.2 (.inl (Multiset.mem_add.2 (.inl hf))))
    have hps := ih ⟨rfl, fun p hp => hspace p (List.mem_cons_of_mem _ hp)⟩ fun f hf =>
      hX f (hpages ▸ Multiset.mem_add.2 (.inr hf))
    refine ⟨?_, List.forall_mem_cons.2 ⟨?_, hps.space⟩⟩
    · rw [List.map_cons, List.sum_cons, hps.pages, Proc.pages, pagesOf_of_agree hq]
      exact hpages
    · rw [(dir_of_agree hq).2]
      exact hspace q List.mem_cons_self

theorem erase {i : ℕ} {p : Proc} (h : Settled k ps X s) (hi : ps[i]? = some p) :
    ∃ Z, p.pages s + Z = X ∧ Settled k (ps.eraseIdx i) Z s := by
  obtain ⟨hlt, rfl⟩ := List.getElem?_eq_some_iff.1 hi
  refine ⟨_, ?_, rfl, fun q hq => h.space q (List.mem_of_mem_eraseIdx hq)⟩
  rw [← h.pages, ← ((List.getElem_cons_eraseIdx_perm hlt).map (Proc.pages s)).sum_eq,
    List.map_cons, List.sum_cons]

end Settled

theorem fork_spec {p : Proc} (full : Bool) (hL : L.Nodup) (hok : ∀ f ∈ L, k.Ok f)
    (h : Space True k (pte s.mem p.pgdir) p.sz) (hnot : ∀ f ∈ pagesOf s p.pgdir, f ∉ L)
    (hw : Work F L s.mem 0 s) :
    Triple (· = s) (fork k full p)
      (fun r s' =>
        match r with
        | none => Work F L s.mem 0 s' ∧ (full = true ∨ Short F L (1027 + roundUp p.sz))
        | some q => q.sz = p.sz ∧ ∃ T P C, Holds F L s.mem q.pgdir T P C {q.kstack} s' ∧
            Space True k P q.sz)
      Never := by
  unfold fork
  refine .ite (fun hfull => .pure fun s' hs => ⟨hs ▸ hw, .inl hfull⟩) fun _ => ?_
  refine .bind ((kalloc_spec hL hok s.mem).start ⟨hw, rfl⟩) fun r => ?_
  cases r with
  | none =>
    refine .pure fun s' hs => ⟨hs.2.1, .inr (hs.2.2.imp_right fun h0 => ?_)⟩
    rw [← h0, Multiset.card_zero]
    omega
  | some f =>
    have hcopy := (copyuvm_spec (F := F) (Y := {f}) hL hok h.le
      ⟨hnot _ dir_mem_pagesOf, fun i t ht => hnot t (tab_mem_pagesOf ht)⟩
      fun x hx hp => hnot _ (mem_dirPages_user (hx.trans_le (roundUp_le_KERNPAGE h.le)) hp)).err
        fun _ _ ⟨_, x, hx, hp⟩ => hp (h.full trivial x (lt_roundUp.1 hx))
    refine .bind (hcopy.pre fun _ hs => hs.2.1) fun r => ?_
    cases r with
    | none =>
      refine .of_state fun s1 hs1 => .bind ((kfree_spec hL hok
        (hs1.1.mem (Multiset.mem_singleton_self f)) s1.mem).start ⟨hs1.1, rfl⟩) fun _ =>
        .pure fun s' hs => ⟨hs.1, .inr (hs1.2.mono ?_)⟩
      rw [Multiset.card_singleton]
      omega
    | some d =>
      refine .pure fun s' hs => ?_
      obtain ⟨T, P, hc, hs⟩ := hs
      exact ⟨rfl, T, P, _, hs, hc.space h⟩

structure Ready (k : Layout) (p : Proc) (L : Multiset ℕ) (s : Phys) : Prop where
  work : Work True L s.mem 0 s
  nodup : (L + p.pages s).Nodup
  ok : ∀ f ∈ L + p.pages s, k.Ok f
  space : Space True k (pte s.mem p.pgdir) p.sz

def After (k : Layout) (p : Proc) (L : Multiset ℕ) (s : Phys) (qs : List Proc) (s' : Phys) : Prop :=
  ∃ X, Work True (L + p.pages s) s.mem X s' ∧ Settled k qs X s'

namespace Ready

variable {p : Proc} {qs : List Proc} {full : Bool} (h : Ready k p L s)
include h

theorem nodup_free : L.Nodup := (Multiset.nodup_add.1 h.nodup).1

theorem ok_free : ∀ f ∈ L, k.Ok f := fun f hf => h.ok f (Multiset.mem_add.2 (.inl hf))

theorem notMem : ∀ f ∈ p.pages s, f ∉ L := fun _ hf hl =>
  Multiset.disjoint_left.1 (Multiset.nodup_add.1 h.nodup).2.2 hl hf

theorem notMem_dir : ∀ f ∈ pagesOf s p.pgdir, f ∉ L := fun f hf =>
  h.notMem f (Multiset.mem_add.2 (.inl hf))

theorem settled : Settled k [p] (p.pages s) s :=
  ⟨List.sum_singleton, List.forall_mem_singleton.2 h.space⟩

theorem holds : Holds True (L + p.pages s) s.mem p.pgdir (tab s.mem p.pgdir) (pte s.mem p.pgdir)
    (content s.mem p.pgdir) {p.kstack} s :=
  ⟨⟨(h.work.frame _).of_eq (zero_add _), rfl, rfl⟩, fun _ _ _ => rfl⟩

theorem back (hw : Work True L s.mem X s') (hq : Settled k qs X s') : After k p L s (p :: qs) s' :=
  ⟨_, hw.frame (p.pages s), add_comm (p.pages s) X ▸
    (h.settled.keep fun f hf => hw.rest f (h.notMem f hf)).append hq⟩

theorem fork : Triple (· = s) (Call.fork.run k full p) (After k p L s) Never := by
  refine .bind (fork_spec full h.nodup_free h.ok_free h.space h.notMem_dir h.work) fun r => ?_
  refine .pure fun s' hr => ?_
  cases r with
  | none => exact h.back hr.1 .nil
  | some q =>
    obtain ⟨-, T, P, C, hs, hsp⟩ := hr
    exact h.back hs.work (hs.toHas.settled hsp)

theorem sbrk {n : ℤ} (hn : n < 0 → addInt p.sz n ≠ 0) :
    Triple (· = s) ((Call.sbrk n).run k full p) (After k p L s) Never := by
  refine .bind ((growproc_space h.nodup h.ok h.space hn).start h.holds) fun r =>
    .pure fun s' hs => ?_
  obtain ⟨T, P, C, hs, hsp⟩ := hs
  exact ⟨_, hs.work, hs.toHas.settled (p := { p with sz := r.getD p.sz }) hsp⟩

theorem wait : Triple (· = s) (Call.wait.run k full p) (After k p L s) Never := by
  have hmem : p.kstack ∈ L + p.pages s :=
    Multiset.mem_add.2 (.inr (Multiset.mem_add.2 (.inr (Multiset.mem_singleton_self _))))
  refine .bind ((Has.kfree h.nodup h.ok hmem).start h.holds.toHas) fun _ =>
    .bind (freevm_spec h.nodup h.ok) fun _ => .pure fun s' hs => ⟨0, hs, .nil⟩

theorem exec {file : List UInt8} {argv : List (List UInt8)}
    (hargv : ∀ arg ∈ argv, arg.length + 1 ≤ MAXSTR) :
    Triple (· = s) ((Call.exec file argv).run k full p) (After k p L s) Never := by
  have hbuild : Triple (· = s) (buildImage k (.panic .null) file argv) _ _ :=
    (buildImage_spec h.nodup_free h.ok_free (.inr rfl)).start h.work
  refine .bind (hbuild.err fun _ _ he => ?_) fun r => ?_
  · obtain ⟨-, -, arg, harg, hlong⟩ := he
    exact absurd (hargv arg harg) (not_le.2 hlong)
  cases r with
  | none => exact .pure fun s' hs => h.back hs.1 .nil
  | some img =>
    refine .of_state fun s2 hs2 => ?_
    obtain ⟨im, P, C, elf, hs, -, -, -, hsz, T, P', C', h2, hst⟩ := hs2
    have hold : pagesOf s2 p.pgdir = pagesOf s p.pgdir :=
      pagesOf_of_agree fun f hf => h2.work.rest f (h.notMem_dir f hf)
    obtain ⟨l, hl, hsum⟩ := h2.work.free
    have hsplit : l + pagesOf s2 p.pgdir + (dirPages img.pgdir T P' + {p.kstack}) =
        L + p.pages s := by
      rw [← hsum, hold, Proc.pages]
      ac_rfl
    obtain ⟨hnd, -, hdisj⟩ := Multiset.nodup_add.1 (hsplit ▸ h.nodup)
    have hhas : Has True (l + pagesOf s2 p.pgdir) s2.mem p.pgdir _ _ 0 s2 :=
      ⟨⟨⟨l, hl, by rw [add_zero]; rfl⟩, fun _ _ => rfl, fun hF => absurd trivial hF⟩, rfl, rfl⟩
    refine .bind ((freevm_spec hnd fun f hf => h.ok f (hsplit ▸ Multiset.mem_add.2 (.inl hf))).start
      hhas) fun _ => .pure fun s3 hs3 => ?_
    have hw := hs3.frame (dirPages img.pgdir T P' + {p.kstack})
    rw [hsplit, zero_add] at hw
    refine ⟨_, ⟨hw.free, fun f hf => (hw.rest f hf).trans (h2.work.rest f fun hL => ?_), hw.calm⟩,
      (h2.toHas.settled (p := ⟨p.kstack, img.pgdir, img.sz⟩) (hsz ▸ hst.space)).keep fun f hf =>
        hs3.rest f fun hmem => Multiset.disjoint_left.1 hdisj hmem hf⟩
    exact hf (Multiset.mem_add.2 (.inl hL))

theorem run (full : Bool) {c : Call} (hc : c.allowed p = true) :
    Triple (· = s) (c.run k full p) (After k p L s) Never := by
  cases c with
  | fork => exact h.fork
  | sbrk n => exact h.sbrk (of_decide_eq_true hc)
  | exec file argv => exact h.exec (of_decide_eq_true hc)
  | wait => exact h.wait

end Ready

variable {M : Finset ℕ} {S : Machine} {i : ℕ} {p : Proc} {c : Call}

theorem Machine.Accounted.call (hok : ∀ f ∈ M, k.Ok f) (h : S.Accounted k M)
    (hp : S.procs[i]? = some p) (hc : c.allowed p = true) :
    ∃ T, S.step k (i, c) = some T ∧ T.Accounted k M ∧ ∀ q ∈ S.procs.eraseIdx i,
      q ∈ T.procs ∧ Agree (q.pages S.phys) S.phys.mem T.phys := by
  obtain ⟨l, X, hl, hsum, hset⟩ := h
  obtain ⟨Z, rfl, hZ⟩ := hset.erase hp
  rw [← add_assoc] at hsum
  have hle : (l : Multiset ℕ) + p.pages S.phys ≤ M.val := hsum ▸ Multiset.le_add_right _ _
  have hready : Ready k p l S.phys :=
    ⟨⟨⟨l, hl, add_zero _⟩, fun _ _ => rfl, fun hF => absurd trivial hF⟩,
      Multiset.nodup_of_le hle M.nodup, fun f hf => hok f (Multiset.mem_of_le hle hf),
      hset.space p (List.mem_of_getElem? hp)⟩
  obtain ⟨qs, s', hr, Y, hw, hqs⟩ :=
    (hready.run (decide (NPROC ≤ S.procs.length)) hc).returns rfl
  have hdisj := (Multiset.nodup_add.1 (hsum ▸ M.nodup)).2.2
  have hrest : Agree Z S.phys.mem s' := fun f hf =>
    hw.rest f fun hf' => Multiset.disjoint_left.1 hdisj hf' hf
  obtain ⟨l', hl', hsum'⟩ := hw.free
  refine ⟨⟨s', qs ++ S.procs.eraseIdx i⟩, ?_, ⟨l', Y + Z, hl', ?_, hqs.append (hZ.keep hrest)⟩,
    fun q hq => ⟨List.mem_append_right _ hq, fun f hf => hrest f ?_⟩⟩
  · simp only [step, hp, hc, hr, if_true]
  · rw [← add_assoc, hsum', hsum]
  · exact hZ.pages ▸ Multiset.mem_of_le (List.le_sum_of_mem (List.mem_map_of_mem hq)) hf

end

theorem memory_accounted (k : Layout) (M : Finset ℕ) (hok : ∀ f ∈ M, k.Ok f) (S T : Machine)
    (tr : List (ℕ × Call)) (h : S.Accounted k M) (hrun : exec (Machine.step k) S tr = some T) :
    T.Accounted k M ∧ ∀ i p c, T.procs[i]? = some p → c.allowed p = true →
      ∃ U, T.step k (i, c) = some U ∧ ∀ q ∈ T.procs.eraseIdx i,
        q ∈ U.procs ∧ Agree (q.pages T.phys) T.phys.mem U.phys := by
  have hT : T.Accounted k M := by
    refine exec_invariant (Machine.Accounted k M) h (fun U l V hU hstep => ?_) hrun
    have hcopy := hstep
    unfold Machine.step at hstep
    split at hstep
    · cases hstep
    rename_i p hp
    split_ifs at hstep with hc
    obtain ⟨V', hV', hacc, -⟩ := hU.call hok hp hc
    cases hcopy.symm.trans hV'
    exact hacc
  refine ⟨hT, fun i p c hp hc => ?_⟩
  obtain ⟨U, hU, -, hothers⟩ := hT.call hok hp hc
  exact ⟨U, hU, hothers⟩

theorem memory_accounted_fork : ∃ (S T : Machine) (p q : Proc), S.procs = [p] ∧ p.sz = PGSIZE ∧
    exec (Machine.step smallKernel) S [(0, .fork)] = some T ∧ T.procs = [p, q] ∧ q.sz = PGSIZE ∧
    T.Accounted smallKernel stock := by
  obtain ⟨d, s, T, P, hspace, hs⟩ := boot_space
  obtain ⟨l, hl, hsum⟩ := hs.work.free
  have hproper := hspace.proper hs
  obtain ⟨l₁, hl₁, hroom⟩ := free_after_boot hproper
  obtain rfl := hl.unique hl₁ kva_ne_zero kva_injective
  obtain ⟨l₂, hl₂, hle, hnot, -⟩ := hproper.owns.work
  obtain rfl := hl.unique hl₂ kva_ne_zero kva_injective
  have hacc : Machine.Accounted smallKernel stock ⟨s, [⟨0x103, d, PGSIZE⟩]⟩ :=
    ⟨l, _, hl, hsum, hs.settled hspace⟩
  obtain ⟨r, s', hr, hend⟩ := (fork_spec (k := smallKernel) (F := False) false
    (p := ⟨0x103, d, PGSIZE⟩) (Multiset.nodup_of_le hle stock.nodup)
    (fun f hf => stock_ok f (Multiset.mem_of_le hle hf)) (by rw [hs.pte]; exact hspace) hnot
    (hl.calm (hs.work.calm not_false))).returns rfl
  cases r with
  | none =>
    have hshort := (hend.2.resolve_left nofun).resolve_left not_false
    rw [Multiset.coe_card] at hshort
    have hone : roundUp PGSIZE = 1 := rfl
    dsimp only at hshort
    omega
  | some q =>
    have hstep : Machine.step smallKernel ⟨s, [⟨0x103, d, PGSIZE⟩]⟩ (0, .fork) =
        some ⟨s', [⟨0x103, d, PGSIZE⟩, q]⟩ := by
      have hrun : (Call.fork.run smallKernel false ⟨0x103, d, PGSIZE⟩).result s =
          (.ok [⟨0x103, d, PGSIZE⟩, q], s') := by
        unfold Call.run
        rw [Prog.result_bind, hr]
        rfl
      show (match (Call.fork.run smallKernel false ⟨0x103, d, PGSIZE⟩).result s with
        | (.ok qs, s) => some ⟨s, qs ++ []⟩
        | (.error _, _) => none) = some (⟨s', _⟩ : Machine)
      rw [hrun]
      rfl
    have hrun := exec_cons hstep []
    exact ⟨_, _, _, q, rfl, rfl, hrun, rfl, hend.1,
      (memory_accounted smallKernel stock stock_ok _ _ _ hacc hrun).1⟩

end Xv6.Vm
