import Xv6.Sys.SeqCalls

namespace Xv6.Sys

open Lib

variable {P : Type} [Fintype P] {up : Prop} {sb : Super} {s : Fs P} {held : ℕ → ℕ}

section
variable {Q : Int → Fs P → Prop} {ip off n : ℕ} {f : Fin NFILE}

theorem Orderly.touchFile {x : File} (h : Orderly sb up 0 held s)
    (htype : x.type = (s.file f).type) (hip : x.ip = (s.file f).ip)
    (hw : x.writable = (s.file f).writable) : Orderly sb up 0 held (s.setFile f x) := by
  refine h.setFile (fun hx => ?_) fun i _ => ?_
  · rw [hip, hw]
    exact h.opened f (htype ▸ hx)
  · rw [htype, hip]

omit [Fintype P] in
theorem seq_console {r : Int} (hlive : (s.inode ip).type ≠ .free) (hQ : Q r (s.load ip)) :
    Seq up (console ip r) Q s :=
  seq_bind (seq_iunlock (seq_bind (seq_ilock_live hlive fun _ => hQ)))

variable (h : Orderly sb up 0 held s)
include h

theorem seq_readi {avail : ℕ} (hlive : (s.inode ip).type ≠ .free)
    (hQ : ∀ r s', Orderly sb up 0 held s' → s'.inode = s.inode → s'.file = s.file → Q r s') :
    Seq up (readi ip off n avail) Q s := by
  show Prog.wp _ (if _ then _ else _) _ _
  split
  · show Prog.wp _ (if _ then _ else _) _ _
    split
    · exact seq_console hlive (hQ _ _ (h.load hlive) rfl rfl)
    · exact hQ _ s h rfl rfl
  · exact hQ _ s h rfl rfl

theorem seq_writei (hlive : (s.inode ip).type ≠ .free) (hdir : (s.inode ip).type ≠ .dir)
    (hQ : ∀ r s', Orderly sb up 0 held s' → s'.file = s.file → Q r s') :
    Seq up (writei sb ip off n) Q s := by
  show Prog.wp _ (if _ then _ else _) _ (s.writei ip off n)
  have hsame : ¬((s.inode ip).type ≠ .dev ∧ (s.inode ip).type ≠ .dir ∧ off ≤ (s.inode ip).size ∧
      off ≤ (off + n) % 2 ^ 32 ∧ off + n ≤ MAXFILE * BSIZE) → s.writei ip off n = s :=
    fun hc => if_neg hc
  split
  · rename_i hdev
    rw [hsame fun hc => hc.1 hdev]
    show Prog.wp _ (if _ then _ else _) _ _
    split
    · exact seq_console hlive (hQ _ _ (h.load hlive) rfl)
    · exact hQ _ s h rfl
  · rename_i hdev
    show Prog.wp _ (if _ then _ else _) _ _
    split
    · rename_i hoff
      rw [hsame (by omega)]
      exact hQ _ s h rfl
    rename_i hoff
    show Prog.wp _ (if _ then _ else _) _ _
    split
    · rename_i hmax
      rw [hsame (by omega)]
      exact hQ _ s h rfl
    rename_i hmax
    split
    · exact may_of_ne (by decide) (by decide)
    rename_i hroom
    have hw : s.writei ip off n = s.setInode ip ((s.inode ip).grow off n) :=
      if_pos ⟨hdev, hdir, by omega⟩
    rw [hw]
    have hgrow : ((s.inode ip).grow off n).type = (s.inode ip).type ∧
        ((s.inode ip).grow off n).entries = (s.inode ip).entries ∧
        ((s.inode ip).grow off n).nlink = (s.inode ip).nlink := by
      unfold Inode.grow
      split <;> exact ⟨rfl, rfl, rfl⟩
    have htree := h.tree.grow hgrow.1 hgrow.2.1 hgrow.2.2 (not_lt.1 hroom)
    refine hQ _ _ (h.table htree (update_proj (·.type) hgrow.1) fun j _ hz hold => ?_) rfl
    rw [update_proj (·.nlink) hgrow.2.2 j] at hz
    exact absurd hz hold

theorem seq_advance {Q : Unit → Fs P → Prop} {r : Int}
    (hQ : ∀ s', Orderly sb up 0 held s' → s'.inode = s.inode →
      (s'.file f).type = (s.file f).type → (s'.file f).writable = (s.file f).writable → Q () s') :
    Seq up (advance f r) Q s := by
  show Q () (if _ then _ else _)
  split
  · exact hQ _ (h.touchFile rfl rfl rfl) rfl (by rw [Fs.setFile_file_self])
      (by rw [Fs.setFile_file_self])
  · exact hQ s h rfl rfl rfl

theorem seq_filestat : Ordered sb up held (filestat f) s := by
  show Seq up (if _ then _ else _) _ s
  split
  · rename_i hf
    have hlive := (h.opened f hf).1
    exact seq_bind (seq_ilock_live hlive fun _ => seq_bind (seq_iunlock ((h.load hlive))))
  · exact h

theorem seq_fileread {avail : ℕ} : Ordered sb up held (fileread f n avail) s := by
  show Seq up (if _ then _ else _) _ s
  split
  · exact h
  split
  · rename_i hf
    have hlive := (h.opened f hf).1
    refine seq_bind (seq_ilock_live hlive fun _ => seq_read (seq_bind ?_))
    refine seq_readi (h.load hlive) hlive fun r s2 h2 _ _ => seq_bind ?_
    exact seq_advance h2 fun s3 h3 _ _ _ => seq_bind (seq_iunlock (h3))
  · exact may_of_ne (by decide) (by decide)

theorem seq_filewriteLoop {turns i : ℕ} (htype : (s.file f).type = .inode)
    (hw : (s.file f).writable = true) : Ordered sb up held (filewriteLoop sb f n turns i) s := by
  induction turns generalizing i s with
  | zero => exact h
  | succ turns ih =>
    unfold filewriteLoop
    split
    · refine seq_beginOp h fun s1 hq1 h1 => ?_
      rw [← hq1.file] at htype hw
      obtain ⟨hlive, hdir⟩ := h1.opened f htype
      refine seq_read (seq_bind (seq_ilock_live hlive fun _ => seq_read (seq_bind ?_)))
      refine seq_writei (h1.load hlive) hlive (hdir hw) fun r s2 h2 hf2 => seq_bind ?_
      refine seq_advance h2 fun s3 h3 _ ht3 hw3 => seq_bind (seq_iunlock ?_)
      refine seq_endOp h3 fun s4 hq4 h4 => ?_
      split
      · exact h4
      split
      · exact may_of_ne (by decide) (by decide)
      refine ih h4 ?_ ?_
      · rw [hq4.file, ht3, hf2]
        exact htype
      · rw [hq4.file, hw3, hf2]
        exact hw
    · exact h

theorem seq_filewrite : Ordered sb up held (filewrite sb f n) s := by
  show Seq up (if _ then _ else _) _ s
  split
  · exact h
  rename_i hw
  split
  · rename_i hf
    exact seq_filewriteLoop h hf (by simpa using hw)
  · exact may_of_ne (by decide) (by decide)

end

section
variable {f : Fin NFILE}

theorem seq_filealloc {Q : Option (Fin NFILE) → Fs P → Prop} (h : Orderly sb up 0 held s)
    (hQ : ∀ r s', Orderly sb up 0 held s' → s'.inode = s.inode → Q r s') :
    Seq up filealloc Q s := by
  refine (Prog.wp_act _ _).2 ?_
  dsimp only
  cases (List.finRange NFILE).find? fun f => decide ((s.file f).ref = 0) with
  | none => exact hQ _ s h rfl
  | some f => exact hQ _ _ (h.touchFile rfl rfl rfl) rfl

theorem seq_filedup {Q : Unit → Fs P → Prop} (h : Orderly sb up 0 held s)
    (hQ : ∀ s', Orderly sb up 0 held s' → Q () s') : Seq up (filedup f) Q s := by
  show Prog.wp _ (if _ then _ else _) _ _
  split
  · exact may_of_ne (by decide) (by decide)
  · exact hQ _ (h.touchFile rfl rfl rfl)

theorem Orderly.put_inode {ip i : ℕ} (h : Orderly sb up 0 (plus held ip) s) (hi : i ≠ 0)
    (hheld : 0 < held i) : ((s.reap ip).drop ip).inode i = s.inode i := by
  by_cases hne : i = ip
  · subst hne
    have hdead : s.dead i = false := by
      refine h.not_dead fun _ _ => ?_
      have := h.count i hi
      rw [plus, if_pos rfl] at this
      omega
    rw [Fs.reap_of_not_dead hdead]
    rfl
  · exact Fs.put_inode_of_ne hne

theorem seq_fileclose {Q : Unit → Fs P → Prop} (h : Orderly sb up 0 held s)
    (hQ : ∀ s', Orderly sb up 0 held s' → s'.cwd = s.cwd →
      (∀ i, i ≠ 0 → 0 < held i → s'.inode i = s.inode i) → Q () s') :
    Seq up (fileclose f) Q s := by
  show Prog.wp _ (if _ then _ else _) _ (s.closeFile f)
  split
  · exact may_of_ne (by decide) (by decide)
  show Prog.wp _ (if _ then _ else _) _ _
  split
  · rename_i href
    rw [Fs.closeFile, if_pos href]
    exact hQ _ (h.touchFile rfl rfl rfl) rfl fun _ _ _ => rfl
  rename_i href
  rw [Fs.closeFile, if_neg href]
  show Prog.wp _ (if _ then _ else _) _ _
  split
  · rename_i htype
    have h1 : Orderly sb up 0 (plus held (s.file f).ip)
        (s.setFile f { s.file f with ref := 0, type := .none }) := by
      refine h.setFile (by simp) fun i _ => ?_
      simp [plus, htype, eq_comm (a := i)]
    refine seq_beginOp h1 fun s2 hq2 h2 => seq_bind (seq_iput ?_)
    have hlive : (s2.inode (s.file f).ip).type ≠ .free := by
      rw [hq2.inode]
      exact (h.opened f htype).1
    refine hQ _ ((h2.put hlive).setOutstanding _) ?_ fun i hi hheld => ?_
    · exact (Fs.put_cwd s2 _).trans hq2.cwd
    · exact (h2.put_inode hi hheld).trans (by rw [hq2.inode]; rfl)
  · rename_i htype
    refine hQ _ (h.setFile (by simp) fun i _ => ?_) rfl fun _ _ _ => rfl
    simp [htype]

end

section
variable {Q : Int → Fs P → Prop} {p : P} {fd : Int}

omit [Fintype P] in
theorem seq_withFd {k : Fin NOFILE → Fin NFILE → Op P Int} (hnone : Q (-1) s)
    (hsome : ∀ d f, Seq up (k d f) Q s) : Seq up (withFd p fd k) Q s := by
  refine seq_read ?_
  cases s.argfd p fd with
  | none => exact hnone
  | some df => exact hsome df.1 df.2

section
variable (h : Orderly sb up 0 held s)
include h

theorem seq_sysRead {n : Int} {avail : ℕ} : Ordered sb up held (sysRead p fd n avail) s := by
  refine seq_withFd h fun _ f => ?_
  split
  · exact h
  · exact seq_fileread h

theorem seq_sysWrite {n : Int} : Ordered sb up held (sysWrite sb p fd n) s := by
  refine seq_withFd h fun _ f => ?_
  split
  · exact h
  · exact seq_filewrite h

theorem seq_sysFstat : Ordered sb up held (sysFstat p fd) s :=
  seq_withFd h fun _ _ => seq_filestat h

end

variable [DecidableEq P] (h : Orderly sb up 0 held s)
include h

theorem Orderly.setOfile (d : Fin NOFILE) (v : Option (Fin NFILE)) :
    Orderly sb up 0 held (s.setOfile p d v) :=
  ⟨h.tree, h.count, h.cwd, h.opened, h.zombie, h.stale, h.clean⟩

theorem seq_fdalloc {Q : Option (Fin NOFILE) → Fs P → Prop} {f : Fin NFILE}
    (hQ : ∀ r s', Orderly sb up 0 held s' → s'.inode = s.inode → Q r s') :
    Seq up (fdalloc p f) Q s := by
  refine (Prog.wp_act _ _).2 ?_
  cases s.spareFd p with
  | none => exact hQ _ s h rfl
  | some d => exact hQ _ _ (h.setOfile d _) rfl

theorem seq_sysClose : Ordered sb up held (sysClose p fd) s :=
  seq_withFd h fun d _ =>
    seq_modify (seq_bind (seq_fileclose (h.setOfile d none) fun _ h' _ _ => h'))

theorem seq_sysDup : Ordered sb up held (sysDup p fd) s := by
  refine seq_withFd h fun _ f => seq_bind (seq_fdalloc h fun r s1 h1 _ => ?_)
  cases r with
  | none => exact h1
  | some d => exact seq_bind (seq_filedup h1 fun _ h2 => h2)

end

section
variable {p : P} {path : Path} {omode : UInt32}

theorem seq_openInode {Q : Option ℕ → Fs P → Prop} (h : Orderly sb up 0 held s)
    (hcwd : s.cwd p ≠ 0) (hnew : omode &&& O_CREATE ≠ 0 → NotRemoved s p path)
    (hnone : ∀ s', Orderly sb up 0 held s' → Q none s')
    (hsome : ∀ i s', i ≠ 0 → Orderly sb up 0 (plus held i) s' → (s'.inode i).type ≠ .free →
      ((s'.inode i).type = .dir → omode = 0) → Q (some i) s') :
    Seq up (openInode sb p path omode) Q s := by
  unfold openInode
  split
  · rename_i hc
    refine seq_create h hcwd (by decide) (hnew hc) hnone fun i s' h' ht => ?_
    have hi := (h'.tree.inum i (by simp [ht])).1
    exact hsome i s' (by omega) h' (by simp [ht]) (by simp [ht])
  refine seq_bind (seq_namei h hcwd (fun s1 _ h1 => hnone s1 h1) fun ip s1 hq1 h1 hlive => ?_)
  rw [← hq1.inode] at hlive
  refine seq_bind (seq_ilock h1 hlive fun hfree hi => seq_read ?_)
  split
  · exact seq_bind (seq_iunlockput (hnone _ ((h1.load hfree).put hfree)))
  · rename_i hdir
    exact hsome ip _ hi (h1.load hfree) hfree fun hd => not_not.1 fun hm => hdir ⟨hd, hm⟩

theorem openedFile_writable {x : File} {ip : ℕ} (h : omode = 0) :
    (openedFile x ip omode).writable = false := by
  subst h
  simp [openedFile]

variable [DecidableEq P] {ip : ℕ}

theorem seq_openFile (h : Orderly sb up 0 (plus held ip) s) (hi : ip ≠ 0)
    (hip : (s.inode ip).type ≠ .free) (hdir : (s.inode ip).type = .dir → omode = 0) :
    Ordered sb up held (openFile p ip omode) s := by
  refine seq_bind (seq_filealloc h fun r s1 h1 hs1 => ?_)
  cases r with
  | none => exact seq_putEnd h1 (by rwa [hs1])
  | some f =>
    refine seq_bind (seq_fdalloc h1 fun r s2 h2 hs2 => ?_)
    have hs2 : s2.inode = s.inode := hs2.trans hs1
    cases r with
    | none =>
      refine seq_bind (seq_fileclose h2 fun s3 h3 _ hs3 => seq_putEnd h3 ?_)
      rwa [hs3 ip hi (by simp [plus]), hs2]
    | some d =>
      refine seq_bind (seq_iunlock (seq_endOp h2 fun s3 hq3 h3 => seq_modify ?_))
      have hs3 : s3.inode = s.inode := hq3.inode.trans hs2
      refine (h3.setFile (fun _ => ?_) fun i _ => ?_)
      · rw [hs3]
        refine ⟨hip, fun hw hd => ?_⟩
        rw [openedFile_writable (hdir hd)] at hw
        cases hw
      · simp only [plus, openedFile, true_and, eq_comm (a := i)]
        omega

theorem seq_sysOpen {path : Option Path} (h : Orderly sb up 0 held s) (hcwd : s.cwd p ≠ 0)
    (hnew : omode &&& O_CREATE ≠ 0 → ∀ q ∈ path, NotRemoved s p q) :
    Ordered sb up held (sysOpen sb p path omode) s := by
  cases path with
  | none => exact h
  | some path =>
    refine seq_beginOp h fun s1 hq1 h1 => seq_bind ?_
    refine seq_openInode h1 (by rwa [hq1.cwd]) (fun hc => (hnew hc path rfl).quiet hq1)
      (fun s2 h2 => seq_end h2)
      fun i s2 hi h2 hip hdir => seq_openFile h2 hi hip hdir

end

variable [DecidableEq P] {p : P}

omit [Fintype P] in
theorem Fs.setCwd_put (i j : ℕ) :
    ((s.setCwd p j).reap i).drop i = ((s.reap i).drop i).setCwd p j := by
  by_cases hd : s.dead i = true
  · have hd' : (s.setCwd p j).dead i = true := hd
    rw [Fs.reap, Fs.reap, if_pos hd, if_pos hd']
    rfl
  · have hd' : ¬(s.setCwd p j).dead i = true := hd
    rw [Fs.reap, Fs.reap, if_neg hd, if_neg hd']
    rfl

variable (h : Orderly sb up 0 held s)
include h

theorem Orderly.leave {ip : ℕ} {held' : ℕ → ℕ} (hcwd : s.cwd p ≠ 0)
    (hip : ip ≠ 0 → (s.inode ip).type = .dir)
    (hheld : ∀ i, i ≠ 0 → held' i + (if ip = i then 1 else 0) ≤ held i) :
    Orderly sb up 0 held' (((s.reap (s.cwd p)).drop (s.cwd p)).setCwd p ip) := by
  rw [← Fs.setCwd_put]
  have hdir := h.cwd p hcwd
  refine (h.setCwd hip fun i hi => ?_).put (by simp [Fs.setCwd, hdir])
  have := hheld i hi
  simp only [plus, eq_comm (a := i)]
  omega

theorem seq_sysChdir {path : Option Path} (hcwd : s.cwd p ≠ 0) :
    Ordered sb up held (sysChdir sb p path) s := by
  refine seq_beginOp h fun s1 hq1 h1 => ?_
  have hcwd1 : s1.cwd p ≠ 0 := by rwa [hq1.cwd]
  cases path with
  | none => exact seq_end h1
  | some path =>
    refine seq_bind (seq_namei h1 hcwd1 (fun s2 _ h2 => seq_end h2) fun ip s2 hq2 h2 hlive => ?_)
    rw [← hq2.inode] at hlive
    refine seq_bind (seq_ilock h2 hlive fun hfree hi => seq_read ?_)
    have h3 := h2.load hfree
    have hcwd3 : (s2.load ip).cwd p ≠ 0 := by
      show s2.cwd p ≠ 0
      rwa [hq2.cwd]
    split
    · exact seq_putEnd h3 hfree
    rename_i hdir
    refine seq_bind (seq_iunlock (seq_read (seq_bind (seq_iput (seq_modify ?_)))))
    refine ((h3.leave hcwd3 (fun _ => not_not.1 hdir) fun i _ => ?_).setOutstanding _)
    simp only [plus, eq_comm (a := i)]
    omega

theorem seq_exitFiles {Q : Unit → Fs P → Prop} {fds : List (Fin NOFILE)}
    (hQ : ∀ s', Orderly sb up 0 held s' → s'.cwd = s.cwd → Q () s') :
    Seq up (exitFiles p fds) Q s := by
  induction fds generalizing s with
  | nil => exact hQ s h rfl
  | cons fd rest ih =>
    refine seq_read ?_
    cases s.ofile p fd with
    | none => exact ih h hQ
    | some f =>
      refine seq_bind (seq_fileclose h fun s1 h1 hc1 _ => seq_modify ?_)
      exact ih (h1.setOfile fd none) fun s' h' hc' => hQ s' h' (hc'.trans hc1)

theorem seq_exit (hcwd : s.cwd p ≠ 0) : Ordered sb up held (exit p) s := by
  refine seq_bind (seq_exitFiles h fun s1 h1 hc1 => seq_beginOp h1 fun s2 hq2 h2 => ?_)
  have hcwd2 : s2.cwd p ≠ 0 := by rwa [hq2.cwd, hc1]
  refine seq_read (seq_bind (seq_iput (seq_modify ?_)))
  refine ((h2.leave hcwd2 (fun hz => absurd rfl hz) fun i hi => ?_).setOutstanding _)
  rw [if_neg (Ne.symm hi)]
  omega

end Xv6.Sys
