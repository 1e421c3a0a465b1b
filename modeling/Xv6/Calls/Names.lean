import Xv6.Calls.Pipe
import Xv6.Fs.Fail
import Xv6.Mkfs.Directory
import Xv6.Sys.Calls

/-!
Calls on names, and `sys_open`.

A failed call on a name changes nothing. A failed `sys_open` changes nothing
unless it had to make the file: `create` comes before the search for a file
structure and a descriptor.
-/

namespace Xv6.Calls

open Function

open Lib Files Fs Sys

inductive NameCall where
  | link (old new : Option Path)
  | unlink (path : Option Path)
  | mkdir (path : Option Path)
  | mknod (path : Option Path) (major minor : ℕ)

section
variable (sb : Fs.Super)

def NameCall.body (cwd : ℕ) : NameCall → Fs.Op Int
  | .link old new => Fs.sysLink sb cwd old new
  | .unlink path => Fs.sysUnlink sb cwd path
  | .mkdir path => Fs.sysMkdir sb cwd path
  | .mknod path major minor => Fs.sysMknod sb cwd path major minor

def nameCall (c : NameCall) : Op Int := do
  let cwd ← .read fun k => k.cwd
  fs (c.body sb cwd)

def openInode (cwd : ℕ) (path : Path) (omode : UInt32) : Fs.Op (Option ℕ) :=
  if omode &&& O_CREATE ≠ 0 then Fs.create sb cwd path T_FILE 0 0
  else do
    match ← Fs.namei sb cwd path with
    | none => pure none
    | some ip => do
        Fs.ilock sb ip
        let type ← .read fun s => (s.inode ip).type
        if type = T_DIR ∧ omode ≠ 0 then do
          Fs.iput sb ip
          pure none
        else pure (some ip)

def openedFile (x : Files.File) (ip : ℕ) (omode : UInt32) : Files.File :=
  { x with
    type := .inode, ip := ip, off := 0
    readable := decide (omode &&& O_WRONLY = 0)
    writable := decide (omode &&& O_WRONLY ≠ 0 ∨ omode &&& O_RDWR ≠ 0) }

def openFile (ip : ℕ) (omode : UInt32) : Op Int := do
  match ← filealloc with
  | none => do
      fs (Fs.iput sb ip)
      pure (-1)
  | some f => do
      match ← fdalloc f with
      | none => do
          fileclose sb f
          fs (Fs.iput sb ip)
          pure (-1)
      | some fd => do
          .modify fun k => k.setFile f (openedFile (k.file f) ip omode)
          pure fd.val

def sysOpen (path : Option Path) (omode : UInt32) : Op Int :=
  match path with
  | none => pure (-1)
  | some path => do
      let cwd ← .read fun k => k.cwd
      match ← fs (openInode sb cwd path omode) with
      | none => pure (-1)
      | some ip => openFile sb ip omode

end

/-! ### Calls on names -/

structure Intact (k k' : Kernel) : Prop where
  disk : k'.fs.disk = k.fs.disk
  ref : k'.fs.ref = k.fs.ref
  file : k'.file = k.file
  ofile : k'.ofile = k.ofile
  cwd : k'.cwd = k.cwd

section
variable {sb : Fs.Super} {I : ℕ → Dinode} {Φ : ℕ → ℕ → Block} {k k' : Kernel}

theorem body_spec (h : WellFormed sb I Φ k.fs) (hcwd : k.cwd < sb.ninodes) (c : NameCall) :
    Triple (· = k.fs) (c.body sb k.cwd) (Undone sb I Φ k.fs) fun _ _ => True := by
  cases c with
  | link old new => exact sysLink_spec h hcwd old new
  | unlink path => exact sysUnlink_spec h hcwd path
  | mkdir path => exact makeNode_spec h hcwd path T_DIR 0 0
  | mknod path major minor => exact makeNode_spec h hcwd path T_DEV major minor

end

theorem failed_call_intact {sb : Fs.Super} {I : ℕ → Dinode} {Φ : ℕ → ℕ → Block} {k k' : Kernel}
    (h : WellFormed sb I Φ k.fs) (hcwd : k.cwd < sb.ninodes) (c : NameCall)
    (hfail : (nameCall sb c).result k = (.ok (-1), k')) :
    Intact k k' ∧ Settled sb I Φ k'.fs := by
  have hcall : Prog.Triple (· = k) (nameCall sb c) _ _ :=
    Prog.Triple.bind (R := fun cwd k' => cwd = k.cwd ∧ k' = k)
      (.read fun k' hk' => ⟨by rw [hk'], hk'⟩) fun cwd => .of_and fun hc => by
        rw [hc]
        exact triple_fs (body_spec h hcwd c)
  obtain ⟨s, rfl, hs⟩ := hcall.of_ok rfl hfail
  have hheld := hs rfl
  exact ⟨⟨hheld.disk, hheld.ref_eq, rfl, rfl, rfl⟩, hheld.settled⟩

/-! ### `sys_open` -/

def Makes (I : ℕ → Dinode) (Φ : ℕ → ℕ → Block) (cwd : ℕ) (path : Path) (omode : UInt32) : Prop :=
  omode &&& O_CREATE ≠ 0 ∧ Absent I Φ cwd path

section
variable {sb : Fs.Super} {I : ℕ → Dinode} {Φ : ℕ → ℕ → Block} {k k' : Kernel} {s0 s : Fs.State}
  {ip : ℕ} {omode : UInt32}

theorem openInode_spec {cwd : ℕ} (h : WellFormed sb I Φ s0) (hcwd : cwd < sb.ninodes)
    (path : Path) (omode : UInt32) :
    Triple (· = s0) (openInode sb cwd path omode)
      (fun r s => (¬Makes I Φ cwd path omode ∧ ((r = none ∧ Held sb I Φ s0 0 s) ∨
          ∃ ip < sb.ninodes, r = some ip ∧ Held sb I Φ s0 {ip} s)) ∨
        (Makes I Φ cwd path omode ∧ ∃ ip, r = some ip ∧ Made sb I ip s))
      fun _ _ => True := by
  unfold openInode
  refine .ite (fun hcreate => ?_) fun hno => ?_
  · refine (create_spec h hcwd path T_FILE 0 0).post fun r s hs => ?_
    rcases hs with ⟨hthere, hnone | ⟨ip, hip, hr, -, hheld⟩⟩ | ⟨habsent, -, hmade⟩
    · exact .inl ⟨fun hc => hthere hc.2, .inl hnone⟩
    · exact .inl ⟨fun hc => hthere hc.2, .inr ⟨ip, hip, hr, hheld⟩⟩
    · exact .inr ⟨⟨hcreate, habsent⟩, hmade rfl⟩
  have hno : ¬Makes I Φ cwd path omode := fun hc => hno hc.1
  refine .bind ((namei_spec (m := 0) h hcwd path).conseq
    (fun s hs => by rw [hs]; exact .start h.settled) (fun _ _ hr => hr) fun _ _ _ => trivial)
    fun r => .of_and fun hr => ?_
  rcases r with _ | ip
  · exact .pure fun s hs => .inl ⟨hno, .inl ⟨rfl, hs⟩⟩
  have hip := walk_lt h (origin_lt h hcwd path) hr.symm
  refine .bind ((Held.lock hip (Multiset.mem_singleton_self ip)).conseq
    (fun s hs => hs) (fun _ _ hs => hs) fun _ _ _ => trivial) fun _ => .of_state fun s1 hs1 => ?_
  obtain ⟨-, hv, hheld⟩ := hs1
  refine .bind (hheld.readType hip hv) fun t => .of_and fun _ => ?_
  refine .ite (fun _ => ?_) fun _ => .pure fun s hs => .inl ⟨hno, .inr ⟨ip, hip, rfl, ?_⟩⟩
  · refine .bind (((Held.put (m := 0) h hip).panics _).pre fun s hs => by
      rw [hs]; exact hheld) fun _ => .pure fun s hs => .inl ⟨hno, .inl ⟨rfl, hs⟩⟩
  · rw [hs]
    exact hheld

theorem putBack {P : Fs.State → Prop}
    (hput : Triple (· = k.fs) (Fs.iput sb ip) (fun _ => P) Never) :
    ∃ s, (do
        fs (Fs.iput sb ip)
        pure (-1) : Op Int).result k = (.ok (-1), { k with fs := s }) ∧ P s := by
  obtain ⟨a, k', hres, s, rfl, hs⟩ := (triple_fs hput).returns_of
    (fun e t he => he.choose_spec.choose_spec.2.2) rfl
  exact ⟨s, result_bind_ok hres, hs⟩

theorem openFile_fails {P : Fs.State → Prop} (hclean : k.file.Clean)
    (hput : Triple (· = k.fs) (Fs.iput sb ip) (fun _ => P) Never)
    (hfail : (openFile sb ip omode).result k = (.ok (-1), k')) :
    ∃ s, k' = { k with fs := s } ∧ P s := by
  unfold openFile at hfail
  obtain ⟨s, hput, hs⟩ := putBack hput
  rcases hf : k.file.unused with _ | f
  · rw [result_bind_ok (filealloc_none hf)] at hfail
    exact ⟨s, (Prod.mk.inj (hfail.symm.trans hput)).2, hs⟩
  rw [result_bind_ok (filealloc_some hf)] at hfail
  have hfree := Ftable.unused_some hf
  rcases hfd : k.ofile.spare with _ | fd
  · -- the file is closed before it has a type
    have hclose := fileclose_none sb (k := { k with file := k.file.take f })
      (Ftable.take_self k.file f) rfl (hclean f hfree)
    rw [Ftable.drop_take hclean hfree] at hclose
    have hres := (result_bind_ok (fdalloc_none (k := { k with file := k.file.take f })
      (f := f) hfd)).symm.trans hfail
    have hend := ((result_bind_ok hclose).trans hput).symm.trans hres
    exact ⟨s, (Prod.mk.inj hend).2.symm, hs⟩
  · have hres := (result_bind_ok (fdalloc_some (k := { k with file := k.file.take f })
      (f := f) hfd)).symm.trans hfail
    have hneg : (fd.val : Int) = -1 := Except.ok.inj (Prod.mk.inj hres).1
    omega

theorem openFile_returns (sb : Fs.Super) (ip : ℕ) (omode : UInt32) (hf : k.file.unused ≠ none)
    (hfd : k.ofile.spare ≠ none) : ((openFile sb ip omode).result k).1 ≠ .ok (-1) := by
  obtain ⟨f, hf⟩ := Option.ne_none_iff_exists'.1 hf
  obtain ⟨fd, hfd⟩ := Option.ne_none_iff_exists'.1 hfd
  unfold openFile
  rw [result_bind_ok (filealloc_some hf)]
  have hres := fdalloc_some (k := { k with file := k.file.take f }) (f := f) hfd
  intro hneg
  rw [result_bind_ok hres] at hneg
  have hneg : (fd.val : Int) = -1 := Except.ok.inj hneg
  omega

end

theorem failed_open_intact {sb : Fs.Super} {I : ℕ → Dinode} {Φ : ℕ → ℕ → Block} {k k' : Kernel}
    (h : WellFormed sb I Φ k.fs) (hcwd : k.cwd < sb.ninodes) (hclean : k.file.Clean)
    (path : Option Path) (omode : UInt32)
    (hfail : (sysOpen sb path omode).result k = (.ok (-1), k')) :
    (Intact k k' ∧ Settled sb I Φ k'.fs) ↔
      ∀ p, path = some p → Makes I Φ k.cwd p omode →
        k.file.unused ≠ none ∧ k.ofile.spare ≠ none := by
  have hend : ∀ s, k' = { k with fs := s } → Held sb I Φ k.fs 0 s →
      Intact k k' ∧ Settled sb I Φ k'.fs := by
    rintro s rfl hheld
    exact ⟨⟨hheld.disk, hheld.ref_eq, rfl, rfl, rfl⟩, hheld.settled⟩
  rcases path with _ | path
  · exact iff_of_true (hend k.fs (Prod.mk.inj hfail).2.symm (.start h.settled))
      fun p hp => absurd hp (Option.some_ne_none p).symm
  rw [sysOpen, Prog.result_read_bind] at hfail
  rcases hopen : (fs (openInode sb k.cwd path omode)).result k with ⟨r | r, k₁⟩
  · rw [Prog.result_bind_error hopen] at hfail
    cases (Prod.mk.inj hfail).1
  rw [Prog.result_bind_ok hopen] at hfail
  obtain ⟨s, rfl, hs⟩ := (triple_fs (openInode_spec h hcwd path omode)).of_ok rfl hopen
  rcases hs with ⟨hno, ⟨rfl, hheld⟩ | ⟨ip, hip, rfl, hheld⟩⟩ | ⟨hmakes, ip, rfl, hmade⟩
  · exact iff_of_true (hend s (Prod.mk.inj hfail).2.symm hheld) fun p hp hm =>
      absurd (Option.some.inj hp ▸ hm) hno
  · obtain ⟨t, rfl, hheld'⟩ := openFile_fails (k := { k with fs := s }) hclean
      ((Held.put (m := 0) h hip).pre fun t ht => by rw [ht]; exact hheld) hfail
    exact iff_of_true (hend t rfl hheld') fun p hp hm => absurd (Option.some.inj hp ▸ hm) hno
  · -- the file has been made, and stays
    obtain ⟨t, rfl, hmade'⟩ := openFile_fails (k := { k with fs := s }) hclean hmade.iput hfail
    refine iff_of_false (fun hc => hmade'.disk_ne h.settled hc.1.disk) fun hroom => ?_
    obtain ⟨hf, hfd⟩ := hroom path rfl hmakes
    exact absurd (congrArg Prod.fst hfail)
      (openFile_returns (k := { k with fs := s }) sb ip omode hf hfd)

/-! ### A small file system -/

def Kernel.booted (disk : ℕ → Block) (full : Bool) : Kernel :=
  ⟨.boot disk, fun _ => if full then ⟨.pipe, 1, true, false, 0, 0, 0⟩
    else ⟨.none, 0, false, false, 0, 0, 0⟩, fun _ => none, ROOTINO,
    fun _ => ⟨0, 0, false, false⟩, []⟩

theorem clean_booted (disk : ℕ → Block) (full : Bool) : (Kernel.booted disk full).file.Clean := by
  intro f hf
  cases full with
  | false => rfl
  | true => exact absurd hf Nat.one_ne_zero

def plainEntry (k : ℕ) : List UInt8 :=
  if k = 0 then newEntry ROOTINO dot
  else if k = 1 then newEntry ROOTINO dotdot
  else if k = 2 then newEntry 2 [97]
  else List.replicate 16 0

theorem length_plainEntry (k : ℕ) : (plainEntry k).length = 16 := by
  unfold plainEntry
  split_ifs
  · exact length_newEntry ..
  · exact length_newEntry ..
  · exact length_newEntry ..
  · exact List.length_replicate

def plainDisk : ℕ → Block := (Mkfs.withRoot 1 plainEntry 32).disk

theorem exists_plain : ∃ I Φ, WellFormed Mkfs.sb I Φ (.boot plainDisk) ∧
    ¬Absent I Φ ROOTINO [47, 97] := by
  obtain ⟨I, Φ, h⟩ := Mkfs.exists_directory 1 length_plainEntry (n := 32) (by decide) (by decide)
  refine ⟨I, Φ, h.wellFormed length_plainEntry (by decide) (by decide) h.settled.boot, ?_⟩
  rintro ⟨dp, name, hparent, hnone⟩
  have hdir : Fs.parent I Φ ROOTINO [[97]] = some (ROOTINO, [97]) := by
    rw [Fs.parent, if_neg (not_not.2 h.root.1)]
    rfl
  obtain ⟨rfl, rfl⟩ := Prod.mk.inj (Option.some.inj (hdir.symm.trans hparent))
  rw [entryNamed, h.content, h.root.2.1] at hnone
  revert hnone
  decide +kernel

theorem failed_call_intact_plain :
    ∃ disk k', (nameCall Mkfs.sb (.unlink (some [47, 98]))).result (.booted disk false) =
      (.ok (-1), k') ∧ Intact (.booted disk false) k' := by
  obtain ⟨I, Φ, h, -⟩ := exists_plain
  have hres : ((nameCall Mkfs.sb (.unlink (some [47, 98]))).result (.booted plainDisk false)).1 =
      .ok (-1) := by decide +kernel
  exact ⟨plainDisk, _, Prod.ext hres rfl, (failed_call_intact (k := .booted plainDisk false) h
    (show ROOTINO < Mkfs.sb.ninodes by decide) (.unlink (some [47, 98])) (Prod.ext hres rfl)).1⟩

theorem failed_open_intact_plain :
    ∃ disk k', (sysOpen Mkfs.sb (some [47, 97]) O_CREATE).result (.booted disk true) =
      (.ok (-1), k') ∧ Intact (.booted disk true) k' := by
  obtain ⟨I, Φ, h, hthere⟩ := exists_plain
  have hres : ((sysOpen Mkfs.sb (some [47, 97]) O_CREATE).result (.booted plainDisk true)).1 =
      .ok (-1) := by decide +kernel
  refine ⟨plainDisk, _, Prod.ext hres rfl, ((failed_open_intact (k := .booted plainDisk true) h
    (show ROOTINO < Mkfs.sb.ninodes by decide) (clean_booted plainDisk true) (some [47, 97])
    O_CREATE (Prod.ext hres rfl)).2 fun p hp hmakes => ?_).1⟩
  rw [← Option.some.inj hp] at hmakes
  exact absurd hmakes.2 hthere

theorem failed_open_makes_file :
    ∃ disk I Φ, WellFormed Mkfs.sb I Φ (Kernel.booted disk true).fs ∧
      ∃ k', (sysOpen Mkfs.sb (some [47, 98]) O_CREATE).result (.booted disk true) =
          (.ok (-1), k') ∧
        ∃ ip, (Mkfs.sb.dinode disk ip).type = 0 ∧ (Mkfs.sb.dinode k'.fs.disk ip).type = T_FILE := by
  obtain ⟨I, Φ, h, -⟩ := exists_plain
  refine ⟨plainDisk, I, Φ, h, _, Prod.ext ?_ rfl, 3, ?_, ?_⟩
  · show ((sysOpen Mkfs.sb (some [47, 98]) O_CREATE).result (.booted plainDisk true)).1 = .ok (-1)
    decide +kernel
  · decide +kernel
  · decide +kernel

end Xv6.Calls
