import Xv6.Lib.Safe
import Xv6.Sys.Names

namespace Xv6.Sys

open Lib Function

variable {P : Type} {α β : Type}

structure Inode.HasRoom (x : Inode) : Prop where
  size : 16 * x.entries.length ≤ MAXFILE * BSIZE
  room : (∃ e ∈ x.entries, e.inum = 0) ∨ 16 * x.entries.length < MAXFILE * BSIZE

def Roomy (s : Fs P) : Prop := ∀ d, (s.inode d).type = .dir → (s.inode d).HasRoom

def SameDirs (s t : Fs P) : Prop :=
  ∀ d, (t.inode d).type = .dir → (s.inode d).type = .dir ∧ (t.inode d).entries = (s.inode d).entries

theorem SameDirs.roomy {s t : Fs P} (h : SameDirs s t) (hs : Roomy s) : Roomy t := by
  intro d hd
  obtain ⟨hd', he⟩ := h d hd
  have hroom := hs d hd'
  exact ⟨he ▸ hroom.size, he ▸ hroom.room⟩

def OfDirs (R : Fs P → Prop) : Prop := ∀ s t, SameDirs s t → R s → R t

theorem ofDirs_roomy : OfDirs (Roomy (P := P)) := fun _ _ h => h.roomy

theorem ofDirs_true : OfDirs fun _ : Fs P => True := fun _ _ _ _ => trivial

abbrev NotFull (m : Panic) : Prop := m ≠ .dirlink

section
variable {s : Fs P} {i : ℕ} {x : Inode}

theorem sameDirs_of_eq {t : Fs P} (h : t.inode = s.inode) : SameDirs s t := by
  intro d hd
  rw [h] at hd ⊢
  exact ⟨hd, rfl⟩

theorem sameDirs_setInode {t : Fs P} (h : t.inode = update s.inode i x)
    (hx : x.type = .dir → (s.inode i).type = .dir ∧ x.entries = (s.inode i).entries) :
    SameDirs s t := by
  intro d hd
  rw [h] at hd ⊢
  by_cases hdi : d = i
  · rw [hdi, update_self] at hd ⊢
    exact hx hd
  · rw [update_of_ne hdi] at hd ⊢
    exact ⟨hd, rfl⟩

variable (s : Fs P) (i : ℕ)

theorem sameDirs_addLink (d : Int16) : SameDirs s (s.addLink i d) :=
  sameDirs_setInode (x := { s.inode i with nlink := (s.inode i).nlink + d }) rfl fun h => ⟨h, rfl⟩

theorem sameDirs_initInode (major minor : Int16) : SameDirs s (s.initInode i major minor) :=
  sameDirs_setInode (x := { s.inode i with major := major, minor := minor, nlink := 1 }) rfl
    fun h => ⟨h, rfl⟩

theorem sameDirs_iget : SameDirs s (s.iget i) := by
  unfold Fs.iget
  split <;> exact sameDirs_of_eq rfl

theorem sameDirs_reap : SameDirs s (s.reap i) := by
  unfold Fs.reap
  split
  · exact sameDirs_setInode rfl fun h => absurd h (by simp [Fs.freed])
  · exact sameDirs_of_eq rfl

end

section
variable {R : Fs P → Prop} {sb : Super} {site : Site} {ip i : ℕ}

theorem safe_iget (hR : OfDirs R) : (iget sb i).Safe R NotFull :=
  fun s hs => ⟨hR _ _ (sameDirs_iget s i) hs,
    Prog.Safe.ite (fun _ => .panic (by decide)) fun _ => trivial⟩

theorem safe_idup (hR : OfDirs R) : (idup i).Safe R NotFull :=
  .modify fun s hs => hR s _ (sameDirs_of_eq rfl) hs

theorem safe_ilock (hR : OfDirs R) : (ilock ip).Safe R NotFull :=
  fun s hs => ⟨hs, .ite (fun _ => .panic (by decide)) fun _ => fun s hs =>
    ⟨hR s _ (sameDirs_of_eq rfl) hs, .ite (fun _ => .panic (by decide)) fun _ => trivial⟩⟩

theorem safe_iunlock (R : Fs P → Prop) : (iunlock ip).Safe R NotFull :=
  fun _ s hs => ⟨hs, .ite (fun _ => .panic (by decide)) fun _ => trivial⟩

variable (hR : OfDirs R)
include hR

theorem safe_iput : (iput site ip).Safe R NotFull :=
  fun s hs => ⟨hR _ _ (sameDirs_reap s ip) hs, fun s' hs' =>
    ⟨hR s' _ (sameDirs_of_eq rfl) hs', trivial⟩⟩

theorem safe_iunlockput : (iunlockput site ip).Safe R NotFull :=
  .bind (safe_iunlock R) fun _ => safe_iput hR

theorem safe_dirlookup {name : Name} : (dirlookup sb ip name).Safe R NotFull := by
  refine fun s hs => ⟨hs, .ite (fun _ => .panic (by decide)) fun _ => ?_⟩
  cases s.slot ip name with
  | none => trivial
  | some n => exact .bind (safe_iget hR) fun _ => .pure _

theorem safe_namexLoop (par : Bool) (names : List Name) :
    (namexLoop sb par ip names).Safe R NotFull := by
  induction names generalizing ip with
  | nil => exact .ite (fun _ => .bind (safe_iput hR) fun _ => .pure _) fun _ => .pure _
  | cons name rest ih =>
    refine .bind (safe_ilock hR) fun _ => .bind (.read _) fun type => .ite (fun _ => ?_) fun _ =>
      .ite (fun _ => ?_) fun _ => .bind (safe_dirlookup hR) fun r => ?_
    · exact .bind (safe_iunlockput hR) fun _ => .pure _
    · exact .bind (safe_iunlock R) fun _ => .pure _
    · rcases r with _ | ⟨next, n⟩
      · exact .bind (safe_iunlockput hR) fun _ => .pure _
      · exact .bind (safe_iunlockput hR) fun _ => ih

theorem safe_namex {p : P} {path : Path} {par : Bool} : (namex sb p path par).Safe R NotFull :=
  .ite (fun _ => .bind (safe_iget hR) fun _ => safe_namexLoop hR par _) fun _ =>
    .bind (.read _) fun _ => .bind (safe_idup hR) fun _ => safe_namexLoop hR par _

theorem safe_namei {p : P} {path : Path} : (namei sb p path).Safe R NotFull :=
  .bind (safe_namex hR) fun r => by
    rcases r with _ | ⟨ip, name⟩
    · exact .pure _
    · exact .pure _

theorem safe_beginOp : Prog.Safe R NotFull (beginOp : Op P Unit) :=
  .modify fun s hs => hR s _ (sameDirs_of_eq rfl) hs

theorem safe_addLink (d : Int16) : Prog.Safe R NotFull (.modify (·.addLink ip d) : Op P Unit) :=
  .modify fun s hs => hR s _ (sameDirs_addLink s ip d) hs

end

section
variable {sb : Super} {s : Fs P} {dp ip inum n : ℕ} {name : Name} {type : IType}

theorem Inode.HasRoom.spare {x : Inode} (h : x.HasRoom) :
    16 * (x.entries.findIdx (fun e => decide (e.inum = 0)) + 1) ≤ MAXFILE * BSIZE := by
  have hsize := h.size
  have hmax : MAXFILE * BSIZE = 16 * 4480 := by decide
  rcases h.room with ⟨e, he, hz⟩ | hlt
  · have := List.findIdx_lt_length_of_exists (p := fun e : Dirent => decide (e.inum = 0))
      ⟨e, he, decide_eq_true hz⟩
    omega
  · have hle : x.entries.findIdx (fun e => decide (e.inum = 0)) ≤ x.entries.length :=
      List.findIdx_le_length
    omega

theorem wp_dirlookup {Q : Option (ℕ × ℕ) → Fs P → Prop}
    (hnone : (s.inode dp).type = .dir → Q none s)
    (hsome : ∀ i n t, SameDirs s t → Q (some (i, n)) t) :
    (dirlookup sb dp name).wp NotFull Q s := by
  show Prog.wp _ (if (s.inode dp).type ≠ .dir then _ else _) _ _
  split
  · show NotFull .dirlookupNotDir
    decide
  rename_i hdir
  rw [not_not] at hdir
  dsimp only [id]
  cases s.slot dp name with
  | none => exact hnone hdir
  | some n =>
    refine (Prog.wp_bind _ _).2 ?_
    show Prog.wp _ (if _ then _ else _) _ _
    split
    · show NotFull .igetNoInodes
      decide
    · exact hsome _ _ _ (sameDirs_iget s _)

theorem wp_dirlink {Q : Int → Fs P → Prop} (hroom : (s.inode dp).type = .dir → (s.inode dp).HasRoom)
    (hfound : ∀ t, SameDirs s t → Q (-1) t)
    (hnew : (s.inode dp).type = .dir → Q 0 (s.writeEntry dp (s.spare dp) ⟨inum, name⟩)) :
    (dirlink sb dp name inum).wp NotFull Q s := by
  refine (Prog.wp_bind _ _).2 (wp_dirlookup (fun hdir => ?_) fun i n t ht => ?_)
  · have hfits : ¬MAXFILE * BSIZE < 16 * (s.spare dp + 1) := not_lt.2 (hroom hdir).spare
    refine (Prog.wp_act _ _).2 ?_
    cases hno : s.noRoom sb dp (s.spare dp) ⟨inum, name⟩ with
    | none => exact hnew hdir
    | some e =>
      rw [Fs.noRoom, if_neg hfits] at hno
      split at hno
      · cases hno
        show NotFull .balloc
        decide
      · cases hno
  · refine hfound _ fun d hd => ?_
    obtain ⟨h1, h2⟩ := sameDirs_reap t i d hd
    obtain ⟨h3, h4⟩ := ht d h1
    exact ⟨h3, h2.trans h4⟩

theorem roomy_writeEntry (h : Roomy s) (ip n : ℕ) (e : Dirent)
    (hlen : (s.inode ip).entries.length < 2) : Roomy (s.writeEntry ip n e) := by
  intro d hd
  by_cases hdi : d = ip
  · have hself : (s.writeEntry ip n e).inode ip =
        { s.inode ip with entries := Fs.store (s.inode ip).entries n e } := update_self ..
    have hentries : ((s.writeEntry ip n e).inode d).entries =
        Fs.store (s.inode ip).entries n e := by rw [hdi, hself]
    have hle : (Fs.store (s.inode ip).entries n e).length ≤ 2 := by
      unfold Fs.store
      split
      · rw [List.length_set]
        omega
      · rw [List.length_append, List.length_singleton]
        omega
    have hmax : 16 * 2 < MAXFILE * BSIZE := by decide
    constructor
    · rw [hentries]
      omega
    · rw [hentries]
      omega
  · have hsame : (s.writeEntry ip n e).inode d = s.inode d := update_of_ne hdi ..
    rw [hsame] at hd ⊢
    exact h d hd

end

abbrev Harmless (x : Op P α) : Prop := x.Safe (fun _ => True) NotFull

section
variable {sb : Super} {site : Site} {ip dp n i : ℕ} {name : Name} {f : Fin NFILE}

theorem harmless_modify (f : Fs P → Fs P) : Harmless (.modify f : Op P Unit) :=
  .modify fun _ _ => trivial

theorem harmless_iput : Harmless (iput site ip : Op P Unit) := safe_iput ofDirs_true

theorem harmless_iunlockput : Harmless (iunlockput site ip : Op P Unit) :=
  safe_iunlockput ofDirs_true

theorem harmless_ilock : Harmless (ilock ip : Op P Unit) := safe_ilock ofDirs_true

theorem harmless_iunlock : Harmless (iunlock ip : Op P Unit) := safe_iunlock _

theorem harmless_end (r : Int) : Harmless (do
    endOp
    pure r : Op P Int) := .bind (harmless_modify _) fun _ => .pure _

theorem harmless_linkBad : Harmless (linkBad ip : Op P Int) :=
  .bind harmless_ilock fun _ => .bind (harmless_modify _) fun _ =>
    .bind harmless_iunlockput fun _ => harmless_end _

theorem harmless_unlinkBad : Harmless (unlinkBad dp : Op P Int) :=
  .bind harmless_iunlockput fun _ => harmless_end _

theorem harmless_unlinkEntry : Harmless (unlinkEntry dp n ip : Op P Int) :=
  .bind (harmless_modify _) fun _ => .bind (harmless_modify _) fun _ =>
    .bind harmless_iunlockput fun _ => .bind (harmless_modify _) fun _ =>
      .bind harmless_iunlockput fun _ => harmless_end _

theorem harmless_unlinkName : Harmless (unlinkName sb dp name : Op P Int) := by
  refine .ite (fun _ => harmless_unlinkBad) fun _ => .bind (safe_dirlookup ofDirs_true) fun r => ?_
  rcases r with _ | ⟨ip, n⟩
  · exact harmless_unlinkBad
  · refine .bind harmless_ilock fun _ => .bind (.read _) fun x =>
      .ite (fun _ => .panic (by decide)) fun _ => .ite (fun _ => ?_) fun _ => harmless_unlinkEntry
    exact .bind harmless_iunlockput fun _ => harmless_unlinkBad

theorem harmless_sysUnlink (p : P) (path : Option Path) : Harmless (sysUnlink sb p path) := by
  rcases path with _ | path
  · exact .pure _
  refine .bind (harmless_modify _) fun _ => .bind (safe_namex ofDirs_true) fun r => ?_
  rcases r with _ | ⟨dp, name⟩
  · exact harmless_end _
  · exact .bind harmless_ilock fun _ => harmless_unlinkName

theorem harmless_mknodEnd (r : Option ℕ) : Harmless (mknodEnd r : Op P Int) := by
  rcases r with _ | ip
  · exact harmless_end _
  · exact .bind harmless_iunlockput fun _ => harmless_end _

theorem harmless_fileclose : Harmless (fileclose f : Op P Unit) :=
  fun _ _ => ⟨trivial, .ite (fun _ => .panic (by decide)) fun _ =>
    .ite (fun _ => .pure _) fun _ => .ite (fun _ => .bind (harmless_modify _) fun _ =>
      .bind harmless_iput fun _ => harmless_modify _) fun _ => .pure _⟩

theorem harmless_openFail : Harmless (openFail ip : Op P Int) :=
  .bind harmless_iunlockput fun _ => harmless_end _

theorem harmless_console (r : Int) : Harmless (console ip r : Op P Int) :=
  .bind harmless_iunlock fun _ => .bind harmless_ilock fun _ => .pure _

theorem harmless_readi (off n avail : ℕ) : Harmless (readi ip off n avail : Op P Int) :=
  fun _ _ => ⟨trivial, .ite (fun _ => .ite (fun _ => harmless_console _) fun _ => .pure _)
    fun _ => .pure _⟩

theorem harmless_writei (off n : ℕ) : Harmless (writei sb ip off n : Op P Int) :=
  fun _ _ => ⟨trivial, .ite (fun _ => .ite (fun _ => harmless_console _) fun _ => .pure _)
    fun _ => .ite (fun _ => .pure _) fun _ => .ite (fun _ => .pure _) fun _ =>
      .ite (fun _ => .panic (by decide)) fun _ => .ite (fun _ => .panic (by decide)) fun _ =>
        .pure _⟩

theorem harmless_filestat : Harmless (filestat f : Op P Int) :=
  .bind (.read _) fun _ => .ite (fun _ => .bind harmless_ilock fun _ =>
    .bind harmless_iunlock fun _ => .pure _) fun _ => .pure _

theorem harmless_fileread (n avail : ℕ) : Harmless (fileread f n avail : Op P Int) :=
  .bind (.read _) fun _ => .ite (fun _ => .pure _) fun _ => .ite (fun _ =>
    .bind harmless_ilock fun _ => .bind (.read _) fun _ => .bind (harmless_readi _ _ _) fun _ =>
      .bind (harmless_modify _) fun _ => .bind harmless_iunlock fun _ => .pure _)
    fun _ => .panic (by decide)

theorem harmless_filewriteLoop (n turns i : ℕ) :
    Harmless (filewriteLoop sb f n turns i : Op P Int) := by
  induction turns generalizing i with
  | zero => exact .pure _
  | succ turns ih =>
    refine .ite (fun _ => ?_) fun _ => .pure _
    refine .bind (harmless_modify _) fun _ => .bind (.read _) fun _ => .bind harmless_ilock
      fun _ => .bind (.read _) fun _ => .bind (harmless_writei _ _) fun r =>
        .bind (harmless_modify _) fun _ => .bind harmless_iunlock fun _ =>
          .bind (harmless_modify _) fun _ => ?_
    exact .ite (fun _ => .pure _) fun _ => .ite (fun _ => .panic (by decide)) fun _ => ih _

theorem harmless_filewrite (n : ℕ) : Harmless (filewrite sb f n : Op P Int) :=
  .bind (.read _) fun _ => .ite (fun _ => .pure _) fun _ =>
    .ite (fun _ => harmless_filewriteLoop n n 0) fun _ => .panic (by decide)

variable [DecidableEq P] (p : P)

theorem harmless_fdalloc : Harmless (fdalloc p f) := fun _ _ => ⟨trivial, trivial⟩

theorem harmless_openFile (omode : UInt32) : Harmless (openFile p ip omode) := by
  refine .bind (fun _ _ => ⟨trivial, trivial⟩) fun r => ?_
  rcases r with _ | f
  · exact harmless_openFail
  refine .bind (harmless_fdalloc p) fun r => ?_
  rcases r with _ | fd
  · exact .bind harmless_fileclose fun _ => harmless_openFail
  · exact .bind harmless_iunlock fun _ => .bind (harmless_modify _) fun _ =>
      .bind (harmless_modify _) fun _ => .pure _

theorem harmless_sysChdir (path : Option Path) : Harmless (sysChdir sb p path) := by
  refine .bind (harmless_modify _) fun _ => ?_
  rcases path with _ | path
  · exact harmless_end _
  refine .bind (safe_namei ofDirs_true) fun r => ?_
  rcases r with _ | ip
  · exact harmless_end _
  refine .bind harmless_ilock fun _ => .bind (.read _) fun _ => .ite (fun _ => ?_) fun _ => ?_
  · exact .bind harmless_iunlockput fun _ => harmless_end _
  · exact .bind harmless_iunlock fun _ => .bind (.read _) fun _ => .bind harmless_iput fun _ =>
      .bind (harmless_modify _) fun _ => .bind (harmless_modify _) fun _ => .pure _

omit [DecidableEq P] in
theorem harmless_withFd (fd : Int) {k : Fin NOFILE → Fin NFILE → Op P Int}
    (hk : ∀ d f, Harmless (k d f)) : Harmless (withFd p fd k) := by
  refine .bind (.read _) fun r => ?_
  rcases r with _ | ⟨d, f⟩
  · exact .pure _
  · exact hk d f

theorem harmless_sysDup (fd : Int) : Harmless (sysDup p fd) := by
  refine harmless_withFd p fd fun d f => .bind (harmless_fdalloc p) fun r => ?_
  rcases r with _ | d
  · exact .pure _
  · exact .bind (fun _ _ => ⟨trivial, .ite (fun _ => .panic (by decide)) fun _ =>
      .pure _⟩) fun _ => .pure _

theorem harmless_exitFiles (fds : List (Fin NOFILE)) : Harmless (exitFiles p fds) := by
  induction fds with
  | nil => exact .pure _
  | cons fd rest ih =>
    refine .bind (.read _) fun r => ?_
    rcases r with _ | f
    · exact ih
    · exact .bind harmless_fileclose fun _ => .bind (harmless_modify _) fun _ => ih

theorem harmless_exit : Harmless (exit p) :=
  .bind (harmless_exitFiles p _) fun _ => .bind (harmless_modify _) fun _ => .bind (.read _)
    fun _ => .bind harmless_iput fun _ => .bind (harmless_modify _) fun _ =>
      .bind (harmless_modify _) fun _ => .pure _

end

section
variable {sb : Super} {s : Fs P} {dp ip inum n : ℕ} {name : Name} {type : IType}

theorem roomy_alloc (h : Roomy s) (i : ℕ) (type : IType) : Roomy (s.alloc i type) := by
  intro d hd
  by_cases hdi : d = i
  · have hself : (s.alloc i type).inode d = ⟨type, 0, 0, 0, 0, []⟩ := by
      rw [hdi]
      exact update_self ..
    rw [hself]
    exact ⟨Nat.zero_le _, .inr (show 16 * 0 < MAXFILE * BSIZE by decide)⟩
  · have hsame : (s.alloc i type).inode d = s.inode d := update_of_ne hdi ..
    rw [hsame] at hd ⊢
    exact h d hd

theorem inode_iget (s : Fs P) (i : ℕ) : (s.iget i).inode = s.inode := by
  unfold Fs.iget
  split <;> rfl

theorem wp_iallocLoop (h : Roomy s) (l : List ℕ) :
    (iallocLoop sb type l).wp NotFull (fun i s => Roomy s ∧ (s.inode i).entries = []) s := by
  induction l with
  | nil =>
    show NotFull .iallocNoInodes
    decide
  | cons inum rest ih =>
    refine (Prog.wp_act _ _).2 ?_
    by_cases hfree : (s.inode inum).type = .free
    · rw [if_pos hfree, if_pos hfree]
      refine (Prog.wp_bind _ _).2 ?_
      show Prog.wp _ (if _ then _ else _) _ _
      split
      · show NotFull .igetNoInodes
        decide
      · refine ⟨(sameDirs_iget _ _).roomy (roomy_alloc h inum type), ?_⟩
        rw [inode_iget]
        exact congrArg Inode.entries (update_self inum ⟨type, 0, 0, 0, 0, []⟩ s.inode)
    · rw [if_neg hfree, if_neg hfree]
      exact ih

theorem wp_ilock {Q : Unit → Fs P → Prop} (hQ : Q () (s.load ip)) : (ilock ip).wp NotFull Q s := by
  show Prog.wp _ (if _ then _ else _) _ _
  split
  · show NotFull .ilock
    decide
  show Prog.wp _ (if _ then _ else _) _ _
  split
  · show NotFull .noType
    decide
  · exact hQ

theorem entries_addLink (s : Fs P) (i j : ℕ) (d : Int16) :
    ((s.addLink i d).inode j).entries = (s.inode j).entries := by
  by_cases hj : j = i
  · have hself : (s.addLink i d).inode i = { s.inode i with nlink := (s.inode i).nlink + d } :=
      update_self ..
    rw [hj, hself]
  · exact congrArg Inode.entries (update_of_ne hj _ s.inode)

theorem length_writeEntry (s : Fs P) (i n : ℕ) (e : Dirent) :
    ((s.writeEntry i n e).inode i).entries.length ≤ (s.inode i).entries.length + 1 := by
  have hself : (s.writeEntry i n e).inode i =
      { s.inode i with entries := Fs.store (s.inode i).entries n e } := update_self ..
  rw [hself, Fs.store]
  split
  · rw [List.length_set]
    omega
  · rw [List.length_append, List.length_singleton]

section
variable (h : Roomy s)
include h

theorem wp_createDots (hip : (s.inode ip).entries = []) :
    (createDots sb dp ip).wp NotFull (fun _ => Roomy) s := by
  have hlink := (sameDirs_addLink s dp 1).roomy h
  have hempty : ((s.addLink dp 1).inode ip).entries.length = 0 := by
    rw [entries_addLink, hip]
    rfl
  refine (Prog.wp_bind _ _).2 ((Prog.wp_bind _ _).2 (wp_dirlink (hlink ip) (fun t _ => ?_)
    fun _ => ?_))
  · show NotFull .createDots
    decide
  have hlen := length_writeEntry (s.addLink dp 1) ip ((s.addLink dp 1).spare ip) ⟨ip, dot⟩
  have hroom1 := roomy_writeEntry hlink ip ((s.addLink dp 1).spare ip) ⟨ip, dot⟩ (by omega)
  refine (Prog.wp_bind _ _).2 (wp_dirlink (hroom1 ip) (fun t _ => ?_) fun _ => ?_)
  · show NotFull .createDots
    decide
  · exact roomy_writeEntry hroom1 ip _ _ (by omega)

theorem wp_createNew (major minor : Int16) :
    (createNew sb dp name type major minor).wp NotFull (fun _ _ => True) s := by
  refine (Prog.wp_bind _ _).2 (Prog.wp_mono (wp_iallocLoop h _) fun ip s1 hs1 => ?_)
  refine (Prog.wp_bind _ _).2 (wp_ilock ((Prog.wp_bind _ _).2 ?_))
  show Prog.wp _ _ _ ((s1.load ip).initInode ip major minor)
  have hload : Roomy (s1.load ip) := hs1.1
  have hroom := (sameDirs_initInode (s1.load ip) ip major minor).roomy hload
  have hself : ((s1.load ip).initInode ip major minor).inode ip =
      { s1.inode ip with major := major, minor := minor, nlink := 1 } := update_self ..
  have hip : (((s1.load ip).initInode ip major minor).inode ip).entries = [] := by
    rw [hself]
    exact hs1.2
  generalize (s1.load ip).initInode ip major minor = s2 at hroom hip
  have hdots : (if type = .dir then createDots sb dp ip else pure ()).wp NotFull
      (fun _ => Roomy) s2 := by
    split
    · exact wp_createDots hroom hip
    · exact hroom
  refine (Prog.wp_bind _ _).2 (Prog.wp_mono hdots fun _ s3 hs3 => (Prog.wp_bind _ _).2
    (wp_dirlink (hs3 dp) (fun t _ => ?_) fun _ => ?_))
  · show NotFull .createDirlink
    decide
  · exact Prog.Safe.ends (.bind harmless_iunlockput fun _ => .pure _) _

theorem wp_create (p : P) (path : Path) (type : IType) (major minor : Int16) :
    (create sb p path type major minor).wp NotFull (fun _ _ => True) s := by
  refine Prog.Safe.wp_bind (safe_namex ofDirs_roomy) h fun r s1 hs1 => ?_
  rcases r with _ | ⟨dp, name⟩
  · trivial
  refine Prog.Safe.wp_bind (safe_ilock ofDirs_roomy) hs1 fun _ s2 hs2 => ?_
  refine Prog.Safe.wp_bind (safe_dirlookup ofDirs_roomy) hs2 fun r s3 hs3 => ?_
  rcases r with _ | ⟨ip, n⟩
  · exact wp_createNew hs3 major minor
  · refine Prog.Safe.ends (.bind harmless_iunlockput fun _ => .bind harmless_ilock fun _ =>
      .bind (.read _) fun _ => .ite (fun _ => .pure _) fun _ => ?_) s3
    exact .bind harmless_iunlockput fun _ => .pure _

theorem wp_linkEnter (p : P) (new : Path) :
    (linkEnter sb p new ip).wp NotFull (fun _ _ => True) s := by
  refine Prog.Safe.wp_bind (safe_namex ofDirs_roomy) h fun r s1 hs1 => ?_
  rcases r with _ | ⟨dp, name⟩
  · exact harmless_linkBad.ends s1
  refine Prog.Safe.wp_bind (safe_ilock ofDirs_roomy) hs1 fun _ s2 hs2 => ?_
  have hrest : ∀ r : Int, Harmless (do
      iunlockput .iput dp
      if r < 0 then linkBad ip
      else do
        iput .iput ip
        endOp
        pure 0 : Op P Int) := fun r => .bind harmless_iunlockput fun _ =>
    .ite (fun _ => harmless_linkBad) fun _ => .bind harmless_iput fun _ => harmless_end _
  exact (Prog.wp_bind _ _).2 (wp_dirlink (hs2 dp) (fun t _ => (hrest (-1)).ends t) fun _ =>
    (hrest 0).ends _)

theorem wp_sysLink (p : P) (old new : Option Path) :
    (sysLink sb p old new).wp NotFull (fun _ _ => True) s := by
  rcases old with _ | old
  · trivial
  rcases new with _ | new
  · trivial
  refine Prog.Safe.wp_bind (safe_beginOp ofDirs_roomy) h fun _ s1 hs1 => ?_
  refine Prog.Safe.wp_bind (safe_namei ofDirs_roomy) hs1 fun r s2 hs2 => ?_
  rcases r with _ | ip
  · exact (harmless_end (-1)).ends s2
  refine Prog.Safe.wp_bind (safe_ilock ofDirs_roomy) hs2 fun _ s3 hs3 => ?_
  refine Prog.Safe.wp_bind (.read _) hs3 fun type s4 hs4 => ?_
  split
  · exact Prog.Safe.ends (.bind harmless_iunlockput fun _ => harmless_end (-1)) s4
  · refine Prog.Safe.wp_bind (safe_addLink ofDirs_roomy 1) hs4 fun _ s5 hs5 => ?_
    exact Prog.Safe.wp_bind (safe_iunlock Roomy) hs5 fun _ s6 hs6 => wp_linkEnter hs6 p new

theorem wp_mknod (p : P) (path : Option Path) (type : IType) (major minor : Int16) :
    (makeNode sb p path type major minor).wp NotFull (fun _ _ => True) s := by
  refine Prog.Safe.wp_bind (safe_beginOp ofDirs_roomy) h fun _ s1 hs1 => ?_
  rcases path with _ | path
  · exact (harmless_mknodEnd none).ends s1
  · exact (Prog.wp_bind _ _).2 (Prog.wp_mono (wp_create hs1 p path type major minor)
      fun r s2 _ => (harmless_mknodEnd r).ends s2)

end

variable [DecidableEq P]

theorem wp_sysOpen (h : Roomy s) (p : P) (path : Option Path) (omode : UInt32) :
    (sysOpen sb p path omode).wp NotFull (fun _ _ => True) s := by
  rcases path with _ | path
  · trivial
  refine Prog.Safe.wp_bind (safe_beginOp ofDirs_roomy) h fun _ s1 hs1 => ?_
  have hopen : (openInode sb p path omode).wp NotFull (fun _ _ => True) s1 := by
    unfold openInode
    split
    · exact wp_create hs1 p path .file 0 0
    refine Prog.Safe.ends (.bind (safe_namei ofDirs_true) fun r => ?_) s1
    rcases r with _ | ip
    · exact .pure _
    · exact .bind harmless_ilock fun _ => .bind (.read _) fun _ =>
        .ite (fun _ => .bind harmless_iunlockput fun _ => .pure _) fun _ => .pure _
  refine (Prog.wp_bind _ _).2 (Prog.wp_mono hopen fun r s2 _ => ?_)
  rcases r with _ | ip
  · exact (harmless_end (-1)).ends s2
  · exact (harmless_openFile p omode).ends s2

theorem wp_body (h : Roomy s) (p : P) (call : Call) :
    (body sb p call).wp NotFull (fun _ _ => True) s := by
  cases call with
  | link old new => exact wp_sysLink h p old new
  | unlink path => exact (harmless_sysUnlink p path).ends s
  | «open» path omode => exact wp_sysOpen h p path omode
  | mkdir path => exact wp_mknod h p path .dir 0 0
  | mknod path major minor => exact wp_mknod h p path .dev major minor
  | chdir path => exact (harmless_sysChdir p path).ends s
  | read fd n avail =>
    exact (harmless_withFd p fd fun _ _ => .ite (fun _ => .pure _) fun _ =>
      harmless_fileread _ _).ends s
  | write fd n =>
    exact (harmless_withFd p fd fun _ _ => .ite (fun _ => .pure _) fun _ =>
      harmless_filewrite _).ends s
  | close fd =>
    exact (harmless_withFd p fd fun _ _ => .bind (harmless_modify _) fun _ =>
      .bind harmless_fileclose fun _ => .pure _).ends s
  | dup fd => exact (harmless_sysDup p fd).ends s
  | fstat fd => exact (harmless_withFd p fd fun _ _ => harmless_filestat).ends s
  | exit => exact (harmless_exit p).ends s

end

def RoomBefore : Between P → P × Call → Prop
  | .ok s, _ => Roomy s
  | .error _, _ => True

def NeverFull : Between P → Prop
  | .ok _ => True
  | .error m => m ≠ .dirlink

theorem neverFull_step [DecidableEq P] {sb : Super} {b b' : Between P} {l : P × Call}
    (hroom : RoomBefore b l) (hs : callStep sb b l = some b') : NeverFull b' := by
  obtain ⟨p, call⟩ := l
  cases b with
  | error m => cases hs
  | ok s =>
    have hwp : (body sb p call).wp NotFull (fun _ _ => True) s := wp_body hroom p call
    have hrun := Prog.run_of_wp p (fun _ => none) hwp
    simp only [callStep] at hs
    split at hs
    · cases hs
    cases hr : (body sb p call).run p (fun _ => none) s with
    | done r lock s' =>
      rw [hr] at hs
      cases hs
      trivial
    | panicked m =>
      rw [hr] at hs hrun
      cases hs
      exact hrun
    | blocked i =>
      rw [hr] at hs
      cases hs

end Xv6.Sys
