import Mathlib
import Xv6.Trans.Calls

namespace Xv6.Trans

open Lib Files Function

def Ev.Inner : Ev → Prop
  | .iput _ => True
  | .logWrite => True
  | _ => False

inductive Balanced : List Ev → Prop where
  | nil : Balanced []
  | transaction {l w : List Ev} (hl : Balanced l) (hw : ∀ e ∈ w, e.Inner) :
      Balanced (l ++ .beginOp :: w ++ [.endOp])

def Open (l : List Ev) : Prop :=
  ∃ l' w, Balanced l' ∧ (∀ e ∈ w, Ev.Inner e) ∧ l = l' ++ .beginOp :: w

variable {l : List Ev}

theorem Balanced.open (h : Balanced l) : Open (l ++ [.beginOp]) :=
  ⟨l, [], h, by simp, rfl⟩

theorem Open.inner {e : Ev} (h : Open l) (he : e.Inner) : Open (l ++ [e]) := by
  obtain ⟨l', w, hl, hw, rfl⟩ := h
  refine ⟨l', w ++ [e], hl, ?_, by simp⟩
  intro e' he'
  rcases List.mem_append.1 he' with he' | he'
  · exact hw e' he'
  · rw [List.mem_singleton.1 he']
    exact he

theorem Open.close (h : Open l) : Balanced (l ++ [.endOp]) := by
  obtain ⟨l', w, hl, hw, rfl⟩ := h
  exact .transaction hl hw

def Stopped (_ : Panic) (s : St) : Prop := Balanced s.trace ∨ Open s.trace

def Held (R : Ftable → Prop) (s : St) : Prop := Open s.trace ∧ R s.ftable

def Free (s : St) : Prop := Balanced s.trace ∧ s.ftable.Clean

def Inside {α : Type} (x : Op α) : Prop := ∀ R, Prog.Keeps (Held R) Stopped x

def Outside {α : Type} (x : Op α) : Prop := Prog.Keeps Free Stopped x

def Quiet {α : Type} (x : Op α) : Prop :=
  ∀ P : List Ev → Ftable → Prop,
    Prog.Keeps (fun s => P s.trace s.ftable) (fun _ s => P s.trace s.ftable) x

section
variable {α β : Type} {x : Op α} {k : α → Op β}

theorem Quiet.inside (h : Quiet x) : Inside x := fun R =>
  (h fun l t => Open l ∧ R t).err fun _ _ hs => .inr hs.1

theorem Quiet.outside (h : Quiet x) : Outside x :=
  (h fun l t => Balanced l ∧ t.Clean).err fun _ _ hs => .inl hs.1

theorem Quiet.pure (a : α) : Quiet (Pure.pure a : Op α) := fun _ => .pure a

theorem Quiet.panic (e : Panic) : Quiet (.panic e : Op α) := fun _ => .panic fun _ hs => hs

theorem Quiet.read (f : St → α) : Quiet (.read f : Op α) := fun _ => .read f

variable {f : St → St}

theorem Quiet.modify (h : ∀ s, (f s).trace = s.trace ∧ (f s).ftable = s.ftable) :
    Quiet (.modify f : Op Unit) := by
  intro P
  refine .modify fun s hs => ?_
  rw [(h s).1, (h s).2]
  exact hs

theorem Quiet.bind (hx : Quiet x) (hk : ∀ a, Quiet (k a)) : Quiet (x >>= k) :=
  fun P => (hx P).bind fun a => hk a P

variable {c : Prop} {y : Op α}

theorem Quiet.ite [Decidable c] {x : Op α} (hx : Quiet x) (hy : Quiet y) :
    Quiet (if c then x else y) := fun P => (hx P).ite (hy P)

theorem Inside.pure (a : α) : Inside (Pure.pure a : Op α) := (Quiet.pure a).inside

theorem Inside.panic (e : Panic) : Inside (.panic e : Op α) := (Quiet.panic e).inside

theorem Inside.read (f : St → α) : Inside (.read f : Op α) := (Quiet.read f).inside

theorem Inside.modify (h : ∀ s, (f s).trace = s.trace ∧ (f s).ftable = s.ftable) :
    Inside (.modify f : Op Unit) := (Quiet.modify h).inside

theorem Inside.bind (hx : Inside x) (hk : ∀ a, Inside (k a)) : Inside (x >>= k) :=
  fun R => (hx R).bind fun a => hk a R

theorem Inside.ite [Decidable c] {x : Op α} (hx : Inside x) (hy : Inside y) :
    Inside (if c then x else y) := fun R => (hx R).ite (hy R)

theorem Outside.pure (a : α) : Outside (Pure.pure a : Op α) := (Quiet.pure a).outside

theorem Outside.panic (e : Panic) : Outside (.panic e : Op α) := (Quiet.panic e).outside

theorem Outside.read (f : St → α) : Outside (.read f : Op α) := (Quiet.read f).outside

theorem Outside.modify (h : ∀ s, (f s).trace = s.trace ∧ (s.ftable.Clean → (f s).ftable.Clean)) :
    Outside (.modify f : Op Unit) := by
  refine Prog.Keeps.modify fun s hs => ⟨?_, (h s).2 hs.2⟩
  rw [(h s).1]
  exact hs.1

theorem Outside.bind (hx : Outside x) (hk : ∀ a, Outside (k a)) : Outside (x >>= k) :=
  Prog.Keeps.bind hx hk

theorem Outside.ite [Decidable c] {x : Op α} (hx : Outside x) (hy : Outside y) :
    Outside (if c then x else y) := Prog.Keeps.ite hx hy

def Ending {α : Type} (x : Op α) : Prop :=
  Prog.Triple (Held Ftable.Clean) x (fun _ => Free) Stopped

theorem Inside.ending (hx : Inside x) (hk : ∀ a, Ending (k a)) : Ending (x >>= k) :=
  Prog.Triple.bind (hx _) hk

theorem Ending.ite [Decidable c] {x : Op α} (hx : Ending x) (hy : Ending y) :
    Ending (if c then x else y) := Prog.Triple.ite (fun _ => hx) fun _ => hy

theorem Ending.panic (e : Panic) : Ending (.panic e : Op α) :=
  Prog.Triple.panic fun _ hs => .inr hs.1

end

section

theorem quiet_ask : Quiet ask := fun _ => ⟨fun _ hs => hs⟩

theorem quiet_check : Quiet check := quiet_ask.bind fun _ => .pure _

theorem quiet_mayPanic (e : Panic) : Quiet (mayPanic e) :=
  quiet_check.bind fun _ => (Quiet.panic e).ite (.pure _)

theorem inside_emit (e : Ev) (he : e.Inner) : Inside (emit e) := fun _ =>
  .modify fun _ hs => ⟨hs.1.inner he, hs.2⟩

theorem beginOp_triple : Triple Free beginOp (fun _ => Held Ftable.Clean) Stopped :=
  .modify fun _ hs => ⟨hs.1.open, hs.2⟩

theorem endOp_triple (R : Ftable → Prop) :
    Triple (Held R) endOp (fun _ s => Balanced s.trace ∧ R s.ftable) Stopped :=
  .modify fun _ hs => ⟨hs.1.close, hs.2⟩

theorem outside_beginOp {α : Type} {k : Unit → Op α} (h : Ending (k ())) :
    Outside (beginOp >>= k) := Prog.Triple.bind beginOp_triple fun _ => h

theorem ending_endOp {α : Type} {k : Unit → Op α} (h : Outside (k ())) :
    Ending (endOp >>= k) := Prog.Triple.bind (endOp_triple _) fun _ => h

theorem inside_logWrite : Inside logWrite :=
  (inside_emit .logWrite trivial).bind fun _ => (quiet_mayPanic _).inside

theorem inside_balloc : Inside balloc :=
  (quiet_mayPanic _).inside.bind fun _ => inside_logWrite.bind fun _ => inside_logWrite

theorem inside_bfree : Inside bfree := (quiet_mayPanic _).inside.bind fun _ => inside_logWrite

theorem inside_iupdate : Inside iupdate := inside_logWrite

theorem quiet_iget : Quiet iget := quiet_mayPanic _

theorem inside_ialloc : Inside ialloc :=
  (quiet_mayPanic _).inside.bind fun _ => quiet_ask.inside.bind fun _ =>
    inside_logWrite.bind fun _ => quiet_iget.inside.bind fun _ => .pure _

theorem quiet_ilock (ip : ℕ) : Quiet (ilock ip) := quiet_mayPanic _

theorem quiet_iunlock (ip : ℕ) : Quiet (iunlock ip) := quiet_mayPanic _

theorem inside_ilock (ip : ℕ) : Inside (ilock ip) := (quiet_ilock ip).inside

theorem inside_iunlock (ip : ℕ) : Inside (iunlock ip) := (quiet_iunlock ip).inside

theorem inside_check : Inside check := quiet_check.inside

theorem inside_bfreeAll (ip : ℕ) (l : List ℕ) : Inside (bfreeAll ip l) := by
  induction l with
  | nil => exact .pure _
  | cons bn rest ih =>
    exact (Inside.read _).bind fun _ => (inside_bfree.bind fun _ => ih).ite ih

theorem inside_itrunc (ip : ℕ) : Inside (itrunc ip) := by
  refine (inside_bfreeAll _ _).bind fun _ => .bind ?_ fun _ => .bind ?_ fun _ =>
    inside_iupdate
  · exact (Inside.read _).bind fun _ =>
      ((inside_bfreeAll _ _).bind fun _ => inside_bfree).ite (.pure _)
  · exact .modify fun _ => ⟨rfl, rfl⟩

theorem inside_iput (ip : ℕ) : Inside (iput ip) := by
  refine (inside_emit (.iput ip) trivial).bind fun _ => inside_check.bind fun _ =>
    Inside.ite ?_ (.pure _)
  exact (inside_itrunc ip).bind fun _ => inside_iupdate

theorem inside_iunlockput (ip : ℕ) : Inside (iunlockput ip) :=
  (inside_iunlock ip).bind fun _ => inside_iput ip

theorem inside_bmap (ip bn : ℕ) : Inside (bmap ip bn) := by
  have hset : Inside (.modify fun s => s.setMapped ip bn) :=
    .modify fun _ => ⟨rfl, rfl⟩
  have hind : Inside (.modify fun s => s.setIndirect ip) :=
    .modify fun _ => ⟨rfl, rfl⟩
  refine .ite ?_ (.ite ?_ (.panic _))
  · exact (Inside.read _).bind fun _ => (Inside.pure _).ite (inside_balloc.bind fun _ => hset)
  · refine .bind ?_ fun _ => ?_
    · exact (Inside.read _).bind fun _ => (Inside.pure _).ite (inside_balloc.bind fun _ => hind)
    · exact (Inside.read _).bind fun _ => (Inside.pure _).ite
        (inside_balloc.bind fun _ => hset.bind fun _ => inside_logWrite)

theorem inside_readiLoop (ip turns off n : ℕ) : Inside (readiLoop ip turns off n) := by
  induction turns generalizing off n with
  | zero => exact .pure _
  | succ turns ih => exact (Inside.pure _).ite ((inside_bmap _ _).bind fun _ => ih _ _)

theorem inside_writeiLoop (ip turns off n : ℕ) : Inside (writeiLoop ip turns off n) := by
  induction turns generalizing off n with
  | zero => exact .pure _
  | succ turns ih =>
    exact (Inside.pure _).ite ((inside_bmap _ _).bind fun _ => inside_logWrite.bind fun _ => ih _ _)

theorem quiet_devsw : Quiet devsw :=
  quiet_check.bind fun _ => (Quiet.pure _).ite
    (quiet_ask.bind fun _ => quiet_check.bind fun _ => (Quiet.pure _).ite (.pure _))

theorem inside_readi (ip off n : ℕ) : Inside (readi ip off n) := by
  refine inside_check.bind fun _ => quiet_devsw.inside.ite ?_
  refine (Inside.read _).bind fun _ => (Inside.pure _).ite ?_
  exact (inside_readiLoop _ _ _ _).bind fun _ => .pure _

theorem inside_writei (ip off n : ℕ) : Inside (writei ip off n) := by
  refine inside_check.bind fun _ => quiet_devsw.inside.ite ?_
  refine (Inside.read _).bind fun _ => (Inside.pure _).ite ((Inside.pure _).ite ?_)
  refine (inside_writeiLoop _ _ _ _).bind fun _ => .ite ?_ (.pure _)
  refine .bind ?_ fun _ => inside_iupdate.bind fun _ => .pure _
  exact .modify fun _ => ⟨rfl, rfl⟩

theorem inside_scanDir (e : Panic) (dp n off : ℕ) : Inside (scanDir e dp n off) := by
  induction n generalizing off with
  | zero => exact .pure _
  | succ n ih =>
    exact (inside_readi _ _ _).bind fun _ => (Inside.panic _).ite
      (inside_check.bind fun _ => (Inside.pure _).ite (ih _))

theorem inside_dirlookup (dp : ℕ) : Inside (dirlookup dp) := by
  refine (quiet_mayPanic _).inside.bind fun _ => (Inside.read _).bind fun _ =>
    (inside_scanDir _ _ _ _).bind fun r => ?_
  cases r with
  | none => exact .pure _
  | some off => exact quiet_iget.inside.bind fun _ => quiet_ask.inside.bind fun _ => .pure _

theorem inside_dirlink (dp : ℕ) : Inside (dirlink dp) := by
  refine (inside_dirlookup dp).bind fun r => ?_
  cases r with
  | some x => exact (inside_iput _).bind fun _ => .pure _
  | none =>
    exact (Inside.read _).bind fun _ => (inside_scanDir _ _ _ _).bind fun _ =>
      (inside_writei _ _ _).bind fun _ => (Inside.panic _).ite (.pure _)

theorem inside_namexLoop (nameiparent : Bool) (ip : ℕ) (elems : List Sys.Name) :
    Inside (namexLoop nameiparent ip elems) := by
  induction elems generalizing ip with
  | nil => exact .ite ((inside_iput _).bind fun _ => .pure _) (.pure _)
  | cons name rest ih =>
    have hput : Inside (do iunlockput ip; pure (none : Option ℕ)) :=
      (inside_iunlockput ip).bind fun _ => .pure _
    refine (inside_ilock ip).bind fun _ => inside_check.bind fun _ => hput.ite (.ite ?_ ?_)
    · exact (inside_iunlock ip).bind fun _ => .pure _
    · refine (inside_dirlookup ip).bind fun r => ?_
      cases r with
      | none => exact hput
      | some next => exact (inside_iunlockput ip).bind fun _ => ih _

theorem inside_namex (path : Sys.Path) (nameiparent : Bool) : Inside (namex path nameiparent) :=
  Inside.ite (quiet_iget.inside.bind fun _ => inside_namexLoop _ _ _)
    ((Inside.read _).bind fun _ => inside_namexLoop _ _ _)

end

section

theorem filealloc_ftable (s : St) (P : Option (Fin NFILE) → St → Prop)
    (hnone : P none s)
    (hsome : ∀ f, (s.ftable f).ref = 0 → P (some f) { s with ftable := s.ftable.take f }) :
    Prog.Ends P Stopped (filealloc.result s) := by
  show P s.ftable.unused { s with ftable := (s.ftable.unused.map s.ftable.take).getD s.ftable }
  cases h : s.ftable.unused with
  | none => exact hnone
  | some f => exact hsome f (Ftable.unused_some h)

section
variable (f : Fin NFILE)

theorem quiet_fdalloc : Quiet (fdalloc f) := fun _ => ⟨fun _ hs => hs⟩

theorem outside_filedup : Outside (filedup f) :=
  (Outside.read _).bind fun _ => (Outside.panic _).ite (.modify fun _ => ⟨rfl, .dup⟩)

theorem outside_fileclose : Outside (fileclose f) := by
  refine (Outside.read _).bind fun ff => (Outside.panic _).ite (.bind ?_ fun _ => ?_)
  · exact .modify fun _ => ⟨rfl, .drop⟩
  · refine (Outside.pure _).ite (.ite (outside_beginOp ?_) (.pure _))
    exact (inside_iput _).ending fun _ => endOp_triple _

theorem quiet_filestat : Quiet (filestat f) :=
  (Quiet.read _).bind fun _ => .ite
    ((quiet_ilock _).bind fun _ => (quiet_iunlock _).bind fun _ => .pure _) (.pure _)

end

theorem quiet_pipe : Quiet pipe :=
  quiet_ask.bind fun _ => quiet_check.bind fun _ => (Quiet.pure _).ite (.pure _)

section
variable (f : Fin NFILE)

theorem outside_advance (r : Int) : Outside (advance f r) :=
  .modify fun _ => ⟨rfl, fun hc => hc.update (hc f)⟩

theorem held_advance (r : Int) : Prog.Keeps (Held Ftable.Clean) Stopped (advance f r) :=
  .modify fun _ hs => ⟨hs.1, hs.2.update (hs.2 f)⟩

theorem outside_filewriteLoop (n turns i : ℕ) : Outside (filewriteLoop f n turns i) := by
  induction turns generalizing i with
  | zero => exact .pure _
  | succ turns ih =>
    refine .ite (outside_beginOp ?_) (.pure _)
    refine (Inside.read _).ending fun ff => (inside_ilock _).ending fun _ =>
      (inside_writei _ _ _).ending fun r => .bind (held_advance f r) fun _ => ?_
    refine (inside_iunlock _).ending fun _ => ending_endOp ?_
    exact (Outside.pure _).ite ((Outside.panic _).ite (ih _))

theorem outside_filewrite (n : ℕ) : Outside (filewrite f n) :=
  (Outside.read _).bind fun _ => (Outside.pure _).ite (quiet_pipe.outside.ite
    ((outside_filewriteLoop _ _ _ _).ite (.panic _)))

end

def Whole (s : St) : Prop := Free s ∧ s.NoHoles

theorem stopped_of_whole (e : Panic) (s : St) (hs : Whole s) : Stopped e s := .inl hs.1.1

theorem bmap_whole (ip bn n : ℕ) :
    Prog.Keeps (fun s => Whole s ∧ (s.inode ip).size = n ∧ bn * BSIZE < n) Stopped
      (bmap ip bn) := by
  constructor
  rintro s ⟨hs, hn, hlt⟩
  obtain ⟨hmap, hind⟩ := hs.2 ip bn (by rwa [hn])
  have hread : (.read (fun s : St => (s.inode ip).mapped bn) : Op Bool).result s
      = (.ok true, s) := by
    show (Except.ok ((s.inode ip).mapped bn), s) = _
    rw [hmap]
  unfold bmap
  split
  · rw [result_bind, hread]
    exact ⟨hs, hn, hlt⟩
  split
  · have hi : (.read (fun s : St => (s.inode ip).indirect) : Op Bool).result s = (.ok true, s) := by
      show (Except.ok (s.inode ip).indirect, s) = _
      rw [hind (by omega)]
    rw [result_bind, result_bind, hi]
    show Prog.Ends _ _ (Prog.result _ s)
    rw [result_bind, hread]
    exact ⟨hs, hn, hlt⟩
  · exact .inl hs.1.1

theorem readiLoop_whole (ip turns off n sz : ℕ) (h : off + n ≤ sz) :
    Prog.Keeps (fun s => Whole s ∧ (s.inode ip).size = sz) Stopped
      (readiLoop ip turns off n) := by
  induction turns generalizing off n with
  | zero => exact .pure _
  | succ turns ih =>
    refine Prog.Triple.ite (fun _ => Prog.Keeps.pure _) fun hn => ?_
    have hlt : off / BSIZE * BSIZE < sz := by
      have := Nat.div_mul_le_self off BSIZE
      omega
    refine .bind ?_ fun _ => ih _ _ (by omega)
    exact (bmap_whole ip (off / BSIZE) sz).conseq (fun s hs => ⟨hs.1, hs.2, hlt⟩)
      (fun _ _ hs => ⟨hs.1, hs.2.1⟩) fun _ _ hs => hs

theorem whole_mayPanic (e : Panic) : Prog.Keeps Whole Stopped (mayPanic e) := by
  refine .bind (.bind ⟨fun _ hs => hs⟩ fun _ => .pure _) fun _ => ?_
  exact (Prog.Keeps.panic (stopped_of_whole e)).ite (.pure _)

theorem readi_whole (ip off n : ℕ) : Triple Whole (readi ip off n) (fun _ => Free) Stopped := by
  refine .bind (R := fun _ => Whole) ⟨fun _ hs => hs⟩ fun _ =>
    Prog.Triple.ite (fun _ => ?_) fun _ => ?_
  · exact quiet_devsw.outside.pre (fun _ hs => hs.1)
  refine .bind (R := fun sz s => Whole s ∧ (s.inode ip).size = sz)
    (.read fun _ hs => ⟨hs, rfl⟩) fun sz => .ite (fun _ => ?_) fun hle => ?_
  · exact .pure fun _ hs => hs.1.1
  · refine .bind (readiLoop_whole ip _ off _ sz ?_) fun _ => .pure fun _ hs => hs.1.1
    split
    all_goals omega

theorem fileread_whole (f : Fin NFILE) (n : ℕ) :
    Triple Whole (fileread f n) (fun _ => Free) Stopped := by
  refine .bind (R := fun _ => Whole) (.read fun _ hs => hs) fun ff =>
    Prog.Triple.ite (fun _ => .pure fun _ hs => hs.1) fun _ =>
    Prog.Triple.ite (fun _ => ?_) fun _ => .ite (fun _ => ?_) fun _ => ?_
  · exact quiet_pipe.outside.pre (fun _ hs => hs.1)
  · refine .bind (whole_mayPanic _) fun _ =>
      Prog.Triple.bind (readi_whole _ _ _) fun r => ?_
    exact (outside_advance f r).bind fun _ => (quiet_iunlock _).outside.bind fun _ => .pure _
  · exact .panic fun s hs => stopped_of_whole _ s hs

end

theorem outside_withFd (fd : Int) {k : Fin NOFILE → Fin NFILE → Op Int}
    (h : ∀ d f, Outside (k d f)) : Outside (withFd fd k) := by
  refine (Outside.read _).bind fun r => ?_
  cases r with
  | none => exact .pure _
  | some x => exact h x.1 x.2

theorem outside_sysDup (fd : Int) : Outside (sysDup fd) := by
  refine outside_withFd fd fun _ f => (quiet_fdalloc f).outside.bind fun r => ?_
  cases r with
  | none => exact .pure _
  | some d => exact (outside_filedup f).bind fun _ => .pure _

theorem outside_sysWrite (fd n : Int) : Outside (sysWrite fd n) :=
  outside_withFd fd fun _ f => (Outside.pure _).ite
    (quiet_check.outside.bind fun _ => (Outside.pure _).ite (outside_filewrite f _))

theorem outside_sysClose (fd : Int) : Outside (sysClose fd) := by
  refine outside_withFd fd fun _ f => .bind ?_ fun _ => (outside_fileclose f).bind fun _ =>
    .pure _
  exact .modify fun _ => ⟨rfl, id⟩

theorem outside_sysFstat (fd : Int) : Outside (sysFstat fd) :=
  outside_withFd fd fun _ f =>
    quiet_check.outside.bind fun _ => (Outside.pure _).ite (quiet_filestat f).outside

theorem sysRead_whole (fd n : Int) : Triple Whole (sysRead fd n) (fun _ => Free) Stopped := by
  refine .bind (R := fun _ => Whole) (.read fun _ hs => hs) fun r => ?_
  cases r with
  | none => exact .pure fun _ hs => hs.1
  | some x =>
    refine .ite (fun _ => .pure fun _ hs => hs.1) fun _ => ?_
    refine .bind (R := fun _ => Whole) ⟨fun _ hs => hs⟩ fun _ =>
      Prog.Triple.ite (fun _ => .pure fun _ hs => hs.1) fun _ => fileread_whole _ _

theorem ending_endFail : Ending endFail := ending_endOp (.pure _)

theorem ending_linkBad (ip : ℕ) : Ending (linkBad ip) :=
  (inside_ilock ip).ending fun _ => inside_iupdate.ending fun _ =>
    (inside_iunlockput ip).ending fun _ => ending_endFail

theorem outside_sysLink (old new : Option Sys.Path) : Outside (sysLink old new) := by
  cases old with
  | none => exact .pure _
  | some old =>
    cases new with
    | none => exact .pure _
    | some new =>
      refine outside_beginOp ((inside_namex old false).ending fun r => ?_)
      cases r with
      | none => exact ending_endFail
      | some ip =>
        refine (inside_ilock ip).ending fun _ => inside_check.ending fun _ =>
          Ending.ite ((inside_iunlockput ip).ending fun _ => ending_endFail) ?_
        refine inside_iupdate.ending fun _ => (inside_iunlock ip).ending fun _ =>
          (inside_namex new true).ending fun r => ?_
        cases r with
        | none => exact ending_linkBad ip
        | some dp =>
          refine (inside_ilock dp).ending fun _ => (inside_dirlink dp).ending fun _ =>
            (inside_iunlockput dp).ending fun _ => (ending_linkBad ip).ite ?_
          exact (inside_iput ip).ending fun _ => ending_endOp (.pure _)

theorem ending_unlinkBad (dp : ℕ) : Ending (unlinkBad dp) :=
  (inside_iunlockput dp).ending fun _ => ending_endFail

theorem ending_unlinkEntry (dp off ip : ℕ) (isDir : Bool) :
    Ending (unlinkEntry dp off ip isDir) := by
  refine (inside_writei _ _ _).ending fun _ => (Ending.panic _).ite ?_
  refine (inside_iupdate.ite (.pure _)).ending fun _ => (inside_iunlockput dp).ending fun _ =>
    inside_iupdate.ending fun _ => (inside_iunlockput ip).ending fun _ => ending_endOp (.pure _)

theorem inside_isdirempty (dp : ℕ) : Inside (isdirempty dp) :=
  (Inside.read _).bind fun _ => (inside_scanDir _ _ _ _).bind fun _ => .pure _

theorem ending_unlinkInode (dp off ip : ℕ) : Ending (unlinkInode dp off ip) := by
  refine (quiet_mayPanic _).inside.ending fun _ => inside_check.ending fun _ =>
    Ending.ite ?_ (ending_unlinkEntry _ _ _ _)
  refine (inside_isdirempty ip).ending fun _ => (ending_unlinkEntry _ _ _ _).ite ?_
  exact (inside_iunlockput ip).ending fun _ => ending_unlinkBad dp

theorem outside_sysUnlink (path : Option Sys.Path) : Outside (sysUnlink path) := by
  cases path with
  | none => exact .pure _
  | some path =>
    refine outside_beginOp ((inside_namex path true).ending fun r => ?_)
    cases r with
    | none => exact ending_endFail
    | some dp =>
      refine (inside_ilock dp).ending fun _ => inside_check.ending fun _ =>
        (ending_unlinkBad dp).ite ((inside_dirlookup dp).ending fun r => ?_)
      cases r with
      | none => exact ending_unlinkBad dp
      | some x => exact (inside_ilock _).ending fun _ => ending_unlinkInode _ _ _

theorem inside_createDots (ip : ℕ) : Inside (createDots ip) :=
  inside_iupdate.bind fun _ => (inside_dirlink ip).bind fun _ => (Inside.panic _).ite
    ((inside_dirlink ip).bind fun _ => (Inside.panic _).ite (.pure _))

theorem inside_createNew (dp : ℕ) (type : Sys.IType) : Inside (createNew dp type) := by
  refine inside_ialloc.bind fun ip => (inside_ilock ip).bind fun _ => inside_iupdate.bind fun _ =>
    ((inside_createDots ip).ite (.pure _)).bind fun _ => (inside_dirlink dp).bind fun _ => ?_
  exact (Inside.panic _).ite ((inside_iunlockput dp).bind fun _ => .pure _)

theorem inside_create (path : Sys.Path) (type : Sys.IType) : Inside (create path type) := by
  refine (inside_namex path true).bind fun r => ?_
  cases r with
  | none => exact .pure _
  | some dp =>
    refine (inside_ilock dp).bind fun _ => (inside_dirlookup dp).bind fun r => ?_
    cases r with
    | none => exact inside_createNew dp type
    | some x =>
      exact (inside_iunlockput dp).bind fun _ => (inside_ilock _).bind fun _ =>
        inside_check.bind fun _ => (Inside.pure _).ite ((inside_iunlockput _).bind fun _ => .pure _)

theorem inside_openInode (path : Sys.Path) (omode : UInt32) : Inside (openInode path omode) := by
  refine (inside_create path .file).ite ((inside_namex path false).bind fun r => ?_)
  cases r with
  | none => exact .pure _
  | some ip =>
    exact (inside_ilock ip).bind fun _ => inside_check.bind fun _ =>
      Inside.ite ((inside_iunlockput ip).bind fun _ => .pure _) (.pure _)

theorem ending_openFail (ip : ℕ) : Ending (openFail ip) :=
  (inside_iunlockput ip).ending fun _ => ending_endFail

theorem fileclose_none (f : Fin NFILE) :
    Triple (Held fun t => t.Clean ∧ (t f).type = .none) (fileclose f)
      (fun _ => Held Ftable.Clean) Stopped := by
  refine .bind (R := fun ff s => Held Ftable.Clean s ∧ ff.type = .none)
    (.read fun _ hs => ⟨⟨hs.1, hs.2.1⟩, hs.2.2⟩) fun ff =>
    Prog.Triple.ite (fun _ => .panic fun _ hs => .inr hs.1.1) fun _ => ?_
  refine .bind (R := fun _ s => Held Ftable.Clean s ∧ ff.type = .none)
    (.modify fun _ hs => ⟨⟨hs.1.1, hs.1.2.drop⟩, hs.2⟩) fun _ =>
    Prog.Triple.ite (fun _ => .pure fun _ hs => hs.1) fun _ =>
    Prog.Triple.ite (fun hi => ⟨fun s hs => ?_⟩) fun _ => .pure fun _ hs => hs.1
  rw [hs.2] at hi
  exact absurd hi (by decide)

theorem filealloc_held :
    Triple (Held Ftable.Clean) filealloc
      (fun r => Held fun t => t.Clean ∧ ∀ f ∈ r, (t f).type = .none ∧ (t f).ref = 1) Stopped := by
  constructor
  intro s hs
  refine filealloc_ftable s _ ⟨hs.1, hs.2, nofun⟩ fun f hf => ⟨hs.1, hs.2.take, ?_⟩
  rintro g hg
  obtain rfl := Option.some.inj hg
  show (s.ftable.take f f).type = .none ∧ (s.ftable.take f f).ref = 1
  rw [Ftable.take, update_self]
  exact ⟨hs.2 f hf, rfl⟩

theorem ending_openFile (ip : ℕ) (omode : UInt32) : Ending (openFile ip omode) := by
  refine .bind filealloc_held fun r => ?_
  cases r with
  | none =>
    exact (ending_openFail ip).pre (fun _ hs => ⟨hs.1, hs.2.1⟩)
  | some f =>
    refine .bind ((quiet_fdalloc f).inside _) fun r => ?_
    cases r with
    | none =>
      refine .bind ?_ fun _ => ending_openFail ip
      exact (fileclose_none f).pre (fun _ hs => ⟨hs.1, hs.2.1, (hs.2.2 f rfl).1⟩)
    | some fd =>
      refine .bind (inside_iunlock ip _) fun _ =>
        Prog.Triple.bind (endOp_triple _) fun _ =>
        Prog.Triple.bind (.modify fun s hs => ⟨hs.1, hs.2.1.update fun h0 => ?_⟩)
          fun _ => Outside.pure _
      have h1 : (s.ftable f).ref = 1 := (hs.2.2 f rfl).2
      rw [show (openedFile (s.ftable f) ip omode).ref = (s.ftable f).ref from rfl, h1] at h0
      exact absurd h0 (by decide)

section
variable (path : Option Sys.Path)

theorem outside_sysOpen (omode : UInt32) : Outside (sysOpen path omode) := by
  cases path with
  | none => exact .pure _
  | some path =>
    refine outside_beginOp ((inside_openInode path omode).ending fun r => ?_)
    cases r with
    | none => exact ending_endFail
    | some ip => exact ending_openFile ip omode

theorem outside_makeInode (type : Sys.IType) : Outside (makeInode path type) := by
  refine outside_beginOp ?_
  cases path with
  | none => exact ending_endFail
  | some path =>
    refine (inside_create path type).ending fun r => ?_
    cases r with
    | none => exact ending_endFail
    | some ip => exact (inside_iunlockput ip).ending fun _ => ending_endOp (.pure _)

theorem outside_sysChdir : Outside (sysChdir path) := by
  refine outside_beginOp ?_
  cases path with
  | none => exact ending_endFail
  | some path =>
    refine (inside_namex path false).ending fun r => ?_
    cases r with
    | none => exact ending_endFail
    | some ip =>
      refine (inside_ilock ip).ending fun _ => inside_check.ending fun _ =>
        Ending.ite ((inside_iunlockput ip).ending fun _ => ending_endFail) ?_
      refine (inside_iunlock ip).ending fun _ => (Inside.read _).ending fun _ =>
        (inside_iput _).ending fun _ => ending_endOp (.bind ?_ fun _ => .pure _)
      exact .modify fun _ => ⟨rfl, id⟩

end

theorem quiet_vm : Quiet vm := (quiet_mayPanic _).bind fun _ => quiet_check

theorem inside_loaduvm (ip pages off n : ℕ) : Inside (loaduvm ip pages off n) := by
  induction pages generalizing off n with
  | zero => exact .pure _
  | succ pages ih =>
    exact (Inside.pure _).ite ((quiet_mayPanic _).inside.bind fun _ =>
      (inside_readi _ _ _).bind fun _ => (Inside.pure _).ite (ih _ _))

theorem inside_loadSegments (ip n off : ℕ) : Inside (loadSegments ip n off) := by
  induction n generalizing off with
  | zero => exact .pure _
  | succ n ih =>
    refine (inside_readi _ _ _).bind fun _ => (Inside.pure _).ite (inside_check.bind fun _ =>
      (ih _).ite (inside_check.bind fun _ => (Inside.pure _).ite (quiet_vm.inside.bind fun _ =>
      Inside.ite ?_ (.pure _))))
    exact quiet_ask.inside.bind fun _ => quiet_ask.inside.bind fun _ =>
      (inside_loaduvm _ _ _ _).bind fun _ => (ih _).ite (.pure _)

theorem inside_execLoad (ip : ℕ) : Inside (execLoad ip) := by
  refine (inside_readi _ _ _).bind fun _ => (Inside.pure _).ite (inside_check.bind fun _ =>
    (Inside.pure _).ite (quiet_vm.inside.bind fun _ => .ite ?_ (.pure _)))
  exact quiet_ask.inside.bind fun _ => quiet_ask.inside.bind fun _ => inside_loadSegments _ _ _

theorem quiet_pushArgs (argc : ℕ) : Quiet (pushArgs argc) := by
  induction argc with
  | zero => exact .pure _
  | succ argc ih => exact quiet_check.bind fun _ => (Quiet.pure _).ite ih

theorem quiet_execStack (argc : ℕ) : Quiet (execStack argc) :=
  quiet_vm.bind fun _ => .ite ((quiet_pushArgs argc).bind fun _ => .ite
    (quiet_vm.bind fun _ => (Quiet.pure _).ite (.pure _)) (.pure _)) (.pure _)

theorem outside_exec (path : Sys.Path) (argc : ℕ) : Outside (exec path argc) := by
  refine outside_beginOp ((inside_namex path false).ending fun r => ?_)
  cases r with
  | none => exact ending_endFail
  | some ip =>
    refine (inside_ilock ip).ending fun _ => (inside_execLoad ip).ending fun _ =>
      Ending.ite ?_ ?_
    · exact (inside_iunlockput ip).ending fun _ => ending_endOp (quiet_execStack argc).outside
    · exact (quiet_mayPanic _).inside.ending fun _ => (inside_iunlockput ip).ending fun _ =>
        ending_endFail

theorem outside_sysExec (path : Option Sys.Path) (argc : ℕ) : Outside (sysExec path argc) := by
  cases path with
  | none => exact .pure _
  | some path =>
    exact quiet_check.outside.bind fun _ => (Outside.pure _).ite (outside_exec path argc)

theorem filealloc_free (R : Ftable → Prop)
    (hR : ∀ t f, R t → (t f).ref = 0 → R (t.take f)) :
    Triple (fun s => Free s ∧ R s.ftable) filealloc
      (fun r s => Free s ∧ R s.ftable ∧ ∀ f ∈ r, (s.ftable f).ref = 1) Stopped := by
  constructor
  intro s hs
  refine filealloc_ftable s _ ⟨hs.1, hs.2, nofun⟩ fun f hf =>
    ⟨⟨hs.1.1, hs.1.2.take⟩, hR _ f hs.2 hf, ?_⟩
  rintro g hg
  obtain rfl := Option.some.inj hg
  show (s.ftable.take f f).ref = 1
  rw [Ftable.take, update_self]

theorem outside_pipealloc : Outside pipealloc := by
  refine Prog.Triple.bind ((filealloc_free (fun _ => True) fun _ _ _ _ => trivial).pre (fun _ hs =>
    ⟨hs, trivial⟩)) fun r => ?_
  cases r with
  | none => exact .pure fun _ hs => hs.1
  | some f0 =>
    have hkeep : ∀ t f, (t f0).ref = 1 → (t f).ref = 0 → ((Ftable.take t f) f0).ref = 1 := by
      intro t f h1 h0
      have hne : f0 ≠ f := by
        rintro rfl
        omega
      rwa [Ftable.take, update_of_ne hne]
    refine .bind ((filealloc_free (fun t => (t f0).ref = 1) hkeep).pre (fun _ hs => ⟨hs.1,
      hs.2.2 f0 rfl⟩)) fun r => ?_
    cases r with
    | none =>
      exact ((outside_fileclose f0).bind fun _ => .pure _).pre (fun _ hs => hs.1)
    | some f1 =>
      refine .bind (R := fun _ s => Free s ∧ (s.ftable f0).ref = 1 ∧
        (s.ftable f1).ref = 1) ⟨fun s hs => ⟨hs.1, hs.2.1, hs.2.2 f1 rfl⟩⟩ fun _ =>
        Prog.Triple.ite (fun _ => ?_) fun _ => ?_
      · exact ((outside_fileclose f0).bind fun _ => (outside_fileclose f1).bind fun _ =>
          .pure _).pre (fun _ hs => hs.1)
      · refine .bind (.modify fun s hs => ⟨hs.1.1, ?_⟩) fun _ => Outside.pure _
        refine (hs.1.2.update fun h0 => ?_).update fun h0 => ?_
        · exact absurd (hs.2.1.symm.trans h0) (by decide)
        · exact absurd (hs.2.2.symm.trans h0) (by decide)

theorem outside_pipeFail (rf wf : Fin NFILE) : Outside (pipeFail rf wf) :=
  (outside_fileclose rf).bind fun _ => (outside_fileclose wf).bind fun _ => .pure _

theorem outside_sysPipe : Outside sysPipe := by
  refine quiet_check.outside.bind fun _ => (Outside.pure _).ite (outside_pipealloc.bind fun r => ?_)
  cases r with
  | none => exact .pure _
  | some x =>
    refine (quiet_fdalloc _).outside.bind fun r => ?_
    cases r with
    | none => exact outside_pipeFail _ _
    | some fd0 =>
      refine (quiet_fdalloc _).outside.bind fun r => ?_
      cases r with
      | none =>
        refine .bind ?_ fun _ => outside_pipeFail _ _
        exact .modify fun _ => ⟨rfl, id⟩
      | some fd1 => exact .pure _

theorem outside_exitFiles (l : List (Fin NOFILE)) : Outside (exitFiles l) := by
  induction l with
  | nil => exact .pure _
  | cons fd rest ih =>
    refine (Outside.read _).bind fun r => ?_
    cases r with
    | none => exact ih
    | some f =>
      refine (outside_fileclose f).bind fun _ => .bind ?_ fun _ => ih
      exact .modify fun _ => ⟨rfl, id⟩

theorem outside_exit : Outside exit := by
  refine (quiet_mayPanic _).outside.bind fun _ => (outside_exitFiles _).bind fun _ =>
    outside_beginOp ((Inside.read _).ending fun _ => (inside_iput _).ending fun _ =>
    ending_endOp (.bind ?_ fun _ => .pure _))
  exact .modify fun _ => ⟨rfl, id⟩

theorem calls_balanced (c : Call) (s : St) (hnew : s.trace = []) (hholes : s.NoHoles)
    (hclean : s.ftable.Clean) :
    match c.body.result s with
    | (.ok _, t) => Balanced t.trace ∧ t.ftable.Clean
    | (.error _, t) => Balanced t.trace ∨ Open t.trace := by
  have hfree : Free s := by
    refine ⟨?_, hclean⟩
    rw [hnew]
    exact .nil
  suffices h : Prog.Ends (fun _ => Free) Stopped (c.body.result s) by
    rcases hr : c.body.result s with ⟨r, t⟩
    rw [hr] at h
    cases r with
    | ok a => exact h
    | error e => exact h
  cases c with
  | «open» path omode => exact (outside_sysOpen path omode).ends s hfree
  | close fd => exact (outside_sysClose fd).ends s hfree
  | read fd n => exact (sysRead_whole fd n).ends s ⟨hfree, hholes⟩
  | write fd n => exact (outside_sysWrite fd n).ends s hfree
  | link old new => exact (outside_sysLink old new).ends s hfree
  | unlink path => exact (outside_sysUnlink path).ends s hfree
  | mkdir path => exact (outside_makeInode path .dir).ends s hfree
  | mknod path => exact (outside_makeInode path .dev).ends s hfree
  | chdir path => exact (outside_sysChdir path).ends s hfree
  | exec path argc => exact (outside_sysExec path argc).ends s hfree
  | exit => exact outside_exit.ends s hfree
  | pipe => exact outside_sysPipe.ends s hfree
  | dup fd => exact (outside_sysDup fd).ends s hfree
  | fstat fd => exact (outside_sysFstat fd).ends s hfree

def start : St where
  ftable := fun f => if f = 0 then ⟨.inode, 1, true, true, 0, 2, 1024⟩
    else ⟨.none, 0, false, false, 0, 0, 0⟩
  ofile := fun fd => if fd = 0 then some 0 else none
  cwd := ROOTINO
  inode := fun ip => ⟨if ip = 2 then 3 * BSIZE else 0, fun bn => decide (bn < 3), false⟩
  answer := fun _ => 0
  asked := 0
  trace := []

theorem calls_balanced_start :
    match (Call.write 0 600).body.result start with
    | (.ok _, t) => Balanced t.trace ∧ t.ftable.Clean
    | (.error _, t) => Balanced t.trace ∨ Open t.trace := by
  have hclean : ∀ f, (start.ftable f).ref = 0 → (start.ftable f).type = .none := by decide
  refine calls_balanced (.write 0 600) start rfl ?_ hclean
  intro ip bn h
  have hb : bn < 3 := by
    simp only [start, BSIZE] at h
    split at h
    all_goals omega
  refine ⟨decide_eq_true hb, fun hd => ?_⟩
  simp only [NDIRECT] at hd
  omega

example : ((Call.write 0 600).body.result start).2.trace =
    [.beginOp, .logWrite, .logWrite, .logWrite, .logWrite, .logWrite, .endOp] := by
  decide +kernel

end Xv6.Trans
