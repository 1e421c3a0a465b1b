import Xv6.Calls.Kernel
import Xv6.Fs.Content
import Xv6.Mkfs.Image

open Function

namespace Xv6.Files.Ftable

variable {t : Ftable} {f g : Fin NFILE}

theorem take_self (t : Ftable) (f : Fin NFILE) : t.take f f = { t f with ref := 1 } :=
  update_self ..

theorem take_of_ne (t : Ftable) (h : g ≠ f) : t.take f g = t g := update_of_ne h ..

theorem drop_last (h : (t f).ref = 1) :
    t.drop f = update t f { t f with ref := 0, type := .none } := by
  rw [drop, if_neg (by omega)]

theorem drop_take (h : t.Clean) (hf : (t f).ref = 0) : (t.take f).drop f = t := by
  have hself := take_self t f
  have hfile : { t f with ref := 0, type := .none } = t f := by
    rw [← hf, ← h f hf]
  rw [drop_last (by rw [hself]), hself, take, update_idem]
  exact (congrArg (update t f) hfile).trans (update_eq_self ..)

theorem take_take_comm (t : Ftable) (h : f ≠ g) : (t.take f).take g = (t.take g).take f := by
  rw [take, take_of_ne t h.symm, take, update_comm h, take.eq_1 (t.take g), take_of_ne t h]
  rfl

end Xv6.Files.Ftable

namespace Xv6.Calls

open Lib Files

structure Unchanged (k k' : Kernel) : Prop where
  fs : k'.fs = k.fs
  cwd : k'.cwd = k.cwd
  ofile : k'.ofile = k.ofile
  ref : ∀ f, (k'.file f).ref = (k.file f).ref
  type : ∀ f, (k'.file f).type = (k.file f).type
  free : k'.free = k.free

structure NewPipe (k : Kernel) (fd0 fd1 : Fin NOFILE) (k' : Kernel) : Prop where
  fs : k'.fs = k.fs
  cwd : k'.cwd = k.cwd
  empty : k.ofile fd0 = none ∧ k.ofile fd1 = none ∧ fd0 ≠ fd1
  ends : ∃ rf wf p, rf ≠ wf ∧ (k.file rf).ref = 0 ∧ (k.file wf).ref = 0 ∧
    k.free = p :: k'.free ∧ k'.pipe = update k.pipe p .new ∧
    k'.ofile = update (update k.ofile fd0 (some rf)) fd1 (some wf) ∧
    k'.file = update (update k.file rf (readEnd { k.file rf with ref := 1 } p))
      wf (writeEnd { k.file wf with ref := 1 } p)

def Kernel.withPipe (k : Kernel) (rf wf : Fin NFILE) (p : ℕ) : Kernel :=
  { k with
    file := update (update k.file rf (readEnd { k.file rf with ref := 1 } p))
      wf (writeEnd { k.file wf with ref := 1 } p)
    pipe := update k.pipe p .new
    free := k.free.tail }

section
variable (sb : Fs.Super) {k : Kernel} {f rf wf : Fin NFILE} {p : ℕ}

theorem filealloc_none (h : k.file.unused = none) : filealloc.result k = (.ok none, k) := by
  rw [filealloc, result_read_bind, h]
  rfl

theorem filealloc_some (h : k.file.unused = some f) :
    filealloc.result k = (.ok (some f), { k with file := k.file.take f }) := by
  rw [filealloc, result_read_bind, h]
  rfl

theorem fdalloc_none (h : k.ofile.spare = none) : (fdalloc f).result k = (.ok none, k) := by
  rw [fdalloc, result_read_bind, h]
  rfl

theorem fdalloc_some {fd : Fin NOFILE} (h : k.ofile.spare = some fd) :
    (fdalloc f).result k =
      (.ok (some fd), { k with ofile := update k.ofile fd (some f) }) := by
  rw [fdalloc, result_read_bind, h]
  rfl

theorem spare_some {o : Ofile} {fd : Fin NOFILE} (h : o.spare = some fd) : o fd = none :=
  Option.isNone_iff_eq_none.1 (List.find?_some (p := fun fd => (o fd).isNone) h)

theorem fileclose_none {x : File} (h : k.file f = x) (hx : x.ref = 1) (ht : x.type = .none) :
    (fileclose sb f).result k = (.ok (), { k with file := k.file.drop f }) := by
  rw [fileclose, result_read_bind, h, if_neg (by omega), Prog.result_modify_bind,
    if_neg (by omega), if_neg (by rw [ht]; decide), if_neg (by rw [ht]; decide)]
  rfl

theorem fileclose_pipe (h : (k.file f).ref = 1) (ht : (k.file f).type = .pipe) :
    (fileclose sb f).result k =
      (pipeclose (k.file f).pipe (k.file f).writable).result { k with file := k.file.drop f } := by
  rw [fileclose, result_read_bind, if_neg (by omega), Prog.result_modify_bind,
    if_neg (by omega), if_pos ht]

theorem pipeclose_read (h : (k.pipe p).writeopen = true) :
    (pipeclose p false).result k =
      (.ok (), k.setPipe p { k.pipe p with readopen := false }) := by
  have hself : (k.setPipe p { k.pipe p with readopen := false }).pipe p =
      { k.pipe p with readopen := false } := update_self ..
  rw [pipeclose, Prog.result_modify_bind, if_neg Bool.false_ne_true, result_read_bind, hself,
    if_neg fun hboth => Bool.noConfusion (h.symm.trans hboth.2)]
  rfl

theorem pipeclose_write (h : (k.pipe p).readopen = false) :
    (pipeclose p true).result k =
      (.ok (), { k.setPipe p { k.pipe p with writeopen := false } with free := p :: k.free }) := by
  have hself : (k.setPipe p { k.pipe p with writeopen := false }).pipe p =
      { k.pipe p with writeopen := false } := update_self ..
  rw [pipeclose, Prog.result_modify_bind, if_pos rfl, result_read_bind, hself, if_pos ⟨h, rfl⟩]
  rfl

theorem files_withPipe (t : Ftable) (p : ℕ) (hne : rf ≠ wf) :
    update (update ((t.take rf).take wf) rf
        (readEnd ((t.take rf).take wf rf) p)) wf
        (writeEnd (update ((t.take rf).take wf) rf
          (readEnd ((t.take rf).take wf rf) p) wf) p) =
      update (update t rf (readEnd { t rf with ref := 1 } p)) wf
        (writeEnd { t wf with ref := 1 } p) := by
  rw [update_of_ne hne.symm, Ftable.take_self, Ftable.take_of_ne _ hne,
    Ftable.take_of_ne _ hne.symm, Ftable.take_self]
  funext g
  by_cases hgw : g = wf
  · rw [hgw, update_self, update_self]
  rw [update_of_ne hgw, update_of_ne hgw]
  by_cases hgr : g = rf
  · rw [hgr, update_self, update_self]
  · rw [update_of_ne hgr, update_of_ne hgr, Ftable.take_of_ne _ hgw, Ftable.take_of_ne _ hgr]

theorem pipealloc_cases (hclean : k.file.Clean) :
    (pipealloc sb).result k = (.ok none, k) ∨
      ∃ rf wf p, (pipealloc sb).result k = (.ok (some (rf, wf)), k.withPipe rf wf p) ∧
        rf ≠ wf ∧ (k.file rf).ref = 0 ∧ (k.file wf).ref = 0 ∧ k.free.head? = some p := by
  unfold pipealloc
  rcases h0 : k.file.unused with _ | rf
  · exact .inl (result_bind_ok (filealloc_none h0))
  rw [result_bind_ok (filealloc_some h0)]
  have href := Ftable.unused_some h0
  have hself := Ftable.take_self k.file rf
  rcases h1 : (k.file.take rf).unused with _ | wf
  · refine .inl ?_
    have h₁ := fileclose_none sb (k := { k with file := k.file.take rf }) hself rfl (hclean rf href)
    rw [Ftable.drop_take hclean href] at h₁
    exact (result_bind_ok (filealloc_none h1)).trans (result_bind_ok h₁)
  rw [result_bind_ok (filealloc_some h1)]
  have hwf' := Ftable.unused_some h1
  have hne : rf ≠ wf := by
    rintro rfl
    rw [hself] at hwf'
    exact Nat.one_ne_zero hwf'
  have hwf : (k.file wf).ref = 0 := by rwa [Ftable.take_of_ne _ hne.symm] at hwf'
  rcases h2 : k.free.head? with _ | p
  · -- both files are given back, in the order in which they were taken
    have hkalloc : kalloc.result { k with file := (k.file.take rf).take wf } =
        (.ok none, { k with file := (k.file.take rf).take wf }) := by
      show (Except.ok k.free.head?, { k with
        file := (k.file.take rf).take wf, free := k.free.tail }) = _
      rw [h2, List.head?_eq_none_iff.1 h2]
      rfl
    have hdrop : ((k.file.take rf).take wf).drop rf = k.file.take wf := by
      rw [Ftable.take_take_comm _ hne]
      exact Ftable.drop_take hclean.take (by rw [Ftable.take_of_ne _ hne]; exact href)
    have h₁ := fileclose_none sb (k := { k with file := (k.file.take rf).take wf })
      ((Ftable.take_of_ne _ hne).trans hself) rfl (hclean rf href)
    have h₂ := fileclose_none sb (k := { k with file := k.file.take wf })
      (Ftable.take_self k.file wf) rfl (hclean wf hwf)
    rw [hdrop] at h₁
    rw [Ftable.drop_take hclean hwf] at h₂
    exact .inl (((result_bind_ok hkalloc).trans (result_bind_ok h₁)).trans (result_bind_ok h₂))
  · have hkalloc : kalloc.result { k with file := (k.file.take rf).take wf } =
        (.ok (some p), { k with file := (k.file.take rf).take wf, free := k.free.tail }) := by
      show (Except.ok k.free.head?, _) = _
      rw [h2]
    refine .inr ⟨rf, wf, p, (result_bind_ok hkalloc).trans ?_, hne, href, hwf, rfl⟩
    show (Except.ok (some (rf, wf)), { k with
      file := update (update ((k.file.take rf).take wf) rf _) wf _
      pipe := _, free := _ }) = _
    rw [Kernel.withPipe, ← files_withPipe k.file p hne]
    rfl

theorem withPipe_read (hne : rf ≠ wf) :
    (k.withPipe rf wf p).file rf = readEnd { k.file rf with ref := 1 } p :=
  (update_of_ne hne ..).trans (update_self ..)

theorem withPipe_write (rf wf : Fin NFILE) :
    (k.withPipe rf wf p).file wf = writeEnd { k.file wf with ref := 1 } p :=
  update_self ..

theorem withPipe_of_ne (hr : f ≠ rf) (hw : f ≠ wf) : (k.withPipe rf wf p).file f = k.file f :=
  (update_of_ne hw ..).trans (update_of_ne hr ..)

theorem drop_withPipe (hne : rf ≠ wf) (hrf : (k.file rf).ref = 0) (hwf : (k.file wf).ref = 0)
    (hclean : k.file.Clean) (g : Fin NFILE) :
    (((k.withPipe rf wf p).file.drop rf).drop wf g).ref = (k.file g).ref ∧
      (((k.withPipe rf wf p).file.drop rf).drop wf g).type = (k.file g).type := by
  have hr := withPipe_read (k := k) (p := p) hne
  have hw := withPipe_write (k := k) (p := p) rf wf
  rw [Ftable.drop_last (t := (k.withPipe rf wf p).file) (by rw [hr]; rfl),
    Ftable.drop_last (by rw [update_of_ne hne.symm, hw]; rfl)]
  by_cases hgw : g = wf
  · rw [hgw, update_self]
    exact ⟨hwf.symm, (hclean wf hwf).symm⟩
  rw [update_of_ne hgw]
  by_cases hgr : g = rf
  · rw [hgr, update_self]
    exact ⟨hrf.symm, (hclean rf hrf).symm⟩
  · rw [update_of_ne hgr, withPipe_of_ne hgr hgw]
    exact ⟨rfl, rfl⟩

theorem close_ends (hne : rf ≠ wf) {x y : File} (hr : k.file rf = readEnd x p) (hx : x.ref = 1)
    (hw : k.file wf = writeEnd y p) (hy : y.ref = 1) (hp : k.pipe p = .new) :
    ∃ k', (do
        fileclose sb rf
        fileclose sb wf
        pure none : Op (Option (Fin NOFILE × Fin NOFILE))).result k = (.ok none, k') ∧
      k'.fs = k.fs ∧ k'.cwd = k.cwd ∧ k'.ofile = k.ofile ∧
      k'.file = (k.file.drop rf).drop wf ∧ k'.free = p :: k.free := by
  have h1 := fileclose_pipe sb (k := k) (f := rf) (by rw [hr]; exact hx) (by rw [hr]; rfl)
  have hopen : (Kernel.pipe { k with file := k.file.drop rf } p).writeopen = true :=
    congrArg Pipe.writeopen hp
  rw [hr, show (readEnd x p).pipe = p from rfl, show (readEnd x p).writable = false from rfl,
    pipeclose_read hopen] at h1
  obtain ⟨k1, hk1⟩ : ∃ k1, k1 = Kernel.setPipe { k with file := k.file.drop rf } p
      { k.pipe p with readopen := false } := ⟨_, rfl⟩
  rw [← hk1] at h1
  have hw1 : k1.file wf = writeEnd y p := by
    rw [hk1]
    show k.file.drop rf wf = _
    rw [Ftable.drop_last (by rw [hr]; exact hx), update_of_ne hne.symm, hw]
  have hclosed : (Kernel.pipe { k1 with file := k1.file.drop wf } p).readopen = false := by
    have hself : k1.pipe p = { k.pipe p with readopen := false } := by
      rw [hk1]
      exact update_self ..
    exact congrArg Pipe.readopen hself
  have h2 := fileclose_pipe sb (k := k1) (f := wf) (by rw [hw1]; exact hy) (by rw [hw1]; rfl)
  rw [hw1, show (writeEnd y p).pipe = p from rfl, show (writeEnd y p).writable = true from rfl,
    pipeclose_write hclosed] at h2
  refine ⟨_, (result_bind_ok h1).trans (result_bind_ok h2), ?_⟩
  rw [hk1]
  exact ⟨rfl, rfl, rfl, rfl, rfl⟩

theorem undo_pipealloc (hne : rf ≠ wf) (hrf : (k.file rf).ref = 0) (hwf : (k.file wf).ref = 0)
    (hclean : k.file.Clean) (hp : k.free.head? = some p) (k1 : Kernel) (hfs : k1.fs = k.fs)
    (hcwd : k1.cwd = k.cwd) (hofile : k1.ofile = k.ofile)
    (hfile : k1.file = (k.withPipe rf wf p).file) (hpipe : k1.pipe p = .new)
    (hfree : k1.free = k.free.tail) :
    ∃ k', (do
        fileclose sb rf
        fileclose sb wf
        pure none : Op (Option (Fin NOFILE × Fin NOFILE))).result k1 = (.ok none, k') ∧
      Unchanged k k' := by
  obtain ⟨k', hres, h1, h2, h3, h4, h5⟩ := close_ends sb (k := k1) hne
    (by rw [hfile]; exact withPipe_read hne) rfl (by rw [hfile]; exact withPipe_write rf wf) rfl
    hpipe
  rw [hfile] at h4
  refine ⟨k', hres, h1.trans hfs, h2.trans hcwd, h3.trans hofile, fun g => ?_, fun g => ?_, ?_⟩
  · rw [h4]
    exact (drop_withPipe hne hrf hwf hclean g).1
  · rw [h4]
    exact (drop_withPipe hne hrf hwf hclean g).2
  · rw [h5, hfree]
    exact List.cons_head?_tail hp

theorem Unchanged.clean {k' : Kernel} (h : Unchanged k k') (hclean : k.file.Clean) :
    k'.file.Clean := by
  intro f hf
  rw [h.type f]
  exact hclean f ((h.ref f).symm.trans hf)

theorem NewPipe.clean {k' : Kernel} {fd0 fd1 : Fin NOFILE} (h : NewPipe k fd0 fd1 k')
    (hclean : k.file.Clean) : k'.file.Clean := by
  obtain ⟨rf, wf, p, -, -, -, -, -, -, hfile⟩ := h.ends
  rw [hfile]
  exact (hclean.update fun h0 => absurd h0 Nat.one_ne_zero).update
    fun h0 => absurd h0 Nat.one_ne_zero

end

theorem sysPipe_all_or_nothing (sb : Fs.Super) (k : Kernel) (hclean : k.file.Clean) (arg : Bool) :
    ∃ r k', (sysPipe sb arg).result k = (.ok r, k') ∧ k'.file.Clean ∧
      (r = none → Unchanged k k') ∧ ∀ fd0 fd1, r = some (fd0, fd1) → NewPipe k fd0 fd1 k' := by
  have hsame : Unchanged k k := ⟨rfl, rfl, rfl, fun _ => rfl, fun _ => rfl, rfl⟩
  have hfail : ∀ k', Unchanged k k' → k'.file.Clean ∧ ((none : Option (Fin NOFILE × Fin NOFILE)) =
      none → Unchanged k k') ∧ ∀ fd0 fd1, none = some (fd0, fd1) → NewPipe k fd0 fd1 k' :=
    fun k' h => ⟨h.clean hclean, fun _ => h, fun _ _ hr => absurd hr (Option.some_ne_none _).symm⟩
  unfold sysPipe
  cases arg with
  | false => exact ⟨none, k, rfl, hfail k hsame⟩
  | true =>
    rw [if_neg (show true ≠ false by decide)]
    rcases pipealloc_cases sb hclean with hnone | ⟨rf, wf, p, hsome, hne, hrf, hwf, hp⟩
    · exact ⟨none, k, Prog.result_bind_ok hnone, hfail k hsame⟩
    have hfree : p :: k.free.tail = k.free := List.cons_head?_tail hp
    rcases h0 : k.ofile.spare with _ | fd0
    · obtain ⟨k', hres, hk'⟩ := undo_pipealloc sb hne hrf hwf hclean hp (k.withPipe rf wf p)
        rfl rfl rfl rfl (update_self ..) rfl
      have hf0 := fdalloc_none (k := k.withPipe rf wf p) (f := rf) h0
      exact ⟨none, k', ((Prog.result_bind_ok hsome).trans (Prog.result_bind_ok hf0)).trans hres,
        hfail k' hk'⟩
    have hf0 := fdalloc_some (k := k.withPipe rf wf p) (f := rf) h0
    have hfd0 := spare_some h0
    rcases h1 : Ofile.spare (update k.ofile fd0 (some rf)) with _ | fd1
    · -- the first descriptor is given back
      obtain ⟨k', hres, hk'⟩ := undo_pipealloc sb hne hrf hwf hclean hp
        { k.withPipe rf wf p with
          ofile := update (update k.ofile fd0 (some rf)) fd0 none }
        rfl rfl (by rw [update_idem, ← hfd0, update_eq_self]) rfl
        (update_self ..) rfl
      have hf1 := fdalloc_none (f := wf) (k := { k.withPipe rf wf p with
        ofile := update k.ofile fd0 (some rf) }) h1
      exact ⟨none, k', (((Prog.result_bind_ok hsome).trans (Prog.result_bind_ok hf0)).trans
        (Prog.result_bind_ok hf1)).trans hres, hfail k' hk'⟩
    · have hfd1 := spare_some h1
      have hfd : fd0 ≠ fd1 := by
        rintro rfl
        rw [update_self] at hfd1
        exact absurd hfd1 (Option.some_ne_none _)
      rw [update_of_ne hfd.symm] at hfd1
      have hnew : NewPipe k fd0 fd1 { k.withPipe rf wf p with
          ofile := update (update k.ofile fd0 (some rf)) fd1 (some wf) } :=
        ⟨rfl, rfl, ⟨hfd0, hfd1, hfd⟩, rf, wf, p, hne, hrf, hwf, hfree.symm, rfl, rfl, rfl⟩
      refine ⟨some (fd0, fd1), _, ?_, hnew.clean hclean,
        fun hr => absurd hr (Option.some_ne_none _), fun a b hr => ?_⟩
      · have hf1 := fdalloc_some (f := wf) (k := { k.withPipe rf wf p with
          ofile := update k.ofile fd0 (some rf) }) h1
        exact ((Prog.result_bind_ok hsome).trans (Prog.result_bind_ok hf0)).trans
          (Prog.result_bind_ok hf1)
      · obtain ⟨rfl, rfl⟩ := Prod.mk.inj (Option.some.inj hr)
        exact hnew

def idle : Kernel :=
  ⟨.boot fun _ => zeros, fun _ => ⟨.none, 0, false, false, 0, 0, 0⟩, fun _ => none, ROOTINO,
    fun _ => ⟨0, 0, false, false⟩, [0]⟩

theorem sysPipe_all_or_nothing_idle :
    idle.file.Clean ∧ ∃ k', (sysPipe Mkfs.sb true).result idle = (.ok (some (0, 1)), k') ∧
      NewPipe idle 0 1 k' := by
  have hclean : idle.file.Clean := fun _ _ => rfl
  obtain ⟨r, k', hres, -, -, hnew⟩ := sysPipe_all_or_nothing Mkfs.sb idle hclean true
  have hr : ((sysPipe Mkfs.sb true).result idle).1 = .ok (some (0, 1)) := by decide +kernel
  rw [hres] at hr
  obtain rfl : r = some (0, 1) := Except.ok.inj hr
  exact ⟨hclean, k', hres, hnew 0 1 rfl⟩

end Xv6.Calls
