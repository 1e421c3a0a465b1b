import Xv6.Sys.Locks

namespace Xv6.Sys

open Lib

variable {P : Type} [Fintype P] [DecidableEq P] {α β : Type} {depth : ℕ → ℕ} {p : P}
  {last : Option ℕ} {c : Claims} {H : List ℕ} {s0 s s' : Fs P} {sb : Super}

section

omit [Fintype P] [DecidableEq P]

def Fs.fileClaims (s : Fs P) (p : P) : Claims :=
  ⟨fun _ => 0, fun _ => 0, fun f => ∑ fd, if s.ofile p fd = some f then 1 else 0, none⟩

def Fs.claims (s : Fs P) (p : P) : Claims :=
  if s.cwd p = 0 then s.fileClaims p else (s.fileClaims p).take (s.cwd p)

theorem Fs.fileClaims_congr (h : s'.ofile p = s.ofile p) : s'.fileClaims p = s.fileClaims p := by
  simp only [Fs.fileClaims, h]

theorem Fs.claims_congr (h : s'.ofile p = s.ofile p) (hc : s'.cwd p = s.cwd p) :
    s'.claims p = s.claims p := by
  simp only [Fs.claims, Fs.fileClaims_congr h, hc]

theorem Rely.claims (h : Rely p c H s s') : s'.claims p = s.claims p :=
  Fs.claims_congr h.ofile h.cwd

theorem Fs.claims_fresh (s : Fs P) (p : P) : (s.claims p).fresh = none := by
  unfold Fs.claims
  split <;> rfl

theorem Fs.claims_cwd (h : s.cwd p ≠ 0) : s.claims p = (s.fileClaims p).take (s.cwd p) := by
  simp [Fs.claims, h]

theorem Fs.claims_held_cwd (h : s.cwd p ≠ 0) : 0 < (s.claims p).held (s.cwd p) := by
  simp [Fs.claims_cwd h]

theorem Rely.held_cwd (hr : Rely p c H s0 s) (h : s0.cwd p ≠ 0) :
    0 < (s0.claims p).held (s.cwd p) := by
  rw [hr.cwd]
  exact Fs.claims_held_cwd h

def Over (p : P) (_ : Int) (c : Claims) (H : List ℕ) (s : Fs P) : Prop :=
  H = [] ∧ c = s.claims p

theorem over_of_rely {r : Int} (hr : Rely p (s.claims p) [] s s') :
    Over p r (s.claims p) [] s' := ⟨rfl, hr.claims.symm⟩

theorem Fs.addLink_sameTree (s : Fs P) (i : ℕ) (d : Int16) : s.SameTree (s.addLink i d) :=
  Fs.setInode_sameTree rfl rfl

theorem Fs.initInode_sameTree (s : Fs P) (i : ℕ) (major minor : Int16) :
    s.SameTree (s.initInode i major minor) :=
  Fs.setInode_sameTree rfl rfl

theorem erase_second {i j : ℕ} (h : i ≠ j) : [i, j].erase j = [i] := by simp [h]

theorem Fs.Good.inOrder (h : s.Good depth) {dp n : ℕ} {name : Name}
    (hdir : (s.inode dp).type = .dir) (hslot : s.slot dp name = some n) (h1 : name ≠ dot)
    (h2 : name ≠ dotdot) : InOrder depth [dp] (s.entry dp n).inum s := by
  intro j hj
  obtain rfl := List.mem_singleton.1 hj
  obtain ⟨hmem, hz, rfl⟩ := Fs.slot_eq_some hslot
  exact ⟨hdir, h.order j hdir _ hmem hz h1 h2⟩

end

section
variable {Q : α → Claims → List ℕ → Fs P → Prop} {k : Unit → Op P α}

theorem keeps_addLink {i : ℕ} {d : Int16}
    (h : ∀ s', Rely p c H s s' → Keeps depth p Q (k ()) none c H s') :
    Keeps depth p Q (Prog.modify (·.addLink i d) >>= k) last c H s :=
  keeps_still (fun s => s.addLink_sameTree i d) (fun _ => rfl) (fun _ => rfl) (fun _ => rfl)
    (fun _ => rfl) h

end

section
variable (hr : Rely p (s0.claims p) [] s0 s)
include hr

variable {r : Int}

theorem keeps_over : Keeps depth p (Over p) (pure r) last (s0.claims p) [] s :=
  keeps_pure fun _ hr1 _ => over_of_rely (hr.trans hr1)

theorem keeps_done : Keeps depth p (Over p) (endOp >>= fun _ => pure r) last (s0.claims p) [] s :=
  keeps_endOp fun _ hr1 => keeps_over (hr.trans hr1)

theorem keeps_putDone {ip : ℕ} :
    Keeps depth p (Over p) (iunlockput .iput ip >>= fun _ => endOp >>= fun _ => pure r) last
      ((s0.claims p).take ip) [ip] s :=
  keeps_bind <| keeps_iunlockput_last (s0.claims_fresh p) fun _ hr1 _ _ =>
    keeps_done (hr.trans hr1)

end

section

theorem keeps_linkBad {ip : ℕ} (hr : Rely p (s0.claims p) [] s0 s) :
    Keeps depth p (Over p) (linkBad ip) last ((s0.claims p).take ip) [] s :=
  keeps_bind <| keeps_ilock_first fun _ _ hr1 _ _ => keeps_addLink fun _ hr2 =>
    keeps_putDone (hr.trans (hr1.of_take.trans hr2.of_take.of_cons))

theorem keeps_linkEnter {new : Path} {ip : ℕ} (hcwd : s0.cwd p ≠ 0) (hip : (s.inode ip).type ≠ .dir)
    (hname : ∀ name, (elems new).getLast? = some name → name ≠ dot ∧ name ≠ dotdot)
    (hr : Rely p (s0.claims p) [] s0 s) :
    Keeps depth p (Over p) (linkEnter sb p new ip) last ((s0.claims p).take ip) [] s := by
  have hfresh := s0.claims_fresh p
  have hcwd := hr.held_cwd hcwd
  have hheld : ∀ j, 0 < (((s0.claims p).take ip).take j).held ip := fun j => by simp
  refine keeps_bind (keeps_namex hfresh (by simp; omega)
    (fun s1 hr1 _ last => keeps_linkBad (hr.trans hr1.of_take))
    fun dp name s1 hr1 _ hdp last => ?_)
  obtain ⟨hdir, hlast⟩ := hdp rfl
  obtain ⟨hdot, hdotdot⟩ := hname name hlast
  have hfree : (((s0.claims p).take ip).take dp).fresh = none := hfresh
  have hend : ∀ {r : Int} {s3 last}, Rely p ((s0.claims p).take ip) [] s s3 →
      Keeps depth p (Over p) (iunlockput .iput dp >>= fun _ => if r < 0 then linkBad ip else do
        iput .iput ip
        endOp
        pure 0) last (((s0.claims p).take ip).take dp) [dp] s3 := by
    intro r s3 last hr3
    refine keeps_bind (keeps_iunlockput_last hfresh fun s4 hr4 _ last => ?_)
    have hr4 := hr.trans (hr3.trans hr4).of_take
    split
    · exact keeps_linkBad hr4
    · exact keeps_bind (keeps_iput_last hfresh fun s5 hr5 _ last => keeps_done (hr4.trans hr5))
  refine keeps_bind (keeps_ilock_first fun _ s2 hr2 _ last => ?_)
  have hr2 := hr1.trans hr2.of_take
  refine keeps_bind (keeps_dirlink (by simp) (List.mem_singleton_self dp) (hheld dp)
    (fun s' hr' _ => .inr (.inr fun hi => absurd ?_ hip))
    (fun n s' _ hk hdir hslot => hk.good.inOrder hdir hslot hdot hdotdot)
    (fun s' hr' _ last => hend (hr2.trans hr'.of_take.of_cons)) fun s3 s4 hr3 _ _ hr4 _ last => ?_)
  · rw [← ((hr2.trans hr'.of_take.of_cons).kept ip (.inl (by simp))).1]
    exact hi
  · rw [Claims.known_eq hfree] at hr4 ⊢
    exact hend (hr2.trans (hr3.of_take.of_cons.trans
      ((Rely.writeEntry List.not_mem_nil (by simp [hfresh])).trans hr4.of_take.of_cons)))

theorem keeps_sysLink {old new : Option Path} (hcwd : s.cwd p ≠ 0)
    (hname : ∀ path, new = some path → ∀ name, (elems path).getLast? = some name →
      name ≠ dot ∧ name ≠ dotdot) :
    Keeps depth p (Over p) (sysLink sb p old new) last (s.claims p) [] s := by
  unfold sysLink
  split
  · rename_i old new
    refine keeps_beginOp fun s1 hr1 => keeps_bind (keeps_namei (s.claims_fresh p)
      (hr1.held_cwd hcwd) (fun s2 hr2 _ last => keeps_done (hr1.trans hr2))
      fun ip s2 hr2 _ last => ?_)
    refine keeps_bind (keeps_ilock_first fun _ s3 hr3 _ last => keeps_read fun s4 hr4 _ => ?_)
    have hr4 := hr1.trans (hr2.trans (hr3.of_take.trans hr4.of_take.of_cons))
    split
    · exact keeps_putDone hr4
    rename_i hdir
    refine keeps_addLink fun s5 hr5 => keeps_bind (keeps_iunlock_last fun s6 hr6 _ last => ?_)
    have hkept := (hr5.of_cons.trans hr6).kept ip (.inl (by simp))
    exact keeps_linkEnter hcwd (by rwa [hkept.1]) (hname new rfl)
      (hr4.trans (hr5.of_cons.trans hr6).of_take)
  · exact keeps_over (.refl ..)

end

section

theorem keeps_unlinkEntry {dp n ip : ℕ} (hne : ip ≠ dp) (hr : Rely p (s0.claims p) [] s0 s) :
    Keeps depth p (Over p) (unlinkEntry dp n ip) last (((s0.claims p).take dp).take ip) [ip, dp]
      s := by
  have hfresh := s0.claims_fresh p
  have hfree : (((s0.claims p).take dp).take ip).fresh = none := hfresh
  refine keeps_modify _ (fun s' _ hk _ => hk.writeEntry (by simp) (by simp)
    fun h => absurd rfl h) fun s1 hr1 _ => ?_
  rw [Claims.known_eq hfree]
  have hr1 : Rely p (s0.claims p) [] s0 (s1.writeEntry dp n .empty) :=
    hr.trans (hr1.of_take.of_take.of_cons.of_cons.trans
      (.writeEntry List.not_mem_nil (by simp [hfresh])))
  refine keeps_still (fun s => ?_) (fun s => ?_) (fun s => ?_) (fun s => ?_) (fun s => ?_)
    fun s2 hr2 => ?_
  · split
    · exact s.addLink_sameTree dp (-1)
    · exact ⟨fun _ => rfl, fun _ => rfl, rfl⟩
  · split <;> rfl
  · split <;> rfl
  · split <;> rfl
  · split <;> rfl
  have hr2 := hr1.trans hr2.of_take.of_take.of_cons.of_cons
  rw [Claims.take_comm]
  refine keeps_bind (keeps_iunlockput (by simp) (erase_second hne) (fun h => absurd rfl h)
    (by simp [hfresh]) fun s3 hr3 _ last => keeps_addLink fun s4 hr4 => ?_)
  exact keeps_putDone (hr2.trans (hr3.trans hr4).of_take.of_cons)

theorem keeps_unlinkName {dp : ℕ} {name : Name} (hr : Rely p (s0.claims p) [] s0 s) :
    Keeps depth p (Over p) (unlinkName sb dp name) last ((s0.claims p).take dp) [dp] s := by
  have hfresh := s0.claims_fresh p
  unfold unlinkName
  split
  · exact keeps_putDone hr
  rename_i hname
  rw [not_or] at hname
  refine keeps_bind (keeps_dirlookup (by simp) (List.mem_singleton_self dp)
    (fun s1 hr1 _ _ _ last => keeps_putDone (hr.trans hr1.of_take.of_cons))
    fun n s1 hr1 _ hdir hslot last => ?_)
  have hr1 := hr.trans hr1.of_take.of_cons
  generalize hip : (s1.entry dp n).inum = ip
  have ho : ∀ {s'}, Rely p (((s0.claims p).take dp).take ip) [dp] s1 s' →
      Knows depth (((s0.claims p).take dp).take ip) s' → InOrder depth [dp] ip s' := by
    intro s' hr hk
    have he := hr.entries dp (.inl ⟨by simp, List.mem_singleton_self dp⟩)
    have := hk.good.inOrder ((hr.kept dp (.inl (by simp))).1.trans hdir)
      ((Fs.slot_congr he name).trans hslot) hname.1 hname.2
    rwa [Fs.entry_congr he, hip] at this
  refine keeps_bind (keeps_ilock (fun s' hr hk => ho hr hk) fun hne s2 hr2 _ last =>
    keeps_read fun s3 hr3 _ => ?_)
  have hr3 := hr2.trans hr3.of_cons
  have hframe := hr1.trans hr3.of_take.of_take.of_cons
  split
  · exact keeps_panic (by decide)
  split
  · refine keeps_bind (keeps_iunlockput List.mem_cons_self (List.erase_cons_head ..)
      (fun _ s' hr hk => ho (hr3.trans hr) hk) (by simp [hfresh]) fun s4 hr4 _ last => ?_)
    exact keeps_putDone (hframe.trans hr4.of_take.of_cons)
  · exact keeps_unlinkEntry (by simpa using hne.2) hframe

theorem keeps_sysUnlink {path : Option Path} (hcwd : s.cwd p ≠ 0) :
    Keeps depth p (Over p) (sysUnlink sb p path) last (s.claims p) [] s := by
  unfold sysUnlink
  split
  · exact keeps_over (.refl ..)
  refine keeps_beginOp fun s1 hr1 => keeps_bind (keeps_namex (s.claims_fresh p)
    (hr1.held_cwd hcwd) (fun s2 hr2 _ last => keeps_done (hr1.trans hr2))
    fun dp name s2 hr2 _ _ last => ?_)
  refine keeps_bind (keeps_ilock_first fun _ s3 hr3 _ last => ?_)
  exact keeps_unlinkName (hr1.trans (hr2.trans hr3.of_take))

end

section

theorem keeps_createDots {Q : Unit → Claims → List ℕ → Fs P → Prop} {dp i : ℕ}
    (hfresh : c.fresh = none) (hdp : 0 < c.held dp) (hne : i ≠ dp)
    (hQ : ∀ s', Rely p (c.take i) [dp] s s' → Knows depth (c.take i) s' →
      Q () (c.take i) [i, dp] s') :
    Keeps depth p Q (createDots sb dp i) last ((c.made i).take i) [i, dp] s := by
  have hknown : ((c.made i).take i).known = c.take i := by
    ext j <;> simp [hfresh]
  have hknown' : (c.take i).known = c.take i := Claims.known_eq hfresh
  have hof : ∀ {s s'}, Rely p ((c.made i).take i) [i, dp] s s' → Rely p (c.take i) [dp] s s' :=
    fun h => h.weaken (fun j => by simp) (fun _ => le_rfl) (fun j hj => by simp [hfresh] at hj)
      fun _ h => List.mem_cons_of_mem _ h
  have hwrite : ∀ {s : Fs P} {n e}, Rely p (c.take i) [dp] s (s.writeEntry i n e) :=
    fun {s n e} => .writeEntry (by simpa using hne) (by simp [hfresh])
  refine keeps_addLink fun s1 hr1 => keeps_bind (keeps_dirlink (by simp) (by simp) (by simp)
    (fun _ _ _ => .inl rfl) (fun n s' _ hk _ hslot => ?_)
    (fun _ _ _ last => keeps_panic (by decide)) fun s2 s3 hr2 hk2 _ hr3 _ last => ?_)
  · -- The directory is blank.
    have := (Fs.slot_eq_some hslot).1
    rw [(hk.fresh i rfl).entries] at this
    cases this
  rw [hknown] at hr3 ⊢
  have hframe : Rely p (c.take i) [dp] s s3 :=
    (hof hr1).trans ((hof hr2).trans (hwrite.trans hr3.of_cons))
  have hentries : (s3.inode i).entries = [⟨i, dot⟩] := by
    rw [hr3.entries i (.inl ⟨by simp, by simp⟩), Fs.writeEntry_entries_self,
      (hk2.fresh i rfl).entries]
    rfl
  rw [if_neg (by decide)]
  refine keeps_bind (keeps_dirlink (by simp) (by simp) (by simp; omega)
    (fun _ _ _ => .inr (.inl rfl)) (fun n s' hr _ _ hslot => ?_)
    (fun _ _ _ last => keeps_panic (by decide)) fun s4 s5 hr4 _ _ hr5 _ last => ?_)
  · obtain ⟨hmem, -, hname⟩ := Fs.slot_eq_some hslot
    rw [hr.entries i (.inl ⟨by simp, by simp⟩), hentries, List.mem_singleton] at hmem
    rw [hmem] at hname
    exact absurd hname (by simp [dot, dotdot])
  · rw [hknown'] at hr5 ⊢
    rw [if_neg (by decide)]
    refine keeps_pure fun s6 hr6 hk6 => hQ s6 (hframe.trans ?_) hk6
    exact hr4.of_cons.trans (hwrite.trans (hr5.trans hr6).of_cons)

theorem keeps_createEnter {Q : Option ℕ → Claims → List ℕ → Fs P → Prop} {dp i : ℕ} {name : Name}
    {c' : Claims} (hfresh : c.fresh = none) (hne : i ≠ dp)
    (hknown : c'.known = (c.take dp).take i) (hheld : c'.held = ((c.take dp).take i).held)
    (hslot : s.slot dp name = none) (hbelow : s.Below depth dp i)
    (hQ : ∀ s', Rely p (c.take i) [i] s s' → Knows depth (c.take i) s' →
      Q (some i) (c.take i) [i] s') :
    Keeps depth p Q (dirlink sb dp name i >>= fun r => if r < 0 then .panic .createDirlink else do
      iunlockput .putParent dp
      pure (some i)) last c' [i, dp] s := by
  have hdp : 0 < c'.held dp := by simp [hheld]
  have hi : 0 < c'.held i := by simp [hheld]
  have hof : ∀ {s s'}, Rely p c' [i, dp] s s' → Rely p (c.take i) [i] s s' := fun h =>
    h.weaken (fun j => by simp [hheld]) (fun f => (congrArg (·.files f) hknown).ge)
      (fun j hj => by simp [hfresh] at hj) (by simp)
  refine keeps_bind (keeps_dirlink hdp (by simp) hi
    (fun s' hr _ => .inr (.inr (hr.below hdp hbelow))) (fun n s' hr _ _ hn => ?_)
    (fun _ _ _ last => keeps_panic (by decide)) fun s1 s2 hr1 _ _ hr2 _ last => ?_)
  · rw [Fs.slot_congr (hr.entries dp (.inl ⟨hdp, by simp⟩)), hslot] at hn
    cases hn
  rw [hknown, Claims.take_comm] at hr2 ⊢
  rw [if_neg (by decide)]
  refine keeps_bind (keeps_iunlockput (by simp) (erase_second hne) (fun h => absurd rfl h)
    (by simp [hfresh]) fun s3 hr3 _ last => keeps_pure fun s4 hr4 hk4 => hQ s4 ?_ hk4)
  have hw : Rely p (c.take i) [i] s1 (s1.writeEntry dp (s1.spare dp) ⟨i, name⟩) :=
    .writeEntry (by simpa using Ne.symm hne) (by simp [hfresh])
  refine (hof hr1).trans (hw.trans (.trans ?_ (hr3.trans hr4)))
  exact hr2.of_take.weaken (fun _ => le_rfl) (fun _ => le_rfl) (fun _ h => h) (by simp)

theorem keeps_createNew {Q : Option ℕ → Claims → List ℕ → Fs P → Prop} {dp : ℕ} {name : Name}
    {type : IType} {major minor : Int16} (ht : type ≠ .free) (hfresh : c.fresh = none)
    (hdir : (s.inode dp).type = .dir) (hslot : s.slot dp name = none)
    (hQ : ∀ i s', Rely p c [] s s' → Knows depth (c.take i) s' → (s'.inode i).type = type →
      Q (some i) (c.take i) [i] s') :
    Keeps depth p Q (createNew sb dp name type major minor) last (c.take dp) [dp] s := by
  have hheld : 0 < (c.take dp).held dp := by simp
  refine keeps_bind (keeps_ialloc ht hfresh fun i s1 hr1 _ htype hbelow last => ?_)
  have hof : ∀ {H s s'}, Rely p (((c.take dp).made i).take i) H s s' → Rely p (c.take dp) H s s' :=
    fun h => h.weaken (fun j => by simp) (fun _ => le_rfl) (fun j hj => by simp [hfresh] at hj)
      fun _ h => h
  refine keeps_bind (keeps_ilock (fun s' hr _ j hj => ?_) fun hne s2 hr2 _ last => ?_)
  · obtain rfl := List.mem_singleton.1 hj
    exact ⟨((hr1.trans (hof hr)).kept j (.inl hheld)).1.trans hdir,
      hr.below (by simp) (hbelow j hheld)⟩
  have hne : i ≠ dp := by simpa using hne.2
  refine keeps_still (fun s => s.initInode_sameTree i major minor) (fun _ => rfl) (fun _ => rfl)
    (fun _ => rfl) (fun _ => rfl) fun s3 hr3 => ?_
  have hr3 := hr2.trans hr3.of_cons
  have hlast : ∀ {c' s4 last}, c'.known = (c.take dp).take i →
      c'.held = ((c.take dp).take i).held → Rely p (c.take dp) [dp] s s4 →
      (s4.inode i).type = type → s4.Below depth dp i → Keeps depth p Q
        (dirlink sb dp name i >>= fun r => if r < 0 then .panic .createDirlink else do
          iunlockput .putParent dp
          pure (some i)) last c' [i, dp] s4 := by
    intro c' s4 last hknown hheld' hr4 htype4 hbelow4
    refine keeps_createEnter hfresh hne hknown hheld' ?_ hbelow4 fun s5 hr5 hk5 =>
      hQ i s5 (hr4.of_take.of_cons.trans hr5.of_take.of_cons) hk5
        ((hr5.kept i (.inl (by simp))).1.trans htype4)
    exact (Fs.slot_congr (hr4.entries dp (.inl ⟨hheld, by simp⟩)) name).trans hslot
  have hframe := hr1.trans (hof hr3)
  have htype3 := (hr3.kept i (.inl (by simp))).1.trans htype
  have hbelow3 := hr3.below (by simp) (hbelow dp hheld)
  split
  · refine keeps_bind (keeps_createDots hfresh hheld hne fun s4 hr4 _ last => hlast
      (Claims.known_eq hfresh) rfl (hframe.trans hr4.of_take)
      ((hr4.kept i (.inl (by simp))).1.trans htype3) (hr4.below (by simp) hbelow3))
  · refine keeps_bind (keeps_pure fun s4 hr4 _ last => hlast ?_ rfl
      (hframe.trans (hof hr4).of_cons) ((hr4.kept i (.inl (by simp))).1.trans htype3)
      (hr4.below (by simp) hbelow3))
    ext j <;> simp [hfresh]

variable {Q : Option ℕ → Claims → List ℕ → Fs P → Prop} {path : Path}

theorem keeps_create {type : IType} {major minor : Int16} (ht : type ≠ .free)
    (hfresh : c.fresh = none) (hcwd : 0 < c.held (s.cwd p))
    (hnone : ∀ s', Rely p c [] s s' → Knows depth c s' → Q none c [] s')
    (hsome : ∀ i s', Rely p c [] s s' → Knows depth (c.take i) s' → (s'.inode i).type = type →
      Q (some i) (c.take i) [i] s') :
    Keeps depth p Q (create sb p path type major minor) last c [] s := by
  refine keeps_bind (keeps_namex hfresh hcwd
    (fun s1 hr1 _ last => keeps_pure fun s2 hr2 => hnone s2 (hr1.trans hr2))
    fun dp name s1 hr1 _ _ last => ?_)
  refine keeps_bind (keeps_ilock_first fun _ s2 hr2 _ last => ?_)
  have hr2 := hr1.trans hr2.of_take
  refine keeps_bind (keeps_dirlookup (by simp) (List.mem_singleton_self dp)
    (fun s3 hr3 _ hdir hslot last => keeps_createNew ht hfresh hdir hslot fun i s' hr =>
      hsome i s' (hr2.trans (hr3.of_take.of_cons.trans hr)))
    fun n s3 hr3 _ _ _ last => ?_)
  have hr3 := hr2.trans hr3.of_take.of_cons
  rw [Claims.take_comm]
  refine keeps_bind (keeps_iunlockput_last hfresh fun s4 hr4 _ last => ?_)
  refine keeps_bind (keeps_ilock_first fun _ s5 hr5 _ last => keeps_read fun s6 hr6 _ => ?_)
  have hr6 := hr3.trans (hr4.of_take.trans (hr5.of_take.trans hr6.of_take.of_cons))
  split
  · rename_i htype
    exact keeps_pure fun s7 hr7 hk7 => hsome _ s7 (hr6.trans hr7.of_take.of_cons) hk7
      ((hr7.kept _ (.inl (by simp))).1.trans (htype.2.trans htype.1.symm))
  · exact keeps_bind (keeps_iunlockput_last hfresh fun s7 hr7 _ last =>
      keeps_pure fun s8 hr8 => hnone s8 (hr6.trans (hr7.trans hr8)))

theorem keeps_openInode {omode : UInt32} (hfresh : c.fresh = none) (hcwd : 0 < c.held (s.cwd p))
    (hnone : ∀ s', Rely p c [] s s' → Knows depth c s' → Q none c [] s')
    (hsome : ∀ i s', Rely p c [] s s' → Knows depth (c.take i) s' →
      ((s'.inode i).type = .dir → omode = 0) → Q (some i) (c.take i) [i] s') :
    Keeps depth p Q (openInode sb p path omode) last c [] s := by
  unfold openInode
  split
  · exact keeps_create (by decide) hfresh hcwd hnone fun i s' hr hk ht =>
      hsome i s' hr hk fun h => by simp [ht] at h
  refine keeps_bind (keeps_namei hfresh hcwd
    (fun s1 hr1 _ last => keeps_pure fun s2 hr2 => hnone s2 (hr1.trans hr2))
    fun ip s1 hr1 _ last => ?_)
  refine keeps_bind (keeps_ilock_first fun _ s2 hr2 _ last => keeps_read fun s3 hr3 _ => ?_)
  have hr3 := hr1.trans (hr2.of_take.trans hr3.of_take.of_cons)
  split
  · exact keeps_bind (keeps_iunlockput_last hfresh fun s4 hr4 _ last =>
      keeps_pure fun s5 hr5 => hnone s5 (hr3.trans (hr4.trans hr5)))
  rename_i hmode
  refine keeps_pure fun s4 hr4 hk4 =>
    hsome ip s4 (hr3.trans hr4.of_take.of_cons) hk4 fun h => ?_
  rw [(hr4.kept ip (.inl (by simp))).1] at h
  by_contra hne
  exact hmode ⟨h, hne⟩

end

variable {path : Option Path}

theorem keeps_createEnd {path : Path} {type : IType} {major minor : Int16} (ht : type ≠ .free)
    (hcwd : s0.cwd p ≠ 0) (hr : Rely p (s0.claims p) [] s0 s) :
    Keeps depth p (Over p) (create sb p path type major minor >>= mknodEnd) last (s0.claims p)
      [] s :=
  keeps_bind <| keeps_create ht (s0.claims_fresh p) (hr.held_cwd hcwd)
    (fun _ hr1 _ _ => keeps_done (hr.trans hr1))
    fun _ _ hr1 _ _ _ => keeps_putDone (hr.trans hr1)

theorem keeps_sysMkdir (hcwd : s.cwd p ≠ 0) :
    Keeps depth p (Over p) (sysMkdir sb p path) last (s.claims p) [] s := by
  refine keeps_beginOp fun s1 hr1 => ?_
  split
  · exact keeps_done hr1
  · exact keeps_createEnd (by decide) hcwd hr1

theorem keeps_sysMknod {major minor : Int16} (hcwd : s.cwd p ≠ 0) :
    Keeps depth p (Over p) (sysMknod sb p path major minor) last (s.claims p) [] s := by
  refine keeps_beginOp fun s1 hr1 => ?_
  split
  · exact keeps_done hr1
  · exact keeps_createEnd (by decide) hcwd hr1

end Xv6.Sys
