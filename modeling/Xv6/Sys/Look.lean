import Xv6.Sys.Seq

namespace Xv6.Sys

open Lib Function

variable {P α : Type} {up : Prop} {sb : Super} {s0 s s' : Fs P} {m : Multiset ℕ} {ip i : ℕ}

structure SameUse (s s' : Fs P) : Prop where
  file : s'.file = s.file
  ofile : s'.ofile = s.ofile
  cwd : s'.cwd = s.cwd
  outstanding : s'.outstanding = s.outstanding

theorem SameUse.refl (s : Fs P) : SameUse s s := ⟨rfl, rfl, rfl, rfl⟩

theorem SameUse.trans {t : Fs P} (h : SameUse s s') (h' : SameUse s' t) : SameUse s t :=
  ⟨h'.file.trans h.file, h'.ofile.trans h.ofile, h'.cwd.trans h.cwd,
    h'.outstanding.trans h.outstanding⟩

section
variable (s : Fs P) (i : ℕ)

theorem sameUse_iget : SameUse s (s.iget i) := by
  unfold Fs.iget
  split
  · exact ⟨rfl, rfl, rfl, rfl⟩
  · exact ⟨rfl, rfl, rfl, rfl⟩

theorem sameUse_load : SameUse s (s.load i) := ⟨rfl, rfl, rfl, rfl⟩

theorem sameUse_put : SameUse s ((s.reap i).drop i) := by
  unfold Fs.reap Fs.drop
  split
  · exact ⟨rfl, rfl, rfl, rfl⟩
  · exact ⟨rfl, rfl, rfl, rfl⟩

theorem Fs.ref_idup : (s.idup i).ref = plus s.ref i := by
  show update s.ref i (s.ref i + 1) = plus s.ref i
  funext j
  by_cases hj : j = i
  · subst hj
    rw [update_self, plus, if_pos rfl]
  · rw [update_of_ne hj, plus, if_neg hj, Nat.add_zero]

end

structure Sound (s : Fs P) : Prop where
  live : ∀ i, (s.inode i).type ≠ .free → (s.inode i).nlink = 0 → 0 < s.ref i
  stale : ∀ i, (s.inode i).type = .free → s.valid i = false ∨ s.ref i = 0
  cwd : ∀ p, s.cwd p ≠ 0 → 0 < s.ref (s.cwd p)

structure Closed (s : Fs P) : Prop where
  origin : ∀ ip, ip = ROOTINO ∨ (ip ≠ 0 ∧ ∃ p, s.cwd p = ip) → (s.inode ip).type ≠ .free
  entries : ∀ d, (s.inode d).type = .dir → ∀ e ∈ (s.inode d).entries, e.inum ≠ 0 →
    (s.inode e.inum).type ≠ .free

structure Looking (s₀ : Fs P) (m : Multiset ℕ) (s : Fs P) : Prop where
  inode : s.inode = s₀.inode
  use : SameUse s₀ s
  hist : s.hist = s₀.hist
  ref : ∀ i, s.ref i = s₀.ref i + m.count i
  valid : ∀ i, s₀.valid i = true → 0 < s₀.ref i → s.valid i = true
  stale : ∀ i, (s₀.inode i).type = .free → s.valid i = false ∨ s.ref i = 0

namespace Looking

theorem start (h : Sound s) : Looking s 0 s :=
  ⟨rfl, .refl s, rfl, fun _ => by rw [Multiset.count_zero, Nat.add_zero], fun _ hv _ => hv,
    h.stale⟩

section
variable (h : Looking s0 m s)
include h

theorem quiet : Quiet s0 s := ⟨h.inode, h.use.file, h.use.cwd, h.hist⟩

theorem sound (hs : Sound s0) : Sound s := by
  have hle : ∀ i, s0.ref i ≤ s.ref i := fun i => (h.ref i).symm ▸ Nat.le_add_right ..
  refine ⟨fun i ht hz => ?_, fun i hi => h.stale i (h.inode ▸ hi), fun p hp => ?_⟩
  · rw [h.inode] at ht hz
    exact (hs.live i ht hz).trans_le (hle i)
  · rw [h.use.cwd] at hp ⊢
    exact (hs.cwd p hp).trans_le (hle _)

theorem trans {m' : Multiset ℕ} (h' : Looking s m' s') : Looking s0 (m' + m) s' := by
  refine ⟨h'.inode.trans h.inode, h.use.trans h'.use, h'.hist.trans h.hist, fun i => ?_,
    fun i hv hr => h'.valid i (h.valid i hv hr) ?_, fun i hi => h'.stale i (h.inode ▸ hi)⟩
  · rw [h'.ref, h.ref, Multiset.count_add]
    omega
  · rw [h.ref]
    omega

theorem ref_pos (hi : i ∈ m) : 0 < s.ref i := by
  rw [h.ref]
  exact Nat.add_pos_right _ (Multiset.count_pos.2 hi)

theorem iget : Looking s0 (i ::ₘ m) (s.iget i) := by
  have href := Fs.iget_ref s i
  have hq := quiet_iget s i
  have hvalid : ∀ j, (s.iget i).valid j = if j = i ∧ s.ref i = 0 then false else s.valid j := by
    intro j
    unfold Fs.iget
    by_cases hr : 0 < s.ref i
    · rw [if_pos hr, if_neg (by omega)]
    rw [if_neg hr]
    by_cases hj : j = i
    · rw [if_pos ⟨hj, by omega⟩, hj]
      exact update_self ..
    · rw [if_neg fun h => hj h.1]
      exact update_of_ne hj ..
  refine ⟨hq.inode.trans h.inode, h.use.trans (sameUse_iget s i), hq.hist.trans h.hist,
    fun j => ?_, fun j hv hr => ?_, fun j hj => ?_⟩
  · rw [href, h.ref, Multiset.count_cons, Nat.add_assoc]
  · have hle := h.ref j
    rw [hvalid, if_neg]
    · exact h.valid j hv hr
    · rintro ⟨rfl, hz⟩
      omega
  rw [hvalid, href]
  by_cases hji : j = i
  · subst hji
    rcases h.stale j hj with hv | hr
    · left
      rw [hv, ite_self]
    · exact .inl (if_pos ⟨rfl, hr⟩)
  · rw [if_neg fun h => hji h.1, if_neg hji]
    exact h.stale j hj

theorem idup (hpos : 0 < s.ref i) : Looking s0 (i ::ₘ m) (s.idup i) := by
  have href : ∀ j, (s.idup i).ref j = s.ref j + if j = i then 1 else 0 := fun j =>
    congrFun (Fs.ref_idup s i) j
  refine ⟨h.inode, h.use.trans ⟨rfl, rfl, rfl, rfl⟩, h.hist, fun j => ?_, h.valid, fun j hj => ?_⟩
  · rw [href, h.ref, Multiset.count_cons, Nat.add_assoc]
  refine (h.stale j hj).imp_right fun hz => ?_
  have hne : j ≠ i := by
    rintro rfl
    omega
  rw [href, if_neg hne, hz]

theorem load (ht : (s0.inode i).type ≠ .free) : Looking s0 m (s.load i) := by
  refine ⟨h.inode, h.use.trans (sameUse_load s i), h.hist, h.ref, fun j hv hr => ?_, fun j hj => ?_⟩
  · by_cases hji : j = i
    · rw [hji]
      exact update_self ..
    · exact (update_of_ne hji ..).trans (h.valid j hv hr)
  have hne : j ≠ i := by
    rintro rfl
    exact ht hj
  have hv : (s.load i).valid j = s.valid j := update_of_ne hne ..
  rw [hv]
  exact h.stale j hj

theorem not_dead (hs : Sound s0) (hi : i ∈ m) : s.dead i = false := by
  have hcount := h.ref i
  have hpos := Multiset.count_pos.2 hi
  by_contra hd
  simp only [Fs.dead, Bool.not_eq_false, Bool.and_eq_true, decide_eq_true_eq] at hd
  obtain ⟨⟨hv, hz⟩, hr⟩ := hd
  rw [h.inode] at hz
  by_cases hfree : (s0.inode i).type = .free
  · rcases h.stale i hfree with hf | hr'
    · exact absurd (hv.symm.trans hf) Bool.noConfusion
    · omega
  · have := hs.live i hfree hz
    omega

end

theorem put (h : Looking s0 (i ::ₘ m) s) (hs : Sound s0) : Looking s0 m ((s.reap i).drop i) := by
  have hcount := h.ref i
  rw [Multiset.count_cons_self] at hcount
  rw [Fs.reap_of_not_dead (h.not_dead hs (Multiset.mem_cons_self i m))]
  have href : ∀ j, (s.drop i).ref j = s0.ref j + m.count j := by
    intro j
    show update s.ref i (s.ref i - 1) j = _
    by_cases hj : j = i
    · rw [hj, update_self]
      omega
    · rw [update_of_ne hj, h.ref j, Multiset.count_cons_of_ne hj]
  refine ⟨h.inode, h.use.trans ⟨rfl, rfl, rfl, rfl⟩, h.hist, href, h.valid, fun j hj => ?_⟩
  refine (h.stale j hj).imp_right fun hr => ?_
  have hle := h.ref j
  rw [hr] at hle
  rw [href]
  have : m.count j ≤ (i ::ₘ m).count j := Multiset.count_le_count_cons ..
  omega

theorem swap {a b : ℕ} (h : Looking s0 (a ::ₘ b ::ₘ m) s) : Looking s0 (b ::ₘ a ::ₘ m) s :=
  Multiset.cons_swap a b m ▸ h

end Looking

section
variable {Q : Unit → Fs P → Prop}

theorem look_ilock (h : Looking s0 m s) (hlive : up → (s0.inode ip).type ≠ .free)
    (hQ : (s0.inode ip).type ≠ .free → ip ≠ 0 → Looking s0 m (s.load ip) → Q () (s.load ip)) :
    Seq up (ilock ip) Q s := by
  show Prog.wp _ (if _ then _ else _) _ _
  split
  · exact may_of_ne (by decide) (by decide)
  rename_i href
  rw [not_or, not_lt] at href
  show Prog.wp _ (if s.valid ip = false ∧ (s.inode ip).type = .free then _ else _) _ (s.load ip)
  rw [h.inode]
  split
  · rename_i hfree
    exact ⟨by decide, fun hup => absurd hfree.2 (hlive hup)⟩
  rename_i hok
  have ht : (s0.inode ip).type ≠ .free := by
    intro hfree
    rcases h.stale ip hfree with hv | hr
    · exact hok ⟨hv, hfree⟩
    · have : 1 ≤ s.ref ip := href.2
      omega
  exact hQ ht href.1 (h.load ht)

theorem look_iput {site : Site} (h : Looking s0 (ip ::ₘ m) s) (hs : Sound s0)
    (hQ : ∀ s', Looking s0 m s' → Q () s') : Seq up (iput site ip) Q s :=
  seq_iput (hQ _ (h.put hs))

theorem look_iunlockput {site : Site} (h : Looking s0 (ip ::ₘ m) s) (hs : Sound s0)
    (hQ : ∀ s', Looking s0 m s' → Q () s') : Seq up (iunlockput site ip) Q s :=
  seq_bind (seq_iunlock (look_iput h hs hQ))

end

theorem look_dirlookup {dp : ℕ} {name : Name} {Q : Option (ℕ × ℕ) → Fs P → Prop}
    (h : Looking s0 m s)
    (hnone : (s0.inode dp).type = .dir → s0.slot dp name = none → Q none s)
    (hsome : (s0.inode dp).type = .dir → ∀ n, s0.slot dp name = some n → ∀ s',
      Looking s0 ((s0.entry dp n).inum ::ₘ m) s' → Q (some ((s0.entry dp n).inum, n)) s') :
    Seq up (dirlookup sb dp name) Q s := by
  have hslot : s.slot dp name = s0.slot dp name := by rw [Fs.slot, h.inode, Fs.slot]
  have hentry : ∀ n, s.entry dp n = s0.entry dp n := fun n => by rw [Fs.entry, h.inode, Fs.entry]
  refine seq_dirlookup (fun hd hn => ?_) fun hd n hn => ?_
  · rw [h.inode] at hd
    exact hnone hd (hslot.symm.trans hn)
  · rw [h.inode] at hd
    rw [hentry]
    exact hsome hd n (hslot.symm.trans hn) _ h.iget

theorem look_dirlink {dp inum : ℕ} {name : Name} {Q : Int → Fs P → Prop} (h : Looking s0 m s)
    (hs : Sound s0) (hfound : ∀ s', Looking s0 m s' → Q (-1) s')
    (hnew : (s0.inode dp).type = .dir → s0.slot dp name = none →
      Q 0 (s.writeEntry dp (s0.spare dp) ⟨inum, name⟩)) :
    Seq up (dirlink sb dp name inum) Q s := by
  cases hslot : s0.slot dp name with
  | none =>
    have hslot' : s.slot dp name = none := by rwa [Fs.slot, h.inode]
    have hspare : s.spare dp = s0.spare dp := by rw [Fs.spare, h.inode, Fs.spare]
    refine seq_dirlink_new hslot' fun hd _ => ?_
    rw [h.inode] at hd
    rw [hspare]
    exact hnew hd hslot
  | some n =>
    refine seq_bind (look_dirlookup h (fun _ hn => ?_) fun _ k hk s1 h1 => ?_)
    · rw [hslot] at hn
      cases hn
    · exact seq_bind (look_iput h1 hs hfound)

theorem walk_step {t : Table} {par : Bool} {name : Name} {rest : List Name}
    (hd : (t ip).type = .dir) (hlast : ¬(par && rest.isEmpty) = true) :
    walk t par ip (name :: rest) = (lookup (t ip) name).bind fun next => walk t par next rest := by
  rw [walk, if_neg (not_not.2 hd), if_neg hlast]
  cases lookup (t ip) name with
  | none => rfl
  | some next => rfl

theorem walk_dir {t : Table} {names : List Name} {name : Name}
    (h : walk t true ip names = some (i, name)) : (t i).type = .dir := by
  induction names generalizing ip with
  | nil => cases h
  | cons name' rest ih =>
    rw [walk] at h
    split at h
    · cases h
    rename_i hd
    split at h
    · obtain ⟨rfl, -⟩ := Prod.mk.inj (Option.some.inj h)
      exact not_not.1 hd
    · split at h
      · cases h
      · exact ih h

theorem Closed.walk_live (hc : Closed s) {par : Bool} {names : List Name} {name : Name}
    (hip : (s.inode ip).type ≠ .free) (h : walk s.inode par ip names = some (i, name)) :
    (s.inode i).type ≠ .free := by
  induction names generalizing ip with
  | nil =>
    rw [walk] at h
    split at h
    · cases h
    · obtain ⟨rfl, -⟩ := Prod.mk.inj (Option.some.inj h)
      exact hip
  | cons name' rest ih =>
    rw [walk] at h
    split at h
    · cases h
    rename_i hd
    split at h
    · obtain ⟨rfl, -⟩ := Prod.mk.inj (Option.some.inj h)
      exact hip
    split at h
    · cases h
    · rename_i next hl
      obtain ⟨e, he, hz, -, hj⟩ := lookup_eq_some hl
      exact ih (hj ▸ hc.entries ip (not_not.1 hd) e he hz) h

section
variable {Q : Option (ℕ × Name) → Fs P → Prop}

theorem look_namexLoop {par : Bool} {names : List Name} (hs : Sound s0) (hc : up → Closed s0)
    (h : Looking s0 (ip ::ₘ m) s) (hlive : up → (s0.inode ip).type ≠ .free)
    (hQ : ∀ r s', r = walk s0.inode par ip names → Looking s0 (r.elim m fun x => x.1 ::ₘ m) s' →
      Q r s') : Seq up (namexLoop sb par ip names) Q s := by
  induction names generalizing ip s with
  | nil =>
    unfold namexLoop
    split
    · rename_i hp
      exact seq_bind (look_iput h hs fun s' h' => hQ none s' (by rw [walk, if_pos hp]) h')
    · rename_i hp
      exact hQ (some (ip, [])) s (by rw [walk, if_neg hp]) h
  | cons name rest ih =>
    unfold namexLoop
    refine seq_bind (look_ilock h hlive fun _ _ h1 => seq_bind ?_)
    have hfail : ∀ s', Looking s0 (ip ::ₘ m) s' → walk s0.inode par ip (name :: rest) = none →
        Seq up (iunlockput .iput ip >>= fun _ => pure none) Q s' := fun s' h' hw =>
      seq_bind (look_iunlockput h' hs fun s'' h'' => hQ none s'' hw.symm h'')
    show Seq up (if ((s.load ip).inode ip).type ≠ .dir then _ else _) Q (s.load ip)
    rw [h1.inode]
    split
    · rename_i hdir
      exact hfail _ h1 (by rw [walk, if_pos hdir])
    rename_i hdir
    split
    · rename_i hlast
      refine seq_bind (seq_iunlock (hQ (some (ip, name)) _ ?_ h1))
      rw [walk, if_neg hdir, if_pos hlast]
    rename_i hlast
    have hw := @walk_step ip s0.inode par name rest (not_not.1 hdir) hlast
    refine seq_bind (look_dirlookup h1 (fun _ hslot => hfail _ h1 ?_) fun hd n hslot s2 h2 => ?_)
    · rw [hw, Fs.lookup_slot, hslot]
      rfl
    have hl : lookup (s0.inode ip) name = some (s0.entry ip n).inum := by
      rw [Fs.lookup_slot, hslot]
      rfl
    rw [hl, Option.bind_some] at hw
    refine seq_bind (look_iunlockput h2.swap hs fun s3 h3 => ih h3 (fun hup => ?_)
      fun r s' hr h' => hQ r s' (hr.trans hw.symm) h')
    obtain ⟨e, he, hz, -, hj⟩ := lookup_eq_some hl
    exact hj ▸ (hc hup).entries ip hd e he hz

theorem look_namex {p : P} {path : Path} {par : Bool} (hs : Sound s) (hc : up → Closed s)
    (hcwd : s.cwd p ≠ 0)
    (hQ : ∀ r s', r = s.resolve p path par → Looking s (r.elim 0 fun x => {x.1}) s' → Q r s') :
    Seq up (namex sb p path par) Q s := by
  unfold namex
  unfold Fs.resolve at hQ
  split
  · rename_i hslash
    rw [if_pos hslash] at hQ
    exact seq_bind (seq_iget (look_namexLoop hs hc (Looking.start hs).iget
      (fun hup => (hc hup).origin ROOTINO (.inl rfl)) hQ))
  rename_i hslash
  rw [if_neg hslash] at hQ
  refine seq_bind (seq_bind ?_)
  exact look_namexLoop hs hc ((Looking.start hs).idup (hs.cwd p hcwd))
    (fun hup => (hc hup).origin _ (.inr ⟨hcwd, p, rfl⟩)) hQ

theorem look_namei {Q : Option ℕ → Fs P → Prop} {p : P} {path : Path} (hs : Sound s)
    (hc : up → Closed s) (hcwd : s.cwd p ≠ 0)
    (hQ : ∀ r s', Looking s (r.elim 0 fun i => {i}) s' → Q r s') :
    Seq up (namei sb p path) Q s := by
  refine seq_bind (look_namex hs hc hcwd fun r s' _ h => ?_)
  cases r with
  | none => exact hQ none s' h
  | some x => exact hQ (some x.1) s' h

end

variable [Fintype P] {extra held : ℕ → ℕ} {Q : Option (ℕ × Name) → Fs P → Prop}
  (h : Orderly sb up extra held s)
include h

theorem Orderly.not_dead {ip : ℕ}
    (hspare : (s.inode ip).nlink = 0 → (s.inode ip).type ≠ .free → 2 ≤ s.ref ip) :
    s.dead ip = false := by
  by_contra hd
  rw [Bool.not_eq_false] at hd
  simp only [Fs.dead, Bool.and_eq_true, decide_eq_true_eq] at hd
  obtain ⟨⟨hv, hz⟩, hr⟩ := hd
  by_cases hfree : (s.inode ip).type = .free
  · rcases h.stale ip hfree with hs | hs
    · rw [hs] at hv
      cases hv
    · omega
  · have := hspare hz hfree
    omega

theorem Orderly.sound : Sound s := by
  refine ⟨fun i hi hz => (h.zombie i hi hz).2, h.stale, fun p hp => ?_⟩
  have hone := Finset.single_le_sum (f := fun q => if s.cwd q = s.cwd p then 1 else 0)
    (fun _ _ => Nat.zero_le _) (Finset.mem_univ p)
  have hcount := h.count (s.cwd p) hp
  simp only [↓reduceIte] at hone
  omega

theorem Orderly.closed (hup : up) : Closed s := by
  refine ⟨fun ip hip => ?_, fun d hd e he hz => h.tree.entry_live hup hd he hz⟩
  rcases hip with rfl | ⟨hne, p, rfl⟩
  · rw [h.tree.root]
    decide
  · rw [h.cwd p hne]
    decide

theorem Orderly.look {held' : ℕ → ℕ} (hl : Looking s m s')
    (hheld : ∀ i, held' i = held i + m.count i) : Orderly sb up extra held' s' := by
  refine h.quiet hl.quiet (fun j _ => ?_) (fun j _ _ hv hr => ⟨hl.valid j hv hr, ?_⟩)
    fun j hj _ => hl.stale j hj
  · rw [hheld, hl.ref]
    omega
  · rw [hl.ref]
    omega

theorem seq_namex {p : P} {path : Path} {par : Bool}
    (hcwd : s.cwd p ≠ 0)
    (hnone : s.resolve p path par = none → ∀ s', Quiet s s' → Orderly sb up extra held s' →
      Q none s')
    (hsome : ∀ i name, s.resolve p path par = some (i, name) → ∀ s', Quiet s s' →
      Orderly sb up extra (plus held i) s' → (up → (s.inode i).type ≠ .free) →
      (par = true → (s.inode i).type = .dir) → Q (some (i, name)) s') :
    Seq up (namex sb p path par) Q s := by
  refine look_namex h.sound h.closed hcwd fun r s' hr hl => ?_
  rcases r with _ | ⟨i, name⟩
  · exact hnone hr.symm s' hl.quiet (h.look hl fun i => rfl)
  refine hsome i name hr.symm s' hl.quiet (h.look hl fun j => ?_) (fun hup => ?_) fun hpar => ?_
  · exact congrArg (held j + ·) (Multiset.count_singleton j i).symm
  · refine (h.closed hup).walk_live ?_ hr.symm
    split
    · exact (h.closed hup).origin _ (.inl rfl)
    · exact (h.closed hup).origin _ (.inr ⟨hcwd, p, rfl⟩)
  · subst hpar
    exact walk_dir hr.symm

theorem seq_namei {Q : Option ℕ → Fs P → Prop} {p : P} {path : Path} (hcwd : s.cwd p ≠ 0)
    (hnone : ∀ s', Quiet s s' → Orderly sb up extra held s' → Q none s')
    (hsome : ∀ i s', Quiet s s' → Orderly sb up extra (plus held i) s' →
      (up → (s.inode i).type ≠ .free) → Q (some i) s') :
    Seq up (namei sb p path) Q s :=
  seq_bind (seq_namex h hcwd (fun _ s' hq h' => hnone s' hq h')
    fun i _ _ s' hq h' hlive _ => hsome i s' hq h' hlive)

end Xv6.Sys
