import Xv6.Sys.Names

namespace Xv6.Sys

open Lib Function
open Multiset (count_cons_self count_zero mem_cons_self)

variable {P : Type} {sb : Super} {extra : ℕ → ℕ} {t t' : Table} {s : Fs P} {dp ip n i : ℕ}
  {name : Name}

def Inode.entryCount (x : Inode) (q : Dirent → Bool) : ℕ :=
  if x.type = .dir then x.entries.countP fun e => decide (e.inum ≠ 0) && q e else 0

theorem Inode.entryCount_congr {x y : Inode} (ht : x.type = y.type) (he : x.entries = y.entries)
    (q : Dirent → Bool) : x.entryCount q = y.entryCount q := by
  rw [entryCount, entryCount, ht, he]

def entryCount (sb : Super) (t : Table) (q : Dirent → Bool) : ℕ :=
  ∑ d ∈ Finset.range sb.ninodes, (t d).entryCount q

def Dirent.plain (e : Dirent) : Bool := decide (e.name ≠ dot) && decide (e.name ≠ dotdot)

def LinksAgree (sb : Super) (t : Table) : Prop :=
  ∀ i, (t i).type ≠ .free → (t i).nlink.toInt =
    (if (t i).type = .dir then
      entryCount sb t (fun e => e.plain && decide (e.inum = i)) +
        (t i).entryCount (fun e => e.plain && decide ((t e.inum).type = .dir)) +
        if i = ROOTINO then 1 else 0
    else entryCount sb t fun e => decide (e.inum = i) : ℕ)

structure LaidOut (sb : Super) (t : Table) : Prop where
  root : (t ROOTINO).type = .dir
  inum : ∀ i, (t i).type ≠ .free → 0 < i ∧ i < sb.ninodes
  free : ∀ i, (t i).type = .free → (t i).nlink = 0
  dots : ∀ d, (t d).type = .dir → ∃ par, (t par).type = .dir ∧
    (t d).entries.take 2 = [⟨d, dot⟩, ⟨par, dotdot⟩]
  plain : ∀ d, (t d).type = .dir → ∀ e ∈ (t d).entries.drop 2, e.inum ≠ 0 → e.plain = true
  kids : ∀ d, (t d).type = .dir → ∀ e ∈ (t d).entries.drop 2, e.inum ≠ 0 →
    (t e.inum).type ≠ .free
  once : ∀ i, (t i).type = .dir → entryCount sb t (fun e => e.plain && decide (e.inum = i)) ≤ 1
  few : entryCount sb t (fun _ => true) < 32767

def Upward (t : Table) : Prop :=
  ∀ d, (t d).type = .dir → (t (t d).parent).type = .dir ∨ (t (t d).parent).type = .free

structure DirShape (x : Inode) (d par : ℕ) (rest : List Dirent) : Prop where
  dir : x.type = .dir
  entries : x.entries = ⟨d, dot⟩ :: ⟨par, dotdot⟩ :: rest
  self : d ≠ 0
  up : par ≠ 0
  plain : ∀ e ∈ rest, e.inum ≠ 0 → e.plain = true

namespace DirShape

variable {x : Inode} {d par : ℕ} {rest : List Dirent} (h : DirShape x d par rest)
include h

theorem count (q : ℕ → Bool) : x.count q = rest.countP (·.leads q) := by
  rw [Inode.count, if_pos h.dir, h.entries]
  rfl

theorem entryCount (q : Dirent → Bool) :
    x.entryCount q = rest.countP (fun e => decide (e.inum ≠ 0) && q e) +
      (if q ⟨par, dotdot⟩ then 1 else 0) + if q ⟨d, dot⟩ then 1 else 0 := by
  rw [Inode.entryCount, if_pos h.dir, h.entries, List.countP_cons, List.countP_cons]
  simp only [decide_eq_true h.self, decide_eq_true h.up, Bool.true_and]

theorem entryCount_plain (q : ℕ → Bool) :
    x.entryCount (fun e => e.plain && q e.inum) = x.count q := by
  have hdot : Dirent.plain ⟨d, dot⟩ = false := rfl
  have hdotdot : Dirent.plain ⟨par, dotdot⟩ = false := rfl
  rw [h.entryCount, h.count, hdot, hdotdot]
  refine List.countP_congr fun e he => ?_
  by_cases hz : e.inum = 0
  · simp [Dirent.leads, hz]
  · simp [Dirent.leads, hz, h.plain e he hz]

theorem entryCount_naming (hd : d ≠ i) (hpar : par ≠ i) :
    x.entryCount (fun e => decide (e.inum = i)) = x.count fun j => decide (j = i) := by
  rw [h.entryCount, h.count, decide_eq_false hd, decide_eq_false hpar]
  rfl

theorem count_add_two_le (q : ℕ → Bool) : x.count q + 2 ≤ x.entryCount fun _ => true := by
  rw [h.entryCount, h.count]
  refine Nat.add_le_add_right (List.countP_mono_left fun e _ he => ?_) 2
  rw [Bool.and_true]
  exact (Bool.and_eq_true_iff.1 he).1

theorem parent : x.parent = par := by
  rw [Inode.parent, h.entries]
  rfl

end DirShape

def Shaped (t : Table) : Prop :=
  ∀ d, (t d).type = .dir → ∃ par rest, DirShape (t d) d par rest

namespace Shaped

variable (h : Shaped t)
include h

theorem names_eq (i : ℕ) :
    entryCount sb t (fun e => e.plain && decide (e.inum = i)) = names sb t i := by
  refine Finset.sum_congr rfl fun d _ => ?_
  by_cases hd : (t d).type = .dir
  · obtain ⟨par, rest, hshape⟩ := h d hd
    exact hshape.entryCount_plain fun j => decide (j = i)
  · rw [Inode.entryCount, if_neg hd, Inode.count_of_type hd]

theorem subdirs_eq {d : ℕ} (hd : (t d).type = .dir) :
    (t d).entryCount (fun e => e.plain && decide ((t e.inum).type = .dir)) = subdirs t d := by
  obtain ⟨par, rest, hshape⟩ := h d hd
  exact hshape.entryCount_plain fun j => decide ((t j).type = .dir)

theorem naming_eq (hi : (t i).type ≠ .dir) (hpar : ∀ d, (t d).type = .dir → (t d).parent ≠ i) :
    entryCount sb t (fun e => decide (e.inum = i)) = names sb t i := by
  refine Finset.sum_congr rfl fun d _ => ?_
  by_cases hd : (t d).type = .dir
  · obtain ⟨par, rest, hshape⟩ := h d hd
    refine hshape.entryCount_naming ?_ (hshape.parent ▸ hpar d hd)
    rintro rfl
    exact hi hd
  · rw [Inode.entryCount, if_neg hd, Inode.count_of_type hd]

theorem count_le (q : ℕ → Bool) (d : ℕ) : (t d).count q ≤ (t d).entryCount fun _ => true := by
  by_cases hd : (t d).type = .dir
  · obtain ⟨par, rest, hshape⟩ := h d hd
    have := hshape.count_add_two_le q
    omega
  · rw [Inode.count_of_type hd]
    exact Nat.zero_le _

theorem names_le (i : ℕ) : names sb t i ≤ entryCount sb t fun _ => true :=
  Finset.sum_le_sum fun d _ => h.count_le _ d

theorem subdirs_add_two_le {d : ℕ} (hd : (t d).type = .dir) (hlt : d < sb.ninodes) :
    subdirs t d + 2 ≤ entryCount sb t fun _ => true := by
  obtain ⟨par, rest, hshape⟩ := h d hd
  exact (hshape.count_add_two_le _).trans
    (Finset.single_le_sum (f := fun d => (t d).entryCount fun _ => true)
      (fun _ _ => Nat.zero_le _) (Finset.mem_range.2 hlt))

end Shaped

theorem Counted.shaped (h : Counted sb extra t) : Shaped t := by
  intro d hd
  obtain ⟨par, rest, hpar, he, hrest, -⟩ := h.entries_eq hd
  refine ⟨par, rest, hd, he, Nat.pos_iff_ne_zero.1 (h.inum d (by simp [hd])).1, hpar,
    fun e hmem hz => ?_⟩
  obtain ⟨h1, h2⟩ := h.plain d hd e (hrest ▸ hmem) hz
  rw [Dirent.plain, decide_eq_true h1, decide_eq_true h2]
  rfl

namespace LaidOut

variable (h : LaidOut sb t)
include h

theorem up {d : ℕ} (hd : (t d).type = .dir) : (t (t d).parent).type = .dir := by
  obtain ⟨par, hpar, htake⟩ := h.dots d hd
  have hp : (t d).parent = par := by
    have hget : (t d).entries.getD 1 .empty = ((t d).entries.take 2).getD 1 .empty := by
      simp [List.getD]
    rw [Inode.parent, hget, htake]
    rfl
  rwa [hp]

theorem shaped : Shaped t := by
  intro d hd
  obtain ⟨par, hpar, htake⟩ := h.dots d hd
  have hne : ∀ j, (t j).type = .dir → j ≠ 0 := fun j hj =>
    Nat.pos_iff_ne_zero.1 (h.inum j (by simp [hj])).1
  refine ⟨par, (t d).entries.drop 2, hd, ?_, hne d hd, hne par hpar, h.plain d hd⟩
  conv_lhs => rw [← List.take_append_drop 2 (t d).entries, htake]
  rfl

theorem counted (ha : LinksAgree sb t) : Counted sb 0 t := by
  refine ⟨h.root, h.inum, fun i => ?_, fun d hd => ?_, fun d hd e he hz => ?_, h.kids,
    fun i hi => ?_⟩
  · have hroot : (t i).type ≠ .dir → i ≠ ROOTINO := by
      rintro hd rfl
      exact hd h.root
    by_cases hfree : (t i).type = .free
    · have hd : (t i).type ≠ .dir := by simp [hfree]
      rw [h.free i hfree, names_of_free h.kids hfree, subdirs, Inode.count_of_type hd,
        if_neg (hroot hd)]
      rfl
    rw [ha i hfree]
    by_cases hd : (t i).type = .dir
    · rw [if_pos hd, h.shaped.names_eq, h.shaped.subdirs_eq hd]
      push_cast
      exact (add_zero _).symm
    rw [if_neg hd, h.shaped.naming_eq hd, subdirs, Inode.count_of_type hd, if_neg (hroot hd)]
    · push_cast
      rfl
    · rintro d hdir rfl
      exact hd (h.up hdir)
  · obtain ⟨par, hpar, htake⟩ := h.dots d hd
    exact ⟨par, Nat.pos_iff_ne_zero.1 (h.inum par (by simp [hpar])).1, htake⟩
  · simpa [Dirent.plain] using h.plain d hd e he hz
  · rw [← h.shaped.names_eq]
    exact h.once i hi

theorem nlink_lt (ha : LinksAgree sb t) (i : ℕ) : (t i).nlink.toInt < 2 ^ 15 - 1 := by
  have hl := (h.counted ha).links i
  have hfew := h.few
  rw [Pi.zero_apply] at hl
  by_cases hd : (t i).type = .dir
  · have h1 := (h.counted ha).once i hd
    have h2 := h.shaped.subdirs_add_two_le hd (h.inum i (by simp [hd])).2
    have hroot : (if i = ROOTINO then 1 else 0) ≤ 1 := by split <;> omega
    omega
  have h1 : names sb t i ≤ _ := h.shaped.names_le i
  have hroot : i ≠ ROOTINO := by
    rintro rfl
    exact hd h.root
  rw [subdirs, Inode.count_of_type hd, if_neg hroot] at hl
  omega

end LaidOut

theorem Counted.linksAgree (h : Counted sb 0 t) (hup : Upward t) : LinksAgree sb t := by
  intro i hi
  rw [h.links i, Pi.zero_apply]
  by_cases hd : (t i).type = .dir
  · rw [if_pos hd, h.shaped.names_eq, h.shaped.subdirs_eq hd]
    push_cast
    exact add_zero _
  have hroot : i ≠ ROOTINO := by
    rintro rfl
    exact hd h.root
  rw [if_neg hd, h.shaped.naming_eq hd, subdirs, Inode.count_of_type hd, if_neg hroot]
  · push_cast
    rfl
  · rintro d hdir rfl
    rcases hup d hdir with hp | hp
    · exact hd hp
    · exact hi hp

structure Agrees (sb : Super) (extra : ℕ → ℕ) (t : Table) : Prop where
  counted : Counted sb extra t
  upward : Upward t

namespace Agrees

variable (h : Agrees sb extra t)
include h

variable {extra' : ℕ → ℕ}

theorem of_shape (hc : Counted sb extra' t') (ht : ∀ j, (t' j).type = (t j).type)
    (he : ∀ j, (t' j).entries.take 2 = (t j).entries.take 2) : Agrees sb extra' t' := by
  refine ⟨hc, fun d hd => ?_⟩
  rw [Inode.parent_eq_of_take (he d), ht]
  exact h.upward d (ht d ▸ hd)

theorem relink {k : Int16}
    (hc : Counted sb extra' (update t i { t i with nlink := k })) :
    Agrees sb extra' (update t i { t i with nlink := k }) :=
  h.of_shape hc (update_proj (·.type) (by rfl)) (update_proj (fun x => x.entries.take 2) (by rfl))

theorem storeEntry {e : Dirent} (hdp : (t dp).type = .dir) (hn : 2 ≤ n)
    (hc : Counted sb extra' (storeEntry t dp n e)) : Agrees sb extra' (Sys.storeEntry t dp n e) :=
  h.of_shape hc storeEntry_type (h.counted.take_storeEntry hdp hn)

theorem create {x : Inode} (hfree : (t i).type = .free)
    (hi : 0 < i ∧ i < sb.ninodes) (hextra : extra i = 0) (hlink : x.nlink = 1)
    (hdp : (t dp).type = .dir) (hdots : x.type = .dir → x.entries = [⟨i, dot⟩, ⟨dp, dotdot⟩])
    (hnot : ∀ d, (t d).type = .dir → (t d).parent ≠ i) :
    Agrees sb (plus extra i) (update t i x) := by
  have hne : dp ≠ i := by
    rintro rfl
    rw [hdp] at hfree
    cases hfree
  have hdp0 : dp ≠ 0 := Nat.pos_iff_ne_zero.1 (h.counted.inum dp (by simp [hdp])).1
  refine ⟨(h.counted.create hfree hi hextra hlink fun hd => ⟨dp, hdp0, hdots hd⟩).1, fun d hd => ?_⟩
  by_cases hdi : d = i
  · subst hdi
    rw [update_self] at hd ⊢
    have hp : x.parent = dp := by rw [Inode.parent, hdots hd]; rfl
    rw [hp, update_of_ne hne]
    exact .inl hdp
  · rw [update_of_ne hdi] at hd ⊢
    rw [update_of_ne (hnot d hd)]
    exact h.upward d hd

theorem free (hlive : (t i).type ≠ .free) (hz : (t i).nlink = 0)
    (hold : ∀ q, (t i).count q = 0) : Agrees sb extra (update t i (Fs.freed (t i))) := by
  refine ⟨(h.counted.free hlive hz hold).1, fun d hd => ?_⟩
  by_cases hdi : d = i
  · subst hdi
    rw [update_self] at hd
    cases hd
  rw [update_of_ne hdi] at hd ⊢
  by_cases hp : (t d).parent = i
  · rw [hp, update_self]
    exact .inr rfl
  · rw [update_of_ne hp]
    exact h.upward d hd

end Agrees

theorem LaidOut.agrees (h : LaidOut sb t) (ha : LinksAgree sb t) : Agrees sb 0 t :=
  ⟨h.counted ha, fun _ hd => .inl (h.up hd)⟩

abbrev Ends (sb : Super) (_ : Int) (s : Fs P) : Prop := Agrees sb 0 s.inode

def Spare (s : Fs P) (i : ℕ) : Prop := (s.inode i).nlink = 0 → 2 ≤ s.ref i

theorem Spare.not_dead (h : Spare s i) : s.dead i = false := by
  by_contra hd
  rw [Bool.not_eq_false] at hd
  simp only [Fs.dead, Bool.and_eq_true, decide_eq_true_eq] at hd
  have := h hd.1.2
  omega

theorem Spare.put_inode (h : Spare s i) : ((s.reap i).drop i).inode = s.inode := by
  rw [Fs.reap_of_not_dead h.not_dead]
  rfl

theorem Looking.spare {s0 : Fs P} {m : Multiset ℕ} (h : Looking s0 m s) (hs : Sound s0)
    (hi : i ∈ m) (ht : (s0.inode i).type ≠ .free) : Spare s i := by
  intro hz
  rw [h.inode] at hz
  have := hs.live i ht hz
  have := h.ref i
  have := Multiset.count_pos.2 hi
  omega

theorem Spare.writeEntry {e : Dirent} (h : Spare s i) : Spare (s.writeEntry dp n e) i := by
  intro hz
  have hn : ((s.writeEntry dp n e).inode i).nlink = (s.inode i).nlink := storeEntry_nlink i
  exact h (hn ▸ hz)

theorem Spare.ends_put {r : Int} (hsp : Spare s i) (h : Agrees sb 0 s.inode) :
    Seq False (iunlockput .iput i >>= fun _ => endOp >>= fun _ => pure r) (Ends sb) s := by
  refine seq_bind (seq_iunlockput ?_)
  show Agrees sb 0 ((s.reap i).drop i).inode
  rwa [hsp.put_inode]

section
variable {p : P}

theorem ends_linkBad (h : Agrees sb (plus 0 ip) s.inode) (hip : (s.inode ip).type ≠ .free)
    (hspare : (s.inode ip).nlink + -1 = 0 → 2 ≤ s.ref ip) : Seq False (linkBad ip) (Ends sb) s := by
  refine seq_bind (seq_ilock_live hip fun _ => seq_modify ?_)
  have hsp : Spare ((s.load ip).addLink ip (-1)) ip := by
    intro hz
    have hself : ((s.load ip).addLink ip (-1)).inode ip =
        { s.inode ip with nlink := (s.inode ip).nlink + -1 } := update_self ..
    rw [hself] at hz
    exact hspare hz
  exact hsp.ends_put (h.relink h.counted.subLink)

theorem ends_linkEnter {new : Path} (hs : Sound s) (h : Agrees sb (plus 0 ip) s.inode)
    (hcwd : s.cwd p ≠ 0) (hfree : (s.inode ip).type ≠ .free) (hdir : (s.inode ip).type ≠ .dir)
    (hspare : (s.inode ip).nlink + -1 = 0 → 2 ≤ s.ref ip) :
    Seq False (linkEnter sb p new ip) (Ends sb) s := by
  have hbad : ∀ s', Looking s 0 s' → Seq False (linkBad ip) (Ends sb) s' := by
    intro s' h'
    have href := h'.ref ip
    rw [count_zero, Nat.add_zero] at href
    rw [← h'.inode] at h hfree hspare
    exact ends_linkBad h hfree (href ▸ hspare)
  refine seq_bind (look_namex hs False.elim hcwd fun r s1 hr h1 => ?_)
  rcases r with _ | ⟨dp, name⟩
  · exact hbad s1 h1
  change Looking s (dp ::ₘ 0) s1 at h1
  have hdp : (s.inode dp).type = .dir := walk_dir hr.symm
  refine seq_bind (look_ilock h1 False.elim fun ht _ h2 => seq_bind ?_)
  refine look_dirlink h2 hs (fun s3 h3 => ?_) fun _ hslot => ?_
  · refine seq_bind (look_iunlockput h3 hs fun s4 h4 => ?_)
    rw [if_pos (by decide)]
    exact hbad s4 h4
  obtain ⟨hn, hlen, hold⟩ := h.counted.spare_spec (n := s.spare dp) hdp rfl
  have hahead : ahead s.inode 0 dp ip = plus 0 ip := if_neg hdir
  have hc : Counted sb 0 (storeEntry s.inode dp (s.spare dp) ⟨ip, name⟩) :=
    Counted.enter (hahead ▸ h.counted) hdp hn hlen hold hfree (fun hd => absurd hd hdir)
      (h.counted.plain_of_slot hdp hslot)
  have hsp : Spare ((s1.load dp).writeEntry dp (s.spare dp) ⟨ip, name⟩) dp :=
    (h2.spare hs (mem_cons_self dp 0) ht).writeEntry
  have hinode : ((s1.load dp).writeEntry dp (s.spare dp) ⟨ip, name⟩).inode =
      storeEntry s.inode dp (s.spare dp) ⟨ip, name⟩ := by
    rw [← h2.inode]
    rfl
  generalize (s1.load dp).writeEntry dp (s.spare dp) ⟨ip, name⟩ = s3 at hsp hinode ⊢
  refine seq_bind (seq_iunlockput ?_)
  rw [if_neg (by decide)]
  refine seq_bind (seq_iput ?_)
  have hlink : Spare ((s3.reap dp).drop dp) ip := by
    intro hz
    rw [hsp.put_inode, hinode, storeEntry_nlink] at hz
    have hone := (h.counted.of_nlink_eq_zero hz).2.2.2
    rw [plus, if_pos rfl] at hone
    omega
  show Agrees sb 0 ((((s3.reap dp).drop dp).reap ip).drop ip).inode
  rw [hlink.put_inode, hsp.put_inode, hinode]
  exact h.storeEntry hdp hn hc

theorem Sound.addLink {m : Multiset ℕ} {a : Fs P} (hs : Sound s) (h : Looking s m a)
    (hz : (s.inode ip).nlink + 1 ≠ 0) : Sound (a.addLink ip 1) := by
  have htype : ∀ j, ((a.addLink ip 1).inode j).type = (s.inode j).type := fun j => by
    rw [← h.inode]
    exact update_proj (·.type) (by rfl) j
  refine ⟨fun j hj hnl => ?_, fun j hj => ?_, fun p hp => ?_⟩
  · rw [htype] at hj
    have hne : j ≠ ip := by
      rintro rfl
      have hself : (a.addLink j 1).inode j = { s.inode j with nlink := (s.inode j).nlink + 1 } := by
        rw [← h.inode]
        exact update_self ..
      rw [hself] at hnl
      exact hz hnl
    have hrow : (a.addLink ip 1).inode j = s.inode j := by
      rw [← h.inode]
      exact update_of_ne hne ..
    have := hs.live j hj (hrow ▸ hnl)
    have hle : a.ref j = s.ref j + m.count j := h.ref j
    show 0 < a.ref j
    omega
  · exact h.stale j (htype j ▸ hj)
  · have hcwd : (a.addLink ip 1).cwd = s.cwd := h.use.cwd
    rw [hcwd] at hp ⊢
    have := hs.cwd p hp
    have hle : a.ref (s.cwd p) = s.ref (s.cwd p) + m.count (s.cwd p) := h.ref _
    show 0 < a.ref (s.cwd p)
    omega

theorem seq_beginOp_sound {α : Type} {k : Unit → Op P α} {Q : α → Fs P → Prop} (hs : Sound s)
    (hk : ∀ b, Sound b → b.inode = s.inode → b.cwd = s.cwd → b.ref = s.ref → b.file = s.file →
      Seq False (k ()) Q b) : Seq False (beginOp >>= k) Q s :=
  seq_modify (hk _ ⟨hs.live, hs.stale, hs.cwd⟩ rfl rfl rfl rfl)

theorem ends_sysLink {old new : Option Path} (hs : Sound s) (hl : LaidOut sb s.inode)
    (ha : LinksAgree sb s.inode) (hcwd : s.cwd p ≠ 0) :
    Seq False (sysLink sb p old new) (Ends sb) s := by
  have h := hl.agrees ha
  have hmax := hl.nlink_lt ha
  cases old with
  | none => exact h
  | some old =>
    cases new with
    | none => exact h
    | some new =>
      refine seq_beginOp_sound hs fun b hs hinode hcwd' _ _ => seq_bind ?_
      rw [← hinode] at h hmax
      rw [← hcwd'] at hcwd
      refine look_namei hs False.elim hcwd fun r s1 h1 => ?_
      cases r with
      | none =>
        show Agrees sb 0 s1.inode
        rwa [h1.inode]
      | some ip =>
        change Looking b (ip ::ₘ 0) s1 at h1
        refine seq_bind (look_ilock h1 False.elim fun ht _ h2 => ?_)
        show Seq False (if ((s1.load ip).inode ip).type = .dir then _ else _) _ (s1.load ip)
        rw [h2.inode]
        split
        · refine seq_bind (look_iunlockput h2 hs fun s3 h3 => ?_)
          show Agrees sb 0 s3.inode
          rwa [h3.inode]
        rename_i hdir
        have hadd := h.relink (h.counted.addLink ip (hmax ip))
        have hinode3 : ((s1.load ip).addLink ip 1).inode = update b.inode ip
              { b.inode ip with nlink := (b.inode ip).nlink + 1 } := by
          rw [← h2.inode]
          rfl
        have hself : (((s1.load ip).addLink ip 1).inode ip) =
            { b.inode ip with nlink := (b.inode ip).nlink + 1 } := by
          rw [hinode3, update_self]
        have hs3 : Sound ((s1.load ip).addLink ip 1) := by
          refine hs.addLink h2 fun hz => ?_
          have hlinks := (hadd.counted.of_nlink_eq_zero
            ((congrArg Inode.nlink (update_self ..)).trans hz)).2.2.2
          rw [plus, if_pos rfl] at hlinks
          omega
        have href : ((s1.load ip).addLink ip 1).ref ip = b.ref ip + 1 :=
          (h2.ref ip).trans (by rw [count_cons_self, count_zero])
        have hcwd3 : ((s1.load ip).addLink ip 1).cwd p ≠ 0 := by
          rw [← h2.use.cwd] at hcwd
          exact hcwd
        rw [← hinode3] at hadd
        refine seq_modify (seq_bind (seq_iunlock ?_))
        refine ends_linkEnter hs3 hadd hcwd3 (by rwa [hself]) (by rwa [hself]) fun hz => ?_
        have hz : (b.inode ip).nlink + 1 + -1 = 0 := by rwa [hself] at hz
        rw [Int16.add_assoc, show (1 + -1 : Int16) = 0 from rfl, Int16.add_zero] at hz
        have := hs.live ip ht hz
        omega

end

section
variable {p : P} {type : IType} {major minor : Int16}

def Created (sb : Super) (b : Fs P) (r : Option ℕ) (s : Fs P) : Prop :=
  Agrees sb 0 s.inode ∧ s.file = b.file ∧ ∀ i ∈ r, Spare s i

variable {b : Fs P}

theorem created_enter {x : Inode} (h : Agrees sb extra b.inode)
    (hextra : (if x.type = .dir then plus 0 dp else 0) = extra) (hm : Made b s i x)
    (hi : 0 < i ∧ i < sb.ninodes) (hfree : (b.inode i).type = .free)
    (hdp : (b.inode dp).type = .dir) (hslot : b.slot dp name = none) (hx : x.type ≠ .free)
    (hlink : x.nlink = 1) (hdots : x.type = .dir → x.entries = [⟨i, dot⟩, ⟨dp, dotdot⟩])
    (hnot : ∀ d, (b.inode d).type = .dir → (b.inode d).parent ≠ i) (hspare : Spare b dp) :
    Seq False (do
      let r ← dirlink sb dp name i
      if r < 0 then .panic .createDirlink
      else do
        iunlockput .putParent dp
        pure (some i)) (Created sb b) s := by
  have hne : dp ≠ i := by
    rintro rfl
    simp [hdp] at hfree
  have hself : s.inode i = x := by rw [hm.inode, update_self]
  have hrow : s.inode dp = b.inode dp := by rw [hm.inode, update_of_ne hne]
  subst hextra
  have hzero : (if x.type = .dir then plus 0 dp else 0) i = 0 := by
    split
    · simp [plus, Ne.symm hne]
    · rfl
  have h1 := h.create hfree hi hzero hlink hdp hdots hnot
  have hahead : plus (if x.type = .dir then plus 0 dp else 0) i = ahead s.inode 0 dp i := by
    rw [ahead, hself]
    split
    · exact plus_comm 0 dp i
    · rfl
  rw [← hm.inode, hahead] at h1
  have hslot : s.slot dp name = none := by rwa [Fs.slot, hrow]
  have hdp : (s.inode dp).type = .dir := by rwa [hrow]
  have hnames : names sb s.inode i = 0 := by
    rw [hm.inode, (h.counted.create hfree hi hzero hlink fun hd =>
      ⟨dp, Nat.pos_iff_ne_zero.1 (h1.counted.inum dp (by simp [hdp])).1, hdots hd⟩).2]
    exact names_of_free h.counted.kids hfree
  refine seq_bind (seq_dirlink_new hslot fun _ _ => ?_)
  rw [if_neg (by decide)]
  obtain ⟨hn, hlen, hold⟩ := h1.counted.spare_spec (n := s.spare dp) hdp rfl
  have hc : Counted sb 0 (storeEntry s.inode dp (s.spare dp) ⟨i, name⟩) :=
    h1.counted.enter hdp hn hlen hold (by rwa [hself]) (fun _ => hnames)
      (h1.counted.plain_of_slot hdp hslot)
  have hsp : Spare (s.writeEntry dp (s.spare dp) ⟨i, name⟩) dp := by
    refine .writeEntry fun hz => ?_
    rw [hm.ref, if_neg hne]
    exact hspare (hrow ▸ hz)
  refine seq_bind (seq_iunlockput ⟨?_, (Fs.put_file _ dp).trans hm.file, ?_⟩)
  · rw [hsp.put_inode]
    exact h1.storeEntry hdp hn hc
  rintro j hj hz
  obtain rfl := Option.some.inj hj
  rw [hsp.put_inode] at hz
  have hone : ((s.writeEntry dp (s.spare dp) ⟨i, name⟩).inode i).nlink = 1 :=
    (storeEntry_nlink i).trans (by rw [hself, hlink])
  rw [hone] at hz
  cases hz

theorem created_new (hs : Sound s) (hl : LaidOut sb s.inode) (ha : LinksAgree sb s.inode)
    (htype : type ≠ .free) (hdp : (s.inode dp).type = .dir) (hslot : s.slot dp name = none)
    (hb : Looking s (dp ::ₘ 0) b) :
    Seq False (createNew sb dp name type major minor) (Created sb b) b := by
  have hspare : Spare b dp := hb.spare hs (mem_cons_self dp 0) (by simp [hdp])
  rw [← hb.inode] at hl ha hdp
  have h := hl.agrees ha
  have hslot : b.slot dp name = none := by rwa [Fs.slot, hb.inode]
  refine seq_bind (seq_ialloc fun i hpos hlt hfree => ?_)
  have hm := made_alloc b i type major minor
  have hq := quiet_iget (b.alloc i type) i
  have hnot : ∀ d, (b.inode d).type = .dir → (b.inode d).parent ≠ i := by
    rintro d hd rfl
    rw [hl.up hd] at hfree
    cases hfree
  refine seq_bind (seq_ilock_live ?_ fun _ => seq_modify ?_)
  · rw [hq.inode]
    simpa [Fs.alloc] using htype
  generalize (((b.alloc i type).iget i).load i).initInode i major minor = s1 at hm ⊢
  by_cases hdir : type = .dir
  · subst hdir
    have hne : dp ≠ i := by
      rintro rfl
      simp [hdp] at hfree
    have h1 := h.relink (h.counted.addLink dp (hl.nlink_lt ha dp))
    have htypes : ∀ j, ((b.addLink dp 1).inode j).type = (b.inode j).type :=
      update_proj (·.type) (by rfl)
    have hentries : ∀ j, ((b.addLink dp 1).inode j).entries = (b.inode j).entries :=
      update_proj (·.entries) (by rfl)
    have hparent : ∀ j, ((b.addLink dp 1).inode j).parent = (b.inode j).parent :=
      update_proj Inode.parent (by rfl)
    have hlinks : Spare (b.addLink dp 1) dp := by
      intro hz
      have hone := (h1.counted.of_nlink_eq_zero hz).2.2.2
      rw [plus, if_pos rfl] at hone
      omega
    rw [if_pos rfl]
    refine seq_bind (seq_createDots hm (by omega) hne fun s2 hm2 _ => ?_)
    refine created_enter (b := b.addLink dp 1) h1 (if_pos rfl) hm2 ⟨hpos, hlt⟩ (by rwa [htypes])
      (by rwa [htypes]) (by rwa [Fs.slot, hentries]) htype rfl (fun _ => rfl) (fun d hd => ?_)
      hlinks
    rw [htypes] at hd
    rw [hparent]
    exact hnot d hd
  · rw [if_neg hdir]
    exact created_enter h (if_neg hdir) hm ⟨hpos, hlt⟩ hfree hdp hslot htype rfl
      (fun hd => absurd hd hdir) hnot hspare

theorem created_create {path : Path} (hs : Sound s) (hl : LaidOut sb s.inode)
    (ha : LinksAgree sb s.inode) (hcwd : s.cwd p ≠ 0) (htype : type ≠ .free) :
    Seq False (create sb p path type major minor) (Created sb s) s := by
  have h := hl.agrees ha
  refine seq_bind (look_namex hs False.elim hcwd fun r s1 hr h1 => ?_)
  have hsame : ∀ s', Looking s 0 s' → Created sb s none s' := fun s' h' =>
    ⟨by rwa [h'.inode], h'.use.file, fun i hi => by cases hi⟩
  rcases r with _ | ⟨dp, name⟩
  · exact hsame s1 h1
  change Looking s (dp ::ₘ 0) s1 at h1
  have hdp : (s.inode dp).type = .dir := walk_dir hr.symm
  refine seq_bind (look_ilock h1 False.elim fun _ _ h2 => seq_bind ?_)
  refine look_dirlookup h2 (fun _ hslot => ?_) fun _ n _ s3 h3 => ?_
  · refine Prog.wp_mono (created_new hs hl ha htype hdp hslot h2) fun r s' hr => ?_
    exact ⟨hr.1, hr.2.1.trans h2.use.file, hr.2.2⟩
  refine seq_bind (look_iunlockput h3.swap hs fun s4 h4 => ?_)
  refine seq_bind (look_ilock h4 False.elim fun ht _ h5 => ?_)
  show Seq False (if _ then _ else _) _ _
  split
  · have hag : Agrees sb 0 (s4.load (s.entry dp n).inum).inode := by rwa [h5.inode]
    refine ⟨hag, h5.use.file, fun i hi => ?_⟩
    obtain rfl := Option.some.inj hi
    exact h5.spare hs (mem_cons_self _ 0) ht
  · exact seq_bind (look_iunlockput h5 hs hsame)

theorem ends_mknodEnd {r : Option ℕ} (h : Created sb b r s) :
    Seq False (mknodEnd r) (Ends sb) s := by
  cases r with
  | none => exact h.1
  | some i => exact (h.2.2 i rfl).ends_put h.1

theorem ends_mknod {path : Option Path} (hs : Sound s) (hl : LaidOut sb s.inode)
    (ha : LinksAgree sb s.inode) (hcwd : s.cwd p ≠ 0) (htype : type ≠ .free) :
    Seq False (makeNode sb p path type major minor) (Ends sb) s := by
  refine seq_beginOp_sound hs fun b hs hinode hcwd' _ _ => ?_
  rw [← hinode] at hl ha
  rw [← hcwd'] at hcwd
  cases path with
  | none => exact hl.agrees ha
  | some path =>
    exact seq_bind (Prog.wp_mono (created_create hs hl ha hcwd htype) fun _ _ => ends_mknodEnd)

theorem seq_filealloc_slot {Q : Option (Fin NFILE) → Fs P → Prop} (hnone : Q none s)
    (hsome : ∀ f, (s.file f).ref = 0 → Q (some f) (s.setFile f { s.file f with ref := 1 })) :
    Seq False filealloc Q s := by
  refine (Prog.wp_act _ _).2 ?_
  cases hf : (List.finRange NFILE).find? fun f => decide ((s.file f).ref = 0) with
  | none => exact hnone
  | some f =>
    have hz := List.find?_some hf
    exact hsome f (of_decide_eq_true hz)

theorem seq_fdalloc_slot [DecidableEq P] {Q : Option (Fin NOFILE) → Fs P → Prop} {f : Fin NFILE}
    (hnone : Q none s) (hsome : ∀ d, Q (some d) (s.setOfile p d (some f))) :
    Seq False (fdalloc p f) Q s := by
  refine (Prog.wp_act _ _).2 ?_
  cases s.spareFd p with
  | none => exact hnone
  | some d => exact hsome d

theorem seq_fileclose_none {Q : Unit → Fs P → Prop} {f : Fin NFILE}
    (hf : (s.file f).type = .none) (hQ : Q () (s.closeFile f)) : Seq False (fileclose f) Q s := by
  show Prog.wp _ (if (s.file f).ref < 1 then _ else _) _ (s.closeFile f)
  split
  · exact may_of_ne (by decide) (by decide)
  show Prog.wp _ (if 1 < (s.file f).ref then _ else _) _ _
  split
  · exact hQ
  · rw [if_neg (by rw [hf]; decide)]
    exact hQ

theorem inode_closeFile (s : Fs P) (f : Fin NFILE) :
    (s.closeFile f).inode = s.inode ∧ (s.closeFile f).ref = s.ref := by
  unfold Fs.closeFile
  split
  · exact ⟨rfl, rfl⟩
  · exact ⟨rfl, rfl⟩

theorem ends_openFile [DecidableEq P] {omode : UInt32} (hag : Agrees sb 0 s.inode)
    (hsp : Spare s ip) (hfile : ∀ f, (s.file f).ref = 0 → (s.file f).type = .none) :
    Seq False (openFile p ip omode) (Ends sb) s := by
  refine seq_bind (seq_filealloc_slot (hsp.ends_put hag) fun f hf => ?_)
  refine seq_bind (seq_fdalloc_slot ?_ fun d => ?_)
  · refine seq_bind (seq_fileclose_none ?_ ?_)
    · rw [Fs.setFile_file_self]
      exact hfile f hf
    obtain ⟨hinode, href⟩ := inode_closeFile (s.setFile f { s.file f with ref := 1 }) f
    refine Spare.ends_put (fun hz => ?_) (by rwa [hinode])
    rw [hinode] at hz
    rw [href]
    exact hsp hz
  · exact seq_bind (seq_iunlock hag)

theorem ends_sysOpen [DecidableEq P] {path : Option Path} {omode : UInt32} (hs : Sound s)
    (hl : LaidOut sb s.inode) (ha : LinksAgree sb s.inode)
    (hfile : ∀ f, (s.file f).ref = 0 → (s.file f).type = .none) (hcwd : s.cwd p ≠ 0)
    (hc : omode &&& O_CREATE ≠ 0) : Seq False (sysOpen sb p path omode) (Ends sb) s := by
  cases path with
  | none => exact hl.agrees ha
  | some path =>
    refine seq_beginOp_sound hs fun b hs hinode hcwd' _ hfile' => seq_bind ?_
    rw [← hinode] at hl ha
    rw [← hcwd'] at hcwd
    rw [← hfile'] at hfile
    rw [openInode, if_pos hc]
    refine Prog.wp_mono (created_create hs hl ha hcwd (by decide)) fun r s1 h1 => ?_
    obtain ⟨hag, hsame, hsp⟩ := h1
    cases r with
    | none => exact hag
    | some i =>
      rw [← hsame] at hfile
      exact ends_openFile hag (hsp i rfl) hfile

end

end Xv6.Sys
