import Xv6.Sys.Counts

namespace Xv6.Sys

open Lib Function
open Multiset (count_cons_self count_zero mem_cons_self)

variable {P : Type} {sb : Super} {extra : ℕ → ℕ} {t t' : Table} {s b : Fs P} {dp ip n i : ℕ}
  {name : Name}

def Strands (s : Fs P) (dp : ℕ) (name : Name) : Prop :=
  name ≠ dot ∧ name ≠ dotdot ∧ ∃ ip, lookup (s.inode dp) name = some ip ∧
    (s.inode ip).type = .dir ∧ s.isdirempty ip = true ∧ (s.inode dp).nlink = 1 ∧ s.ref dp = 0 ∧
    1 < (s.inode dp).entryCount Dirent.plain

def KeepsNames (s : Fs P) (p : P) (path : Path) : Prop :=
  ∀ dp name, s.resolve p path true = some (dp, name) → ¬Strands s dp name

structure Removes (s : Fs P) (dp : ℕ) (name : Name) (n ip : ℕ) : Prop where
  dir : (s.inode dp).type = .dir
  plain : name ≠ dot ∧ name ≠ dotdot
  found : lookup (s.inode dp) name = some ip
  first : 2 ≤ n
  lt : n < (s.inode dp).entries.length
  entry : (s.entry dp n).inum = ip
  pos : ip ≠ 0
  live : (s.inode ip).type ≠ .free
  empty : (s.inode ip).type = .dir → ∀ e ∈ (s.inode ip).entries.drop 2, e.inum = 0
  ne : ip ≠ dp

def Refuses (s : Fs P) (dp : ℕ) (name : Name) : Prop :=
  name = dot ∨ name = dotdot ∨ ∀ ip, lookup (s.inode dp) name = some ip →
    (s.inode ip).type = .dir ∧ s.isdirempty ip = false

theorem strands_congr (hinode : b.inode = s.inode) (href : b.ref = s.ref) :
    Strands b dp name ↔ Strands s dp name := by
  unfold Strands Fs.isdirempty
  rw [hinode, href]

theorem Strands.not_refuses (h : Strands s dp name) : ¬Refuses s dp name := by
  obtain ⟨h1, h2, ip, hl, -, hempty, -⟩ := h
  rintro (hr | hr | hr)
  · exact h1 hr
  · exact h2 hr
  · exact absurd (hempty.symm.trans (hr ip hl).2) Bool.noConfusion

section
variable {p : P} {Q : Int → Fs P → Prop}

theorem cases_unlinkName (hs : Sound s) (h : Counted sb 0 s.inode) (hb : Looking s (dp ::ₘ 0) b)
    (hv : b.valid dp = true) (hdp : (s.inode dp).type = .dir)
    (hbad : ∀ s' : Fs P, Refuses s dp name → s'.inode = s.inode → Q (-1) s')
    (hgo : ∀ n ip b', Removes s dp name n ip → Looking s (ip ::ₘ dp ::ₘ 0) b' →
      b'.valid dp = true → Seq False (unlinkEntry dp n ip) Q b') :
    Seq False (unlinkName sb dp name) Q b := by
  have hout : Refuses s dp name → ∀ s', Looking s (dp ::ₘ 0) s' →
      Seq False (unlinkBad dp) Q s' := by
    intro hr s' h'
    refine seq_bind (look_iunlockput h' hs fun s'' h'' => seq_modify ?_)
    exact hbad { s'' with outstanding := s''.outstanding - 1 } hr h''.inode
  unfold unlinkName
  split
  · rename_i hdots
    exact hout (or_assoc.1 (.inl hdots)) b hb
  rename_i hplain
  rw [not_or] at hplain
  have hsb := hb.sound hs
  have hslots : ∀ k, b.slot dp name = k → s.slot dp name = k := fun k hk => by
    rw [← hk, Fs.slot, Fs.slot, hb.inode]
  refine seq_bind (look_dirlookup (.start hsb) (fun _ hslot => hout (.inr (.inr ?_)) b hb)
    fun _ n hslot s1 h1 => ?_)
  · rw [Fs.lookup_slot, hslots _ hslot]
    exact fun ip hip => absurd hip (Option.some_ne_none ip).symm
  obtain ⟨hn, hlen, he, hmem, hl⟩ := h.slot_spec hdp (hslots _ hslot) hplain.1 hplain.2
  have hfree := h.kids dp hdp _ hmem he
  rw [show b.entry dp n = s.entry dp n by rw [Fs.entry, Fs.entry, hb.inode]] at h1 ⊢
  generalize hip : (s.entry dp n).inum = ip at hfree hl h1 he ⊢
  refine seq_bind (look_ilock h1 False.elim fun _ _ h2 => ?_)
  have hv2 := h2.valid dp hv (hb.ref_pos (mem_cons_self dp 0))
  have h2 : Looking s (ip ::ₘ dp ::ₘ 0) (s1.load ip) := hb.trans h2
  show Seq False (if _ then _ else _) _ (s1.load ip)
  split
  · exact may_of_ne (by decide) (by decide)
  have hempty' : (s1.load ip).isdirempty ip = s.isdirempty ip := by
    rw [Fs.isdirempty, h2.inode, Fs.isdirempty]
  simp only [h2.inode, hempty']
  split
  · rename_i hfull
    refine seq_bind (look_iunlockput h2 hs (hout (.inr (.inr fun j hj => ?_))))
    rwa [← Option.some.inj (hl.symm.trans hj)]
  rename_i hok
  rw [not_and, Bool.not_eq_false] at hok
  have hempty : (s.inode ip).type = .dir → ∀ e ∈ (s.inode ip).entries.drop 2, e.inum = 0 := by
    intro hd
    simpa [Fs.isdirempty] using hok hd
  refine hgo n ip _ ⟨hdp, hplain, hl, hn, hlen, hip, he, hfree, hempty, ?_⟩ h2 hv2
  rintro rfl
  exact he (hip ▸ hempty hdp _ hmem)

theorem cases_sysUnlink {path : Path} (hs : Sound s) (h : Counted sb 0 s.inode)
    (hcwd : s.cwd p ≠ 0)
    (hnone : ∀ s', s.resolve p path true = none → s'.inode = s.inode → Q (-1) s')
    (hbad : ∀ dp name s', s.resolve p path true = some (dp, name) → Refuses s dp name →
      s'.inode = s.inode → Q (-1) s')
    (hgo : ∀ dp name n ip (b : Fs P) b', b.inode = s.inode → b.ref = s.ref → Sound b →
      s.resolve p path true = some (dp, name) → Removes b dp name n ip →
      Looking b (ip ::ₘ dp ::ₘ 0) b' → b'.valid dp = true →
      Seq False (unlinkEntry dp n ip) Q b') : Seq False (sysUnlink sb p (some path)) Q s := by
  refine seq_beginOp_sound hs fun b hsb hinode hcwd' href _ => seq_bind ?_
  have hresolve : b.resolve p path true = s.resolve p path true := by
    rw [Fs.resolve, Fs.resolve, hinode, hcwd']
  have hrefuses : ∀ dp name, Refuses b dp name → Refuses s dp name := fun dp name hr => by
    unfold Refuses Fs.isdirempty at hr ⊢
    rwa [hinode] at hr
  refine look_namex hsb False.elim (hcwd' ▸ hcwd) fun r s1 hr h1 => ?_
  rcases r with _ | ⟨dp, name⟩
  · exact hnone { s1 with outstanding := s1.outstanding - 1 } (hresolve.symm.trans hr.symm)
      (h1.inode.trans hinode)
  · change Looking b (dp ::ₘ 0) s1 at h1
    have hdp : (b.inode dp).type = .dir := walk_dir hr.symm
    refine seq_bind (look_ilock h1 False.elim fun _ _ h2 => ?_)
    refine cases_unlinkName hsb (hinode ▸ h) h2 (update_self ..) hdp (fun s' hbad' h' => ?_)
      fun n ip b' hgo' h' hv => hgo dp name n ip b b' hinode href hsb
        (hresolve.symm.trans hr.symm) hgo' h' hv
    exact hbad dp name s' (hresolve.symm.trans hr.symm) (hrefuses dp name hbad')
      (h'.trans hinode)

end

theorem Agrees.put (h : Agrees sb extra s.inode) (hlive : (s.inode i).type ≠ .free)
    (hold : (s.inode i).nlink = 0 → s.ref i = 1 → ∀ q, (s.inode i).count q = 0) :
    Agrees sb extra ((s.reap i).drop i).inode := by
  show Agrees sb extra (s.reap i).inode
  unfold Fs.reap
  split
  · rename_i hdead
    simp only [Fs.dead, Bool.and_eq_true, decide_eq_true_eq] at hdead
    exact h.free hlive hdead.1.2 (hold hdead.1.2 hdead.2)
  · exact h

theorem eq_one_of_sub {k : Int16} (h : k + -1 = 0) : k = 1 := by
  have hk : k + -1 + 1 = k := by
    rw [Int16.add_assoc, show (-1 + 1 : Int16) = 0 from rfl, Int16.add_zero]
  rw [← hk, h]
  rfl

theorem ends_unlinkEntry (hs : Sound s) (h : Agrees sb 0 s.inode) (hr : Removes s dp name n ip)
    (hb : Looking s (ip ::ₘ dp ::ₘ 0) b)
    (hkeep : (s.inode ip).type = .dir → (s.inode dp).nlink = 1 → s.ref dp = 0 →
      ∀ q, (storeEntry s.inode dp n .empty dp).count q = 0) :
    Seq False (unlinkEntry dp n ip) (Ends sb) b := by
  have hdp := hr.dir
  have hne := hr.ne
  have h1 := h.storeEntry hdp hr.first (h.counted.clear hdp hr.first hr.lt hr.entry hr.pos)
  have hinode1 : (b.writeEntry dp n .empty).inode = storeEntry s.inode dp n .empty := by
    rw [← hb.inode]
    rfl
  have href : b.ref dp = s.ref dp + 1 := by
    rw [hb.ref, Multiset.count_cons_of_ne (.symm hne), count_cons_self, count_zero]
  have hcount : ∀ q, (s.inode ip).count q = 0 := by
    intro q
    by_cases hd : (s.inode ip).type = .dir
    · exact Inode.count_of_empty (hr.empty hd) q
    · exact Inode.count_of_type hd q
  rw [← hinode1] at h1 hkeep
  generalize hs1 : b.writeEntry dp n .empty = s1 at h1 hinode1 hkeep
  have htype1 : ∀ j, (s1.inode j).type = (s.inode j).type := fun j => by
    rw [hinode1, storeEntry_type]
  have hlink1 : ∀ j, (s1.inode j).nlink = (s.inode j).nlink := fun j => by
    rw [hinode1, storeEntry_nlink]
  have hrow1 : s1.inode ip = s.inode ip := by rw [hinode1, storeEntry_of_ne hne]
  have href1 : s1.ref dp = s.ref dp + 1 := by
    rw [← hs1]
    exact href
  obtain ⟨s2, hs2, h2, htype2, hrow2, hput⟩ : ∃ s2, (if (s1.inode ip).type = .dir then
      s1.addLink dp (-1) else s1) = s2 ∧ Agrees sb (plus 0 ip) s2.inode ∧
      (s2.inode dp).type = .dir ∧ s2.inode ip = s.inode ip ∧
      ((s2.inode dp).nlink = 0 → s2.ref dp = 1 → ∀ q, (s2.inode dp).count q = 0) := by
    refine ⟨_, rfl, ?_⟩
    by_cases hdir : (s.inode ip).type = .dir
    · rw [if_pos ((htype1 ip).trans hdir)]
      rw [show ahead s.inode 0 dp ip = plus (plus 0 ip) dp from if_pos hdir] at h1
      have hself : (s1.addLink dp (-1)).inode dp =
          { s1.inode dp with nlink := (s1.inode dp).nlink + -1 } := update_self ..
      refine ⟨h1.relink h1.counted.subLink, ?_, ?_, fun hz hone' q => ?_⟩
      · rw [hself]
        exact (htype1 dp).trans hdp
      · exact (update_of_ne hne ..).trans hrow1
      have hsame : ((s1.addLink dp (-1)).inode dp).count q = (s1.inode dp).count q :=
        Inode.count_congr (by rw [hself]) (by rw [hself]) q
      rw [hself] at hz
      rw [hsame]
      have hone : (s1.inode dp).nlink = 1 := eq_one_of_sub hz
      rw [hlink1] at hone
      have hone' : s1.ref dp = 1 := hone'
      exact hkeep hdir hone (by omega) q
    · rw [if_neg (by rwa [htype1])]
      rw [show ahead s.inode 0 dp ip = plus 0 ip from if_neg hdir] at h1
      refine ⟨h1, (htype1 dp).trans hdp, hrow1, fun hz _ => ?_⟩
      rw [hlink1] at hz
      have := hs.live dp (by simp [hdp]) hz
      omega
  refine seq_modify (seq_modify ?_)
  rw [hs1, hs2]
  refine seq_bind (seq_iunlockput (seq_modify (seq_bind (seq_iunlockput ?_))))
  have h3 : Agrees sb (plus 0 ip) ((s2.reap dp).drop dp).inode :=
    h2.put (by simp [htype2]) hput
  have hrow3 : ((s2.reap dp).drop dp).inode ip = s.inode ip :=
    (Fs.put_inode_of_ne hne).trans hrow2
  generalize (s2.reap dp).drop dp = s3 at h3 hrow3 ⊢
  have hself : (s3.addLink ip (-1)).inode ip =
      { s.inode ip with nlink := (s.inode ip).nlink + -1 } := by
    rw [← hrow3]
    exact update_self ..
  refine .put (h3.relink h3.counted.subLink) ?_ fun _ _ q => ?_
  · rw [hself]
    exact hr.live
  · exact (Inode.count_congr (by rw [hself]) (by rw [hself]) q).trans (hcount q)

section
variable (h : Counted sb extra s.inode) (hr : Removes s dp name n ip)
include h hr

theorem Removes.count_clear :
    (Sys.storeEntry s.inode dp n .empty dp).count (fun _ => true) + 1 =
      (s.inode dp).entryCount Dirent.plain := by
  obtain ⟨par, rest, hshape⟩ := h.shaped dp hr.dir
  have hall : (s.inode dp).entryCount Dirent.plain = (s.inode dp).count fun _ => true := by
    rw [← hshape.entryCount_plain]
    simp only [Bool.and_true]
  have hold : ((s.inode dp).entries.getD n .empty).inum ≠ 0 := by
    rw [show (s.inode dp).entries.getD n .empty = s.entry dp n from rfl, hr.entry]
    exact hr.pos
  have hstore := Inode.count_store hr.dir hr.first hr.lt.le .empty fun _ => true
  rw [Dirent.leads_of_ne rfl hold, Dirent.leads_of_zero rfl] at hstore
  rw [hall, Sys.storeEntry, update_self]
  simpa only [↓reduceIte, Bool.false_eq_true, Nat.add_zero] using hstore

theorem Removes.count_eq_zero (hone : (s.inode dp).entryCount Dirent.plain ≤ 1) (q : ℕ → Bool) :
    (Sys.storeEntry s.inode dp n .empty dp).count q = 0 := by
  have hclear := hr.count_clear h
  have hzero : (Sys.storeEntry s.inode dp n .empty dp).count (fun _ => true) = 0 := by omega
  refine Nat.eq_zero_of_le_zero (le_of_le_of_eq ?_ hzero)
  unfold Inode.count
  split
  · refine List.countP_mono_left fun e _ he => ?_
    rw [Dirent.leads, Bool.and_true]
    exact (Bool.and_eq_true_iff.1 he).1
  · exact le_rfl

end

structure Dropped (s : Fs P) (dp ip : ℕ) (u : Fs P) : Prop where
  parent : (u.inode dp).type = .free
  child : ∀ q, (u.inode ip).entryCount q ≤ (s.inode ip).entryCount q
  rest : ∀ i, i ≠ dp → i ≠ ip → u.inode i = s.inode i

theorem entryCount_freed (x : Inode) (q : Dirent → Bool) : (Fs.freed x).entryCount q = 0 :=
  if_neg (by decide : IType.free ≠ .dir)

theorem drops_unlinkEntry (hr : Removes s dp name n ip) (hb : Looking s (ip ::ₘ dp ::ₘ 0) b)
    (hv : b.valid dp = true) (hdir : (s.inode ip).type = .dir) (hone : (s.inode dp).nlink = 1)
    (hzero : s.ref dp = 0) : Seq False (unlinkEntry dp n ip) (fun _ => Dropped s dp ip) b := by
  have hne := hr.ne
  have hrow : ∀ i, i ≠ dp → (b.writeEntry dp n .empty).inode i = s.inode i := fun i hi => by
    rw [← hb.inode]
    exact update_of_ne hi ..
  refine seq_modify (seq_modify ?_)
  rw [if_pos (by rw [hrow ip hne]; exact hdir)]
  generalize hs2 : (b.writeEntry dp n .empty).addLink dp (-1) = s2
  have hrow2 : ∀ i, i ≠ dp → s2.inode i = s.inode i := fun i hi => by
    rw [← hs2, ← hrow i hi]
    exact update_of_ne hi ..
  have hdead : s2.dead dp = true := by
    have hlink : (s2.inode dp).nlink = 0 := by
      have hold : ((b.writeEntry dp n .empty).inode dp).nlink = 1 := by
        rw [← hone, ← hb.inode]
        exact storeEntry_nlink dp
      rw [← hs2]
      refine (congrArg Inode.nlink (update_self ..)).trans ?_
      show ((b.writeEntry dp n .empty).inode dp).nlink + -1 = 0
      rw [hold]
      rfl
    have href : s2.ref dp = 1 := by
      have href : b.ref dp = 1 := by
        rw [hb.ref, hzero, Multiset.count_cons_of_ne (.symm hne), count_cons_self, count_zero]
      rw [← hs2]
      exact href
    have hv2 : s2.valid dp = true := by
      rw [← hs2]
      exact hv
    rw [Fs.dead, hv2, hlink, href]
    rfl
  refine seq_bind (seq_iunlockput (seq_modify (seq_bind (seq_iunlockput ?_))))
  have hrow3 : ∀ i, i ≠ dp → ((s2.reap dp).drop dp).inode i = s.inode i := fun i hi =>
    (Fs.put_inode_of_ne hi).trans (hrow2 i hi)
  have hfreed : (((s2.reap dp).drop dp).inode dp).type = .free := by
    show ((s2.reap dp).inode dp).type = .free
    rw [Fs.reap, if_pos hdead]
    show (update s2.inode dp (Fs.freed (s2.inode dp)) dp).type = .free
    rw [update_self]
    rfl
  generalize (s2.reap dp).drop dp = s3 at hrow3 hfreed ⊢
  refine ⟨?_, fun q => ?_, fun i hi hi' => ?_⟩
  · rw [Fs.put_inode_of_ne hne.symm]
    exact (congrArg Inode.type (update_of_ne hne.symm ..)).trans hfreed
  · have hself : (s3.addLink ip (-1)).inode ip =
        { s.inode ip with nlink := (s.inode ip).nlink + -1 } := by
      rw [← hrow3 ip hne]
      exact update_self ..
    show (((s3.addLink ip (-1)).reap ip).inode ip).entryCount q ≤ _
    unfold Fs.reap
    split
    · refine le_of_eq_of_le ?_ (Nat.zero_le _)
      exact (congrArg (Inode.entryCount · q) (update_self ..)).trans (entryCount_freed _ q)
    · exact (Inode.entryCount_congr (by rw [hself]) (by rw [hself]) q).le
  · rw [Fs.put_inode_of_ne hi']
    exact (update_of_ne hi' ..).trans (hrow3 i hi)

theorem Dropped.not_linksAgree {u : Fs P} {e : Dirent} (h : Dropped s dp ip u)
    (ha : LinksAgree sb s.inode) (hlt : dp < sb.ninodes) (hdp : (s.inode dp).type = .dir)
    (hdir : (s.inode ip).type = .dir) (he : e ∈ (s.inode dp).entries) (hz : e.inum ≠ 0)
    (hlive : (s.inode e.inum).type ≠ .free) (hfile : (s.inode e.inum).type ≠ .dir) :
    ¬LinksAgree sb u.inode := by
  intro hu
  have hsame : u.inode e.inum = s.inode e.inum := by
    refine h.rest _ (fun hc => hfile ?_) fun hc => hfile ?_
    · rw [hc, hdp]
    · rw [hc, hdir]
  have hgone : ∀ q, (u.inode dp).entryCount q = 0 := fun q => if_neg (by rw [h.parent]; decide)
  have hold := ha e.inum hlive
  have hnew := hu e.inum (hsame ▸ hlive)
  rw [if_neg hfile] at hold
  rw [hsame, if_neg hfile, hold, Nat.cast_inj] at hnew
  refine absurd hnew (ne_of_gt (Finset.sum_lt_sum (fun d _ => ?_)
    ⟨dp, Finset.mem_range.2 hlt, ?_⟩))
  · by_cases hd : d = dp
    · rw [hd, hgone]
      exact Nat.zero_le _
    by_cases hd' : d = ip
    · rw [hd']
      exact h.child _
    · rw [h.rest d hd hd']
  · rw [hgone, Inode.entryCount, if_pos hdp]
    refine List.countP_pos_iff.2 ⟨e, he, ?_⟩
    simp only [hz, ne_eq, not_false_eq_true, decide_true, Bool.and_self]

theorem Removes.file_left (hr : Removes s dp name n ip) (h : Counted sb 0 s.inode)
    (hdir : (s.inode ip).type = .dir) (hone : (s.inode dp).nlink = 1)
    (hmore : 1 < (s.inode dp).entryCount Dirent.plain) :
    ∃ e ∈ (s.inode dp).entries, e.inum ≠ 0 ∧ (s.inode e.inum).type ≠ .free ∧
      (s.inode e.inum).type ≠ .dir := by
  have hclear := hr.count_clear h
  have h1 := h.clear hr.dir hr.first hr.lt hr.entry hr.pos
  generalize ht : Sys.storeEntry s.inode dp n .empty = t1 at hclear h1
  have htype : ∀ j, (t1 j).type = (s.inode j).type := fun j => by rw [← ht, storeEntry_type]
  have hdp : (t1 dp).type = .dir := (htype dp).trans hr.dir
  have hsub : subdirs t1 dp = 0 := by
    have hlinks := h1.links dp
    rw [← ht, storeEntry_nlink, hone, ht, ahead_apply, if_neg hr.ne.symm,
      if_pos (show dp = dp ∧ (s.inode ip).type = .dir from ⟨rfl, hdir⟩)] at hlinks
    have hval : (1 : Int16).toInt = 1 := rfl
    omega
  have hpos : 0 < (t1 dp).count fun _ => true := by omega
  rw [Inode.count, if_pos hdp, List.countP_pos_iff] at hpos
  obtain ⟨e, he, hleads⟩ := hpos
  have hz : e.inum ≠ 0 := of_decide_eq_true (Bool.and_eq_true_iff.1 hleads).1
  refine ⟨e, ?_, hz, htype _ ▸ h1.kids dp hdp e he hz, fun hd => ?_⟩
  · have hmem := List.mem_of_mem_drop he
    rw [← ht, storeEntry_self, Fs.store, if_pos hr.lt] at hmem
    rcases List.mem_or_eq_of_mem_set hmem with hmem | rfl
    · exact hmem
    · exact absurd rfl hz
  · rw [subdirs, Inode.count, if_pos hdp, List.countP_eq_zero] at hsub
    refine hsub e he ?_
    rw [Dirent.leads, decide_eq_true hz, htype, decide_eq_true hd]
    rfl

section
variable {p : P} {path : Path} (hs : Sound s) (hl : LaidOut sb s.inode)
  (ha : LinksAgree sb s.inode) (hcwd : s.cwd p ≠ 0)
include hs hl ha hcwd

theorem ends_sysUnlink (hkeep : KeepsNames s p path) :
    Seq False (sysUnlink sb p (some path)) (Ends sb) s := by
  have h := hl.agrees ha
  have hsame : ∀ s' : Fs P, s'.inode = s.inode → Agrees sb 0 s'.inode := fun s' hs' => hs' ▸ h
  refine cases_sysUnlink hs h.counted hcwd (fun s' _ => hsame s') (fun _ _ s' _ _ => hsame s') ?_
  intro dp name n ip b b' hinode href hsb hres hr hb hv
  rw [← hinode] at h
  refine ends_unlinkEntry hsb h hr hb fun hdir hone hzero => hr.count_eq_zero h.counted ?_
  refine not_lt.1 fun hmore => hkeep dp name hres ((strands_congr hinode href).1 ?_)
  refine ⟨hr.plain.1, hr.plain.2, ip, hr.found, hdir, ?_, hone, hzero, hmore⟩
  simpa [Fs.isdirempty] using hr.empty hdir

theorem loses_sysUnlink (hlose : ¬KeepsNames s p path) :
    Seq False (sysUnlink sb p (some path)) (fun _ u => ¬LinksAgree sb u.inode) s := by
  obtain ⟨d, name, hres, hst⟩ : ∃ d name, s.resolve p path true = some (d, name) ∧
      Strands s d name := by
    unfold KeepsNames at hlose
    push Not at hlose
    exact hlose
  refine cases_sysUnlink hs (hl.counted ha) hcwd (fun s' hnone _ => ?_)
    (fun d' name' s' hres' hbad _ => ?_) ?_
  · exact absurd (hres.symm.trans hnone) (Option.some_ne_none _)
  · obtain ⟨rfl, rfl⟩ := Prod.mk.inj (Option.some.inj (hres.symm.trans hres'))
    exact absurd hbad hst.not_refuses
  intro d' name' n ip b b' hinode href hsb hres' hr hb hv
  obtain ⟨rfl, rfl⟩ := Prod.mk.inj (Option.some.inj (hres.symm.trans hres'))
  rw [← strands_congr hinode href] at hst
  rw [← hinode] at ha hl
  obtain ⟨-, -, j, hj, hdir, -, hone, hzero, hmore⟩ := hst
  obtain rfl := Option.some.inj (hr.found.symm.trans hj)
  obtain ⟨e, he, hz, hlive, hfile⟩ := hr.file_left (hl.counted ha) hdir hone hmore
  have hlt : d < sb.ninodes := (hl.inum d (by simp [hr.dir])).2
  exact Prog.wp_mono (drops_unlinkEntry hr hb hv hdir hone hzero) fun _ u hu =>
    hu.not_linksAgree ha hlt hr.dir hdir he hz hlive hfile

end

def Call.onNames : Call → Bool
  | .link _ _ | .unlink _ | .mkdir _ | .mknod _ _ _ => true
  | .open _ omode => decide (omode &&& O_CREATE ≠ 0)
  | _ => false

theorem ends_body [DecidableEq P] {p : P} {call : Call} (hs : Sound s) (hl : LaidOut sb s.inode)
    (ha : LinksAgree sb s.inode) (hfile : ∀ f, (s.file f).ref = 0 → (s.file f).type = .none)
    (hcwd : s.cwd p ≠ 0) (hcall : call.onNames = true)
    (hkeep : ∀ path ∈ call.removes, KeepsNames s p path) :
    Seq False (body sb p call) (Ends sb) s := by
  cases call with
  | link old new => exact ends_sysLink hs hl ha hcwd
  | unlink path =>
    cases path with
    | none => exact hl.agrees ha
    | some path => exact ends_sysUnlink hs hl ha hcwd (hkeep path rfl)
  | «open» path omode => exact ends_sysOpen hs hl ha hfile hcwd (of_decide_eq_true hcall)
  | mkdir path => exact ends_mknod hs hl ha hcwd (by decide)
  | mknod path major minor => exact ends_mknod hs hl ha hcwd (by decide)
  | _ => cases hcall

theorem loses_body [DecidableEq P] {p : P} {call : Call} {path : Path} (hs : Sound s)
    (hl : LaidOut sb s.inode) (ha : LinksAgree sb s.inode) (hcwd : s.cwd p ≠ 0)
    (hpath : path ∈ call.removes) (hlose : ¬KeepsNames s p path) :
    Seq False (body sb p call) (fun _ u => ¬LinksAgree sb u.inode) s := by
  cases call with
  | unlink q =>
    obtain rfl : q = some path := hpath
    exact loses_sysUnlink hs hl ha hcwd hlose
  | _ => cases hpath

theorem call_links_agree [DecidableEq P] (sb : Super) (s : Fs P) (hs : Sound s)
    (hl : LaidOut sb s.inode) (ha : LinksAgree sb s.inode)
    (hfile : ∀ f, (s.file f).ref = 0 → (s.file f).type = .none) (p : P) (call : Call)
    (hcall : call.onNames = true) (s' : Fs P)
    (hstep : callStep sb (.ok s) (p, call) = some (.ok s')) :
    LinksAgree sb s'.inode ↔ ∀ path ∈ call.removes, KeepsNames s p path := by
  simp only [callStep] at hstep
  split at hstep
  · cases hstep
  rename_i hcwd
  have hend : ∀ Q, Seq False (body sb p call) Q s → ∃ r, Q r s' := by
    intro Q hQ
    have hrun := Prog.run_of_wp p (fun _ => none) hQ
    cases hr : (body sb p call).run p (fun _ => none) s with
    | done r lock u =>
      rw [hr] at hstep hrun
      cases hstep
      exact ⟨r, hrun⟩
    | panicked m =>
      rw [hr] at hstep
      cases hstep
    | blocked j =>
      rw [hr] at hstep
      cases hstep
  constructor
  · intro hagree path hpath
    by_contra hlose
    obtain ⟨-, hnot⟩ := hend _ (loses_body hs hl ha hcwd hpath hlose)
    exact hnot hagree
  · intro hkeep
    obtain ⟨r, hag⟩ := hend _ (ends_body hs hl ha hfile hcwd hcall hkeep)
    exact Counted.linksAgree (Agrees.counted hag) (Agrees.upward hag)

def strandedTable : Table
  | 1 => ⟨.dir, 0, 0, 1, 0, [⟨1, dot⟩, ⟨1, dotdot⟩, .empty]⟩
  | 2 => ⟨.dir, 0, 0, 1, 0, [⟨2, dot⟩, ⟨1, dotdot⟩, ⟨3, [115]⟩, ⟨4, [102]⟩]⟩
  | 3 => ⟨.dir, 0, 0, 1, 0, [⟨3, dot⟩, ⟨2, dotdot⟩]⟩
  | 4 => ⟨.file, 0, 0, 1, 0, []⟩
  | _ => ⟨.free, 0, 0, 0, 0, []⟩

def stranded : Fs (Fin 1) where
  inode := strandedTable
  ref := fun i => if i = 3 then 1 else 0
  valid := fun i => decide (i = 3)
  file := fun _ => ⟨.none, 0, false, false, 0, 0⟩
  ofile := fun _ _ => none
  cwd := fun _ => 3
  outstanding := 0
  hist := []

theorem strandedTable_free {i : ℕ} (h : 5 ≤ i) : strandedTable i = ⟨.free, 0, 0, 0, 0, []⟩ := by
  unfold strandedTable
  split <;> first | omega | rfl

theorem strandedTable_all {q : ℕ → Inode → Prop} (h : ∀ i < 5, q i (strandedTable i))
    (hfree : ∀ i, q i ⟨.free, 0, 0, 0, 0, []⟩) (i : ℕ) : q i (strandedTable i) := by
  by_cases hi : i < 5
  · exact h i hi
  · rw [strandedTable_free (by omega)]
    exact hfree i

theorem laidOut_stranded : LaidOut small strandedTable where
  root := rfl
  inum := strandedTable_all (q := fun i x => x.type ≠ .free → 0 < i ∧ i < small.ninodes)
    (by decide) fun _ h => absurd rfl h
  free := strandedTable_all (q := fun _ x => x.type = .free → x.nlink = 0) (by decide)
    fun _ _ => rfl
  dots d hd := ⟨(strandedTable d).parent,
    strandedTable_all (q := fun d x => x.type = .dir → (strandedTable x.parent).type = .dir ∧
      x.entries.take 2 = [⟨d, dot⟩, ⟨x.parent, dotdot⟩]) (by decide) (fun _ h => by cases h) d hd⟩
  plain := strandedTable_all (q := fun _ x => x.type = .dir → ∀ e ∈ x.entries.drop 2,
    e.inum ≠ 0 → e.plain = true) (by decide) fun _ h => by cases h
  kids := strandedTable_all (q := fun _ x => x.type = .dir → ∀ e ∈ x.entries.drop 2,
    e.inum ≠ 0 → (strandedTable e.inum).type ≠ .free) (by decide) fun _ h => by cases h
  once := strandedTable_all (q := fun i x => x.type = .dir →
    entryCount small strandedTable (fun e => e.plain && decide (e.inum = i)) ≤ 1)
    (by decide +kernel) fun _ h => by cases h
  few := by decide +kernel

theorem linksAgree_stranded : LinksAgree small strandedTable :=
  strandedTable_all (q := fun i x => x.type ≠ .free → x.nlink.toInt =
    (if x.type = .dir then
      entryCount small strandedTable (fun e => e.plain && decide (e.inum = i)) +
        x.entryCount (fun e => e.plain && decide ((strandedTable e.inum).type = .dir)) +
        if i = ROOTINO then 1 else 0
    else entryCount small strandedTable fun e => decide (e.inum = i) : ℕ))
    (by decide +kernel) fun _ h => absurd rfl h

theorem sound_stranded : Sound stranded := by
  refine ⟨fun i hi hz => ?_, fun i hi => ?_, fun _ _ => Nat.one_pos⟩
  · have hlinks := strandedTable_all (q := fun _ x => x.type ≠ .free → x.nlink ≠ 0) (by decide)
      (fun _ h => absurd rfl h) i hi
    exact absurd hz hlinks
  · refine .inl (decide_eq_false ?_)
    rintro rfl
    cases hi

def lostB (sb : Super) (i : ℕ) : Between P → Bool
  | .ok s => decide ((s.inode i).type = .file) && decide ((s.inode i).nlink = 1) &&
      decide (entryCount sb s.inode (fun e => decide (e.inum = i)) = 0)
  | .error _ => false

theorem not_linksAgree_of_check {s : Fs P} (h : lostB sb i (.ok s) = true) :
    ¬ LinksAgree sb s.inode := by
  intro ha
  simp only [lostB, Bool.and_eq_true, decide_eq_true_eq] at h
  obtain ⟨⟨htype, hlink⟩, hnone⟩ := h
  have := ha i (by simp [htype])
  rw [if_neg (by simp [htype]), hnone, hlink] at this
  cases this

theorem unlink_loses_names :
    Sound stranded ∧ LaidOut small stranded.inode ∧ LinksAgree small stranded.inode ∧
      (∀ f, (stranded.file f).ref = 0 → (stranded.file f).type = .none) ∧
      ∃ s', callStep small (.ok stranded) (only, .unlink (some [46, 46, 47, 115])) =
          some (.ok s') ∧ ¬ LinksAgree small s'.inode := by
  refine ⟨sound_stranded, laidOut_stranded, linksAgree_stranded, fun _ _ => rfl, ?_⟩
  obtain ⟨b, hrun, hb⟩ := exec_exists (callStep small) (.ok stranded)
    [(only, .unlink (some [46, 46, 47, 115]))] (fun b => lostB small 4 b = true) (by decide +kernel)
  cases b with
  | error m => cases hb
  | ok s' =>
    refine ⟨s', ?_, not_linksAgree_of_check hb⟩
    simpa [exec] using hrun

theorem call_links_agree_file :
    ∃ s', callStep small (.ok stranded) (only, .unlink (some [46, 46, 47, 102])) =
        some (.ok s') ∧ LinksAgree small s'.inode := by
  obtain ⟨b, hrun, hb⟩ := exec_exists (callStep small) (.ok stranded)
    [(only, .unlink (some [46, 46, 47, 102]))] (fun b => b.panicked = none) (by decide +kernel)
  cases b with
  | error m => cases hb
  | ok s' =>
    have hstep : callStep small (.ok stranded) (only, .unlink (some [46, 46, 47, 102])) =
        some (.ok s') := by simpa [exec] using hrun
    refine ⟨s', hstep, (call_links_agree small stranded sound_stranded laidOut_stranded
      linksAgree_stranded (fun _ _ => rfl) only _ rfl s' hstep).2 fun path hpath => ?_⟩
    obtain rfl := Option.some.inj hpath
    rintro dp name hres ⟨-, -, ip, hl, hd, -⟩
    have hres' : stranded.resolve only [46, 46, 47, 102] true = some (2, [102]) := by decide
    obtain ⟨rfl, rfl⟩ := Prod.mk.inj (Option.some.inj (hres'.symm.trans hres))
    have hl' : lookup (stranded.inode 2) [102] = some 4 := by decide
    obtain rfl := Option.some.inj (hl'.symm.trans hl)
    cases hd

end Xv6.Sys
