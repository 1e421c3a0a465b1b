import Xv6.Fs.Free
import Xv6.Fs.Walk

namespace Xv6.Fs

open Lib Sys Function
open Multiset (mem_singleton_self)

def State.rewrite (sb : Super) (s : State) (w : ℕ) (x : Dinode) : State :=
  (s.setInode w x).write (sb.iblock w) (putDinode · (w % IPB) x)

def Dinode.relink (x : Dinode) (d : ℕ) : Dinode := { x with nlink := (x.nlink + d) % 2 ^ 16 }

variable {sb : Super} {I : ℕ → Dinode} {Φ : ℕ → ℕ → Block} {s0 s1 s : State} {m : Multiset ℕ}
  {w ip cwd : ℕ} {x y : Dinode}

section
variable (h : Settled sb I Φ s) (hw : w < sb.ninodes)
include h hw

theorem Settled.rewrite (hv : s.valid w = true)
    (ht : x.type ≠ 0) (hsize : x.size = (I w).size) (haddrs : x.addrs = (I w).addrs)
    (hf : x.Fits) : Settled sb (update I w x) Φ (s.rewrite sb w x) := by
  have hcore := ((h.work hw hv).become haddrs ht hf).flush
  rw [State.setInode_self] at hcore
  have hc : (fun i => cdiv (update I w x i).size) = fun i => cdiv (I i).size := by
    funext i
    by_cases hi : i = w
    · rw [hi, update_self, hsize]
    · rw [update_of_ne hi]
  rw [Settled, hc]
  exact hcore

theorem Settled.fits : (I w).Fits := by
  rw [← h.disk w hw]
  exact Super.dinode_fits

theorem Settled.relink (hv : s.valid w = true)
    (d : ℕ) : Settled sb (update I w ((I w).relink d)) Φ
      (s.rewrite sb w ((I w).relink d)) := by
  have hf := h.fits hw
  exact h.rewrite hw hv (h.cache w hw (Option.some_ne_none w) hv).2 rfl rfl
    ⟨hf.type, hf.major, hf.minor, Nat.mod_lt _ (by decide), hf.size, hf.addrs, hf.past⟩

end

theorem disk_rewrite_rewrite (h : sb.dinode s.disk w = y) {t : State}
    (ht : t.disk = (s.rewrite sb w x).disk) : (t.rewrite sb w y).disk = s.disk := by
  have hback : putDinode (s.disk (sb.iblock w)) (w % IPB) y = s.disk (sb.iblock w) := by
    rw [← h]
    exact putDinode_getDinode ..
  show update t.disk (sb.iblock w) (putDinode (t.disk (sb.iblock w)) (w % IPB) y) = s.disk
  rw [ht]
  show update (update s.disk (sb.iblock w) _) (sb.iblock w)
    (putDinode (update s.disk (sb.iblock w) _ (sb.iblock w)) (w % IPB) y) = s.disk
  rw [update_self, update_idem, putDinode_putDinode]
  exact (congrArg (update s.disk (sb.iblock w)) hback).trans (update_eq_self ..)

theorem relink_relink (hf : x.Fits) : (x.relink 1).relink (2 ^ 16 - 1) = x := by
  have hlt := hf.nlink
  have hlink : ((x.nlink + 1) % 2 ^ 16 + (2 ^ 16 - 1)) % 2 ^ 16 = x.nlink := by omega
  show { x with nlink := ((x.nlink + 1) % 2 ^ 16 + (2 ^ 16 - 1)) % 2 ^ 16 } = x
  rw [hlink]

theorem addLink_spec (h : Settled sb I Φ s1) (hw : w < sb.ninodes) (hv : s1.valid w = true)
    (d : ℕ) {E : Panic → State → Prop} :
    Triple (· = s1) (addLink sb w d)
      (fun _ s => s = s1.rewrite sb w ((I w).relink d)) E := by
  unfold addLink
  refine .bind (R := fun _ s => s = s1.setInode w ((I w).relink d))
    (.modify fun s hs => ?_) fun _ => .modify fun s hs => ?_
  · rw [hs, h.inode_eq hw hv]
    rfl
  · rw [hs, State.setInode_self]
    rfl

def Undone (sb : Super) (I : ℕ → Dinode) (Φ : ℕ → ℕ → Block) (s₀ : State) (r : Int) (s : State) :
    Prop := r = -1 → Held sb I Φ s₀ 0 s

theorem undone_zero : Undone sb I Φ s0 0 s := fun h => absurd h (by decide)

theorem putFail_spec (h : WellFormed sb I Φ s0) (hi : ip < sb.ninodes)
    {E : Panic → State → Prop} :
    Triple (Held sb I Φ s0 {ip}) (do
        iput sb ip
        pure (-1) : Op Int) (Undone sb I Φ s0) E :=
  Prog.Triple.bind ((Held.put (m := 0) h hi).panics _) fun _ => .pure fun _ hs _ => hs

structure Counted (sb : Super) (I : ℕ → Dinode) (s₀ : State) (ip : ℕ) (s₁ : State) : Prop where
  lt : ip < sb.ninodes
  file : (I ip).type ≠ T_DIR
  disk : ∃ t : State, t.disk = s₀.disk ∧ s₁.disk = (t.rewrite sb ip ((I ip).relink 1)).disk
  ref : ∀ i, s₁.ref i = s₀.ref i + ({ip} : Multiset ℕ).count i

def counted (I : ℕ → Dinode) (ip : ℕ) : ℕ → Dinode := update I ip ((I ip).relink 1)

theorem Counted.ref_pos (h : Counted sb I s0 ip s1) : 0 < s1.ref ip := by
  rw [h.ref, Multiset.count_singleton_self]
  exact Nat.succ_pos _

theorem Counted.wellFormed (hc : Counted sb I s0 ip s1) (h : WellFormed sb I Φ s0)
    (hs : Settled sb (counted I ip) Φ s1) : WellFormed sb (counted I ip) Φ s1 := by
  have hdir : ∀ i, (counted I ip i).type = T_DIR → counted I ip i = I i := by
    intro i hi
    by_cases hip : i = ip
    · rw [hip, counted, update_self] at hi
      exact absurd hi hc.file
    · exact update_of_ne hip ..
  refine ⟨hs, fun i hi ht hlink => ?_, h.root, fun i hi ht => ?_, fun i hi ht => ?_⟩
  · by_cases hip : i = ip
    · rw [hip]
      exact hc.ref_pos
    · rw [counted, update_of_ne hip] at ht hlink
      rw [hc.ref]
      exact Nat.add_pos_left (h.live i hi ht hlink) _
  · have heq := hdir i ht
    rw [heq] at ht ⊢
    exact h.size i hi ht
  · have heq := hdir i ht
    rw [heq] at ht ⊢
    exact h.inum i hi ht

section
variable (h : WellFormed sb I Φ s0)
include h

theorem linkBad_spec (hc : Counted sb I s0 ip s1) :
    Triple (Held sb (counted I ip) Φ s1 0) (linkBad sb ip) (Undone sb I Φ s0)
      fun _ _ => True := by
  unfold linkBad
  refine .bind ((Held.ilock hc.lt (Nat.add_pos_left hc.ref_pos _)).err fun _ _ _ => trivial)
    fun _ => .of_state fun s2 hs2 => ?_
  obtain ⟨-, hv, hheld⟩ := hs2
  have hself : counted I ip ip = (I ip).relink 1 := update_self ..
  have hback := relink_relink (h.settled.fits hc.lt)
  refine .bind (addLink_spec hheld.settled hc.lt hv _) fun _ =>
    (putFail_spec h hc.lt).pre fun s hs => ?_
  have hset := hheld.settled.relink hc.lt hv (2 ^ 16 - 1)
  obtain ⟨t, ht, hdisk⟩ := hc.disk
  rw [hself, hback] at hs hset
  rw [counted, update_idem, update_eq_self] at hset
  rw [hs]
  refine ⟨hset, ?_, fun i => ?_⟩
  · refine (disk_rewrite_rewrite (x := (I ip).relink 1) (s := t) ?_
      (hheld.disk.trans hdisk)).trans ht
    rw [ht, h.settled.disk ip hc.lt]
  · show s2.ref i = _
    rw [hheld.ref_eq, hc.ref]

theorem linkEnter_spec (hcwd : cwd < sb.ninodes)
    (hc : Counted sb I s0 ip s1) (hs1 : Settled sb (counted I ip) Φ s1) (new : Path) :
    Triple (· = s1) (linkEnter sb cwd new ip) (Undone sb I Φ s0) fun _ _ => True := by
  have hwf := hc.wellFormed h hs1
  unfold linkEnter
  refine .bind ((namex_spec (m := 0) hwf hcwd new true).conseq
    (fun s hs => by rw [hs]; exact .start hs1) (fun _ _ hr => hr) fun _ _ _ => trivial)
    fun r => .of_and fun hr => ?_
  rcases r with _ | ⟨dp, name⟩
  · exact (linkBad_spec h hc).pre fun s hs => hs
  obtain ⟨hdp, hdir⟩ := parent_isDir hwf (origin_lt hwf hcwd new) hr.symm
  refine .bind (((Held.lock hdp (mem_singleton_self dp)).pre
    fun s hs => hs).err fun _ _ _ => trivial) fun _ => .of_state fun s2 hs2 => ?_
  obtain ⟨-, hv, hheld⟩ := hs2
  refine .bind ((dirlink_spec hheld hv (hwf.isDir hdp hdir) hwf.live
    fun k hk => hwf.inum dp hdp hdir k hk).err fun _ _ _ => trivial) fun r =>
      .of_state fun s3 hs3 => ?_
  rcases hs3 with ⟨-, rfl, hheld3⟩ | ⟨-, rfl, -⟩
  · refine .bind (((Held.put (m := 0) hwf hdp).panics _).pre
      fun s hs => by rw [hs]; exact hheld3) fun _ => ?_
    exact linkBad_spec h hc
  · -- the name has been entered
    refine .bind (.ends_somehow _) fun _ => ?_
    exact .bind (.ends_somehow _) fun _ => .pure fun _ _ => undone_zero

theorem sysLink_spec (hcwd : cwd < sb.ninodes) (old new : Option Path) :
    Triple (· = s0) (sysLink sb cwd old new) (Undone sb I Φ s0) fun _ _ => True := by
  have hstart : Held sb I Φ s0 0 s0 := .start h.settled
  have hfail : Triple (· = s0) (pure (-1) : Op Int) (Undone sb I Φ s0) fun _ _ => True :=
    .pure fun s hs _ => hs ▸ hstart
  rcases old with _ | old
  · exact hfail
  rcases new with _ | new
  · exact hfail
  unfold sysLink
  refine .bind ((namei_spec (m := 0) h hcwd old).conseq
    (fun s hs => by rw [hs]; exact hstart) (fun _ _ hr => hr) fun _ _ _ => trivial)
    fun r => .of_and fun hr => ?_
  rcases r with _ | ip
  · exact .pure fun s hs _ => hs
  have hip := walk_lt h (origin_lt h hcwd old) hr.symm
  refine .bind (((Held.lock hip (mem_singleton_self ip)).pre
    fun s hs => hs).err fun _ _ _ => trivial) fun _ => .of_state fun s1 hs1 => ?_
  obtain ⟨-, hv, hheld⟩ := hs1
  refine .bind (hheld.readType hip hv) fun t => .of_and fun ht => ?_
  rw [ht]
  refine .ite (fun _ => (putFail_spec h hip).pre fun s hs => by rw [hs]; exact hheld)
    fun hfile => ?_
  refine .bind (addLink_spec hheld.settled hip hv 1) fun _ => .of_state fun s2 hs2 => ?_
  subst hs2
  refine linkEnter_spec h hcwd ⟨hip, hfile, ⟨s1, hheld.disk, rfl⟩, hheld.ref⟩ ?_ new
  exact hheld.settled.relink hip hv 1

end

theorem unlinkEntry_returns (sb : Super) (dp off ip : ℕ) :
    Triple (fun _ => True) (unlinkEntry sb dp off ip) (Undone sb I Φ s0) fun _ _ => True := by
  unfold unlinkEntry
  refine .bind (.ends_somehow _) fun _ => ?_
  refine .bind (.ends_somehow _) fun t => ?_
  refine .bind (.ends_somehow _) fun _ => ?_
  refine .bind (.ends_somehow _) fun _ => ?_
  refine .bind (.ends_somehow _) fun _ => ?_
  exact .bind (.ends_somehow _) fun _ => .pure fun _ _ => undone_zero

theorem createNew_returns (sb : Super) (dp : ℕ) (name : Name) (type major minor : ℕ) :
    Triple (fun _ => True) (createNew sb dp name type major minor) (fun r _ => r ≠ none)
      fun _ _ => True := by
  unfold createNew
  refine .bind (.ends_somehow _) fun ip => ?_
  refine .bind (.ends_somehow _) fun _ => ?_
  refine .bind (.ends_somehow _) fun _ => ?_
  refine .bind (.ends_somehow _) fun _ => ?_
  refine .bind (.ends_somehow _) fun r => ?_
  refine .ite (fun _ => .panic fun _ _ => trivial) fun _ => ?_
  exact .bind (.ends_somehow _) fun _ => .pure fun _ _ => Option.some_ne_none ip

def Absent (I : ℕ → Dinode) (Φ : ℕ → ℕ → Block) (cwd : ℕ) (path : Path) : Prop :=
  ∃ dp name, parent I Φ (origin cwd path) (elems path) = some (dp, name) ∧
    entryNamed I Φ dp name = none

structure Made (sb : Super) (I : ℕ → Dinode) (ip : ℕ) (s : State) : Prop where
  lt : ip < sb.ninodes
  free : (I ip).type = 0
  settled : ∃ J Φ, Settled sb J Φ s ∧ (J ip).type = T_FILE ∧ (J ip).nlink = 1

theorem keeps_ilock (sb : Super) (i : ℕ) {j : ℕ} :
    Prog.Keeps (fun s => s.valid j = true) (fun _ _ => True) (ilock sb i) := by
  constructor
  intro s h
  show Prog.Ends _ _ (Prog.result (if s.ref i < 1 then _ else _) s)
  split
  · trivial
  split
  · exact h
  show Prog.Ends _ _ (Prog.result (if (sb.dinode s.disk i).type = 0 then _ else _)
    (s.load i (sb.dinode s.disk i)))
  split
  · trivial
  · show update s.valid i true j = true
    by_cases hj : j = i
    · rw [hj, update_self]
    · rw [update_of_ne hj, h]

theorem initInode_spec (h : Settled sb I Φ s1) (hw : w < sb.ninodes) (hv : s1.valid w = true)
    (major minor : ℕ) {E : Panic → State → Prop} :
    Triple (· = s1) (initInode sb w major minor)
      (fun _ s => s = s1.rewrite sb w
        { I w with major := major % 2 ^ 16, minor := minor % 2 ^ 16, nlink := 1 }) E := by
  unfold initInode
  refine .bind (R := fun _ s => s = s1.setInode w
    { I w with major := major % 2 ^ 16, minor := minor % 2 ^ 16, nlink := 1 })
    (.modify fun s hs => ?_) fun _ => .modify fun s hs => ?_
  · rw [hs, h.inode_eq hw hv]
  · rw [hs, State.setInode_self]
    rfl

theorem createNew_spec {dp n : ℕ} {name : Name} (h : Settled sb I Φ s1) (hd : IsDir sb I dp n)
    (hv : s1.valid dp = true) (hslot : slotOf (Φ dp) n name = none) (major minor : ℕ) :
    Triple (· = s1) (createNew sb dp name T_FILE major minor)
      (fun r s => ∃ ip, r = some ip ∧ Made sb I ip s) fun _ _ => True := by
  have hl : ∀ i ∈ List.range' 1 (sb.ninodes - 1), i < sb.ninodes := fun i hi => by
    have := List.mem_range'_1.1 hi
    omega
  unfold createNew
  refine .bind ((iallocLoop_spec h (show T_FILE ≠ 0 by decide) (by decide) hl).err
    fun _ _ _ => trivial) fun ip => .of_state fun s2 hs2 => ?_
  obtain ⟨hmem, hfree, hs2, href, hvalid⟩ := hs2
  have hip := hl ip hmem
  have hne : dp ≠ ip := fun hc => by
    rw [← hc, hd.type] at hfree
    exact absurd hfree (by decide)
  have hlock : Triple (· = s2) (ilock sb ip) _ _ :=
    ((Held.ilock (m := 0) hip (Nat.add_pos_left href _)).and (keeps_ilock sb ip (j := dp))).pre
      fun s hs => by
        rw [hs]
        exact ⟨.start hs2, (hvalid dp hne).trans hv⟩
  refine .bind (hlock.err fun _ _ _ => trivial) fun _ => .of_state fun s3 hs3 => ?_
  obtain ⟨⟨-, hv3, hheld⟩, hvdp⟩ := hs3
  refine .bind (initInode_spec hheld.settled hip hv3 major minor) fun _ => .of_state fun s4 hs4 => ?_
  rw [update_self] at hs4
  generalize hx : ({ Dinode.new T_FILE with
    major := major % 2 ^ 16, minor := minor % 2 ^ 16, nlink := 1 } : Dinode) = x at hs4
  have hset := hheld.settled.rewrite hip hv3 (x := x)
    (by rw [← hx]; exact (by decide : T_FILE ≠ 0))
    (by rw [← hx, update_self]) (by rw [← hx, update_self]) (by
      have hf := Dinode.new_fits (show T_FILE < 2 ^ 16 by decide)
      rw [← hx]
      exact ⟨hf.type, Nat.mod_lt _ (by decide), Nat.mod_lt _ (by decide),
        (by decide : 1 < 2 ^ 16), hf.size, hf.addrs, hf.past⟩)
  rw [← hs4, update_idem] at hset
  have hv4 : s4.valid dp = true := by
    rw [hs4]
    exact hvdp
  rw [if_neg (by decide)]
  refine .bind (R := fun _ s => s = s4) (.pure fun s hs => hs) fun _ => ?_
  have hlink : Triple (· = s4) (dirlink sb dp name ip) _ _ := dirlink_new (.start hset) hv4
    (n := n) ⟨hd.lt, by rw [update_of_ne hne, hd.type], by rw [update_of_ne hne, hd.size]⟩
    (by rw [update_of_ne hne, hslot])
  refine .bind (hlink.err fun _ _ _ => trivial) fun r => .of_and fun hr => ?_
  rw [hr, if_neg (by decide)]
  refine .of_state fun s5 hs5 => ?_
  obtain ⟨y, -, hset5, -⟩ := hs5
  refine .bind ((iput_spec hset5 hd.lt).panics _) fun _ => .pure fun s hs => ⟨ip, rfl, hip, hfree, ?_⟩
  obtain ⟨J, hJ, hset6⟩ := hs
  refine ⟨J, _, hset6, ?_, ?_⟩
  · rw [hJ ip (.inl hne.symm), update_of_ne hne.symm, update_self, ← hx]
    rfl
  · rw [hJ ip (.inl hne.symm), update_of_ne hne.symm, update_self, ← hx]

theorem Made.iput (h : Made sb I ip s1) :
    Triple (· = s1) (Fs.iput sb ip) (fun _ => Made sb I ip) Never := by
  obtain ⟨J, Ψ, hset, htype, hlink⟩ := h.settled
  refine (iput_spec hset h.lt).post fun _ s hs => ⟨h.lt, h.free, ?_⟩
  obtain ⟨K, hK, hset'⟩ := hs
  have hsame := hK ip (.inr (hlink ▸ Nat.one_ne_zero))
  exact ⟨K, Ψ, hset', hsame ▸ htype, hsame ▸ hlink⟩

theorem Made.disk_ne (h : Made sb I ip s1) (hset : Settled sb I Φ s0) : s1.disk ≠ s0.disk := by
  obtain ⟨J, Ψ, hset', htype, -⟩ := h.settled
  intro heq
  have hold := h.free
  rw [← hset.disk ip h.lt, ← heq, hset'.disk ip h.lt, htype] at hold
  exact absurd hold (by decide)

variable (h : WellFormed sb I Φ s0)
include h

theorem occupied_spec (hheld : Held sb I Φ s0 m s1)
    (hip : ip < sb.ninodes) (hv : s1.valid ip = true) :
    Triple (· = s1) (occupied sb ip)
      (fun r s => (r = true ↔ (I ip).type = T_DIR ∧
        ∃ j, 2 ≤ j ∧ j < (I ip).size / 16 ∧ inumAt (Φ ip) j ≠ 0) ∧ s = s1) Never := by
  unfold occupied
  refine .bind (hheld.readType hip hv) fun t => .of_and fun ht => ?_
  rw [ht]
  refine .ite (fun hdir => ?_) fun hdir => .pure fun s hs => ⟨?_, hs⟩
  · refine .bind (isdirempty_spec hheld.settled hv (h.isDir hip hdir)) fun empty =>
      .of_and fun hempty => .pure fun s hs => ⟨?_, hs⟩
    rw [Bool.not_eq_true', ← Bool.not_eq_true, hempty]
    push Not
    exact (and_iff_right hdir).symm
  · exact iff_of_false Bool.false_ne_true fun hc => hdir hc.1

theorem unlinkName_spec {dp : ℕ} (hdp : dp < sb.ninodes) (hdir : (I dp).type = T_DIR)
    (hheld : Held sb I Φ s0 {dp} s1) (hv : s1.valid dp = true) (name : Name) :
    Triple (· = s1) (unlinkName sb dp name) (Undone sb I Φ s0) fun _ _ => True := by
  unfold unlinkName
  refine .ite (fun _ => (putFail_spec h hdp).pre fun s hs => by rw [hs]; exact hheld) fun _ => ?_
  refine .bind ((dirlookup_spec hheld hv (h.isDir hdp hdir)).err fun _ _ _ => trivial) fun r =>
    .of_and fun hr => ?_
  rcases hslot : entryNamed I Φ dp name with _ | k
  · rw [show slotOf (Φ dp) ((I dp).size / 16) name = none from hslot] at hr
    subst hr
    exact (putFail_spec h hdp).pre fun s hs => (zero_add ({dp} : Multiset ℕ)) ▸ hs.2
  rw [show slotOf (Φ dp) ((I dp).size / 16) name = some k from hslot] at hr
  subst hr
  have hip := h.next_lt hdp hdir hslot
  refine .bind (((Held.lock (m := inumAt (Φ dp) k ::ₘ {dp}) hip
    (Multiset.mem_cons_self ..)).conseq (fun s hs => hs.2) (fun _ _ hs => hs)
    fun _ _ _ => trivial)) fun _ => .of_state fun s2 hs2 => ?_
  obtain ⟨-, hv2, hheld2⟩ := hs2
  refine .bind (R := fun x s => x = I (inumAt (Φ dp) k) ∧ s = s2)
    (.read fun s hs => ⟨by rw [hs, hheld2.settled.inode_eq hip hv2], hs⟩) fun x =>
    .of_and fun hx => ?_
  refine .ite (fun _ => .panic fun _ _ => trivial) fun _ => ?_
  refine .bind ((occupied_spec h hheld2 hip hv2).panics _) fun full =>
    .of_and fun _ => ?_
  refine .ite (fun _ => ?_) fun _ => ?_
  · refine .bind (((Held.put h hip).panics _).pre fun s hs => by rw [hs]; exact hheld2)
      fun _ => putFail_spec h hdp
  · -- the name is removed
    exact (unlinkEntry_returns sb dp _ _).pre fun _ _ => trivial

variable (hcwd : cwd < sb.ninodes)
include hcwd

theorem sysUnlink_spec (path : Option Path) :
    Triple (· = s0) (sysUnlink sb cwd path) (Undone sb I Φ s0) fun _ _ => True := by
  have hstart : Held sb I Φ s0 0 s0 := .start h.settled
  rcases path with _ | path
  · exact .pure fun s hs _ => hs ▸ hstart
  unfold sysUnlink
  refine .bind ((namex_spec (m := 0) h hcwd path true).conseq
    (fun s hs => by rw [hs]; exact hstart) (fun _ _ hr => hr) fun _ _ _ => trivial)
    fun r => .of_and fun hr => ?_
  rcases r with _ | ⟨dp, name⟩
  · exact .pure fun s hs _ => hs
  obtain ⟨hdp, hdir⟩ := parent_isDir h (origin_lt h hcwd path) hr.symm
  refine .bind (((Held.lock hdp (mem_singleton_self dp)).pre
    fun s hs => hs).err fun _ _ _ => trivial) fun _ => .of_state fun s1 hs1 => ?_
  obtain ⟨-, hv, hheld⟩ := hs1
  exact unlinkName_spec h hdp hdir hheld hv name

theorem create_spec (path : Path)
    (type major minor : ℕ) :
    Triple (· = s0) (create sb cwd path type major minor)
      (fun r s => (¬Absent I Φ cwd path ∧ ((r = none ∧ Held sb I Φ s0 0 s) ∨
          ∃ ip < sb.ninodes, r = some ip ∧ s.valid ip = true ∧ Held sb I Φ s0 {ip} s)) ∨
        (Absent I Φ cwd path ∧ r ≠ none ∧ (type = T_FILE → ∃ ip, r = some ip ∧ Made sb I ip s)))
      fun _ _ => True := by
  have hstart : Held sb I Φ s0 0 s0 := .start h.settled
  unfold create
  refine .bind ((namex_spec (m := 0) h hcwd path true).conseq
    (fun s hs => by rw [hs]; exact hstart) (fun _ _ hr => hr) fun _ _ _ => trivial)
    fun r => .of_and fun hr => ?_
  rcases r with _ | ⟨dp, name⟩
  · refine .pure fun s hs => .inl ⟨?_, .inl ⟨rfl, hs⟩⟩
    rintro ⟨dp, name, hparent, -⟩
    exact absurd (hr.trans hparent) (Option.some_ne_none _).symm
  obtain ⟨hdp, hdir⟩ := parent_isDir h (origin_lt h hcwd path) hr.symm
  refine .bind (((Held.lock hdp (mem_singleton_self dp)).pre
    fun s hs => hs).err fun _ _ _ => trivial) fun _ => .of_state fun s1 hs1 => ?_
  obtain ⟨-, hv, hheld⟩ := hs1
  refine .bind ((dirlookup_spec hheld hv (h.isDir hdp hdir)).err fun _ _ _ => trivial) fun r' =>
    .of_and fun hr' => ?_
  rcases hslot : entryNamed I Φ dp name with _ | k
  · rw [show slotOf (Φ dp) ((I dp).size / 16) name = none from hslot] at hr'
    subst hr'
    have habsent : Absent I Φ cwd path := ⟨dp, name, hr.symm, hslot⟩
    by_cases hfile : type = T_FILE
    · subst hfile
      refine .of_state fun s2 hs2 => ?_
      obtain rfl : s2 = s1 := hs2.1 rfl
      refine (createNew_spec hheld.settled (h.isDir hdp hdir) hv hslot major minor).post
        fun r s hs => .inr ⟨habsent, ?_, fun _ => hs⟩
      obtain ⟨ip, rfl, -⟩ := hs
      exact Option.some_ne_none ip
    · exact (createNew_returns sb dp name type major minor).conseq (fun _ _ => trivial)
        (fun r s hne => .inr ⟨habsent, hne, fun hc => absurd hc hfile⟩) fun _ _ _ => trivial
  rw [show slotOf (Φ dp) ((I dp).size / 16) name = some k from hslot] at hr'
  subst hr'
  have hthere : ¬Absent I Φ cwd path := by
    rintro ⟨dp', name', hparent, hnone⟩
    obtain ⟨rfl, rfl⟩ := Prod.mk.inj (Option.some.inj (hr.trans hparent))
    exact absurd (hslot.symm.trans hnone) (Option.some_ne_none k)
  have hip := h.next_lt hdp hdir hslot
  have hput : Triple (Held sb I Φ s0 (dp ::ₘ {inumAt (Φ dp) k})) (iput sb dp) _ _ :=
    Held.put h hdp
  refine .bind ((hput.panics _).pre fun s hs => ?_) fun _ => ?_
  · rw [← Multiset.singleton_add, add_comm]
    exact hs.2
  refine .bind ((Held.lock hip (mem_singleton_self _)).conseq
    (fun s hs => hs) (fun _ _ hs => hs) fun _ _ _ => trivial) fun _ => .of_state fun s2 hs2 => ?_
  obtain ⟨-, hv2, hheld2⟩ := hs2
  refine .bind (hheld2.readType hip hv2) fun t => .of_and fun _ => ?_
  refine .ite (fun _ => .pure fun s hs => .inl ⟨hthere, .inr ⟨_, hip, rfl, ?_, ?_⟩⟩) fun _ => ?_
  · rw [hs]
    exact hv2
  · rw [hs]
    exact hheld2
  · refine .bind (((Held.put (m := 0) h hip).panics _).pre fun s hs => by
      rw [hs]; exact hheld2) fun _ => .pure fun s hs => .inl ⟨hthere, .inl ⟨rfl, hs⟩⟩

theorem makeNode_spec (path : Option Path)
    (type major minor : ℕ) :
    Triple (· = s0) (makeNode sb cwd path type major minor) (Undone sb I Φ s0)
      fun _ _ => True := by
  have hstart : Held sb I Φ s0 0 s0 := .start h.settled
  rcases path with _ | path
  · exact .pure fun s hs _ => hs ▸ hstart
  unfold makeNode
  refine .bind (create_spec h hcwd path type major minor) fun r => ?_
  rcases r with _ | ip
  · refine .pure fun s hs _ => ?_
    rcases hs with ⟨-, ⟨-, hheld⟩ | ⟨ip, -, hr, -⟩⟩ | ⟨-, hr, -⟩
    · exact hheld
    · exact absurd hr (Option.some_ne_none ip).symm
    · exact absurd rfl hr
  · exact .bind (.ends_somehow _) fun _ => .pure fun _ _ => undone_zero

end Xv6.Fs
